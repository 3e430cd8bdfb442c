import BareImports.Text.Cut
import BareImports.Text.DecimalDigit

/-!
# Exact versions

* `Version.isExact`: three numbers, an optional pre-release and an optional build, as semantic versioning
  writes them.
-/

namespace BareImports.Version

open Text

/-- Characters of a pre-release or a build. -/
def isTagChar (c : Char) : Bool := c.isAlphanum || c == '.' || c == '-'

/-- A text without one line feed at its end. -/
def dropFinalLineFeed (s : List Char) : List Char := if endsWith "\n" s then s.dropLast else s

/-- A number has at least one and at most 4300 digits and no needless zero in front. -/
def isNumber (s : List Char) : Bool :=
  !s.isEmpty && s.all isDecimalDigit && s.length ≤ 4300 && !(s.head? == some '0' && s.length > 1)

/-- An identifier of a build is not empty. -/
def isBuildId (s : List Char) : Bool := !s.isEmpty && s.all isTagChar

/-- An identifier of a pre-release is not empty and no number with a needless zero in front. -/
def isPreId (s : List Char) : Bool :=
  isBuildId s && !(s.head? == some '0' && s.length > 1 && s.all Char.isDigit)

/-- The part behind a mark, if the text has the mark. -/
def behind (mark : Char) (s : List Char) : List Char × Option (List Char) :=
  match cut? mark s with
  | some (l, r) => (l, some r)
  | none => (s, none)

/-- Whether a text writes one exact version: `1.2.3`, `1.0.0-rc.1`, `1.0.0+build`. -/
def isExact (text : String) : Bool :=
  let (s, build) := behind '+' (dropFinalLineFeed text.toList)
  let (core, pre) := behind '-' s
  (match core.splitOn '.' with
    | [major, minor, patch] => isNumber major && isNumber minor && isNumber patch
    | _ => false) &&
  (pre.all fun p => (p.splitOn '.').all isPreId) &&
  (build.all fun b => (b.splitOn '.').all isBuildId)

end BareImports.Version
