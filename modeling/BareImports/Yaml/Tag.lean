import BareImports.Text.Hex
import BareImports.Text.Utf8
import BareImports.Yaml.Cursor

/-!
# Tags, anchors and directives

* `Tag`: a tag as it is written; `Tag.scan`: the tag behind an exclamation mark;
* `anchor`: the name behind `&` or `*`;
* `Directive`: a line in front of a document; `Directive.scan`.
-/

namespace BareImports.Yaml

open Text

/-- Characters of the names of anchors, directives and tag handles. -/
def isNamePart (c : Char) : Bool := c.isAlphanum || c == '-' || c == '_'

/-- The name of an anchor, and what follows it. -/
def anchor (s : List Char) : Except Fault (List Char × List Char) :=
  let (name, r) := s.span isNamePart
  if name.isEmpty then .error .malformed
  else if atGap r || r.head?.any fun c => "?:,]\x7d%@`".toList.contains c then .ok (name, r)
  else .error .malformed

/-- A tag as it is written: a handle that stands for the beginning of its name, if it has one, and the rest. -/
structure Tag where
  /-- The handle with its exclamation marks. -/
  handle : Option (List Char)
  /-- The rest of the name. -/
  suffix : List Char

namespace Tag

/-- Characters of the name of a tag. -/
def isUriPart (c : Char) : Bool := c.isAlphanum || "-;/?:@&=+$,_.!~*'()[]%".toList.contains c

/-- The bytes that percent signs announce in front of a text, and what follows. -/
def escapes : Nat → List Char → Except Fault (List UInt8 × List Char)
  | 0, s => .ok ([], s)
  | fuel + 1, s => match s with
    | '%' :: a :: b :: r => match hexValue? a, hexValue? b with
      | some hi, some lo => (escapes fuel r).map fun (bs, r) => ((hi * 16 + lo).toUInt8 :: bs, r)
      | _, _ => .error .malformed
    | '%' :: _ => .error .malformed
    | _ => .ok ([], s)

/-- The name of a tag in front of a text, and what follows it. -/
def uriPart : Nat → List Char → Except Fault (List Char × List Char)
  | 0, s => .ok ([], s)
  | fuel + 1, s => match s with
    | [] => .ok ([], [])
    | c :: r =>
      if c == '%' then do
        let (bytes, r) ← escapes s.length s
        match Utf8.decode? bytes with
        | some cs =>
          let (u, r) ← uriPart fuel r
          return (cs ++ u, r)
        | none => throw .malformed
      else if isUriPart c then (uriPart fuel r).map fun (u, r) => (c :: u, r)
      else .ok ([], s)

/-- The name of a tag, which is not empty, and what follows it. -/
def uri (s : List Char) : Except Fault (List Char × List Char) := do
  if (s.head?.any isUriPart) then uriPart s.length s else throw .malformed

/-- A handle in front of a text, and what follows it. -/
def handleOf (s : List Char) : Except Fault (List Char × List Char) :=
  match s with
  | '!' :: ' ' :: r => .ok (['!'], ' ' :: r)
  | '!' :: r => match r.span isNamePart with
    | (name, '!' :: r') => .ok ('!' :: name ++ ['!'], r')
    | _ => .error .malformed
  | _ => .error .malformed

/-- The tag that a text begins with behind its exclamation mark, and what follows it. -/
def scan (s : List Char) : Except Fault (Tag × List Char) := do
  let (tag, r) ← match s with
    | '<' :: r => do
      let (u, r) ← uri r
      match r with
      | '>' :: r => pure (⟨none, u⟩, r)
      | _ => throw .malformed
    | _ =>
      if atGap s then pure (⟨none, ['!']⟩, s)
      else if (s.takeWhile fun c => !(c == ' ' || isBreak c)).contains '!' then do
        let (h, r) ← handleOf ('!' :: s)
        let (u, r) ← uri r
        pure (⟨some h, u⟩, r)
      else do
        let (u, r) ← uri s
        pure (⟨some ['!'], u⟩, r)
  if atSpace r then return (tag, r) else throw .malformed

end Tag

/-- A line in front of a document. -/
inductive Directive
  /-- The version of the language. -/
  | version (major : Nat)
  /-- A handle and the beginning of tag names that it stands for. -/
  | handle (name start : List Char)
  /-- One without meaning here. -/
  | other
  deriving BEq, DecidableEq

namespace Directive

/-- A number of the version in front of a text, and what follows it. -/
def number (s : List Char) : Except Fault (Nat × List Char) :=
  let (ds, r) := s.span Char.isDigit
  if ds.isEmpty then .error .malformed
  else if 4300 < ds.length then .error .badValue
  else .ok (ds.foldl (fun n d => n * 10 + (d.toNat - 48)) 0, r)

/-- The version behind the word for it, and what follows it. -/
def versionOf (s : List Char) : Except Fault (Directive × List Char) := do
  let (major, r) ← number (skipSpaces s)
  match r with
  | '.' :: r =>
    let (_, r) ← number r
    if atSpace r then return (.version major, r) else throw .malformed
  | _ => throw .malformed

/-- The handle and the beginning behind the word for them, and what follows. -/
def handleOf (s : List Char) : Except Fault (Directive × List Char) := do
  let (h, r) ← Tag.handleOf (skipSpaces s)
  match r with
  | ' ' :: r =>
    let (u, r) ← Tag.uri (skipSpaces r)
    if atSpace r then return (.handle h u, r) else throw .malformed
  | _ => throw .malformed

/-- The directive that a text begins with behind its percent sign, and the next line. -/
def scan (s : List Char) : Except Fault (Directive × List Char) := do
  let (name, r) := s.span isNamePart
  if name.isEmpty || !atSpace r then throw .malformed
  let (d, r) ← if name == "YAML".toList then versionOf r
    else if name == "TAG".toList then handleOf r
    else pure (other, r.dropWhile fun c => !isBreak c)
  match endLine? r with
  | some r => return (d, r)
  | none => throw .malformed

end Directive

end BareImports.Yaml
