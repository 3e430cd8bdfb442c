import BareImports.Text.Cut

/-!
# Files in packages

* `Location`: a package, a version and a path, as a specifier or a URL of the CDN names them;
* `Location.parse?`: reads `[@scope/]name[@version][/path]`;
* `Location.pkgVersion`, `Location.key`: the written forms that requests and tables use;
* `PackageVersion`: a package pinned to one version.
-/

namespace BareImports

open Text

/-- A file inside a package as the CDN serves it. The version may be empty, a range, a tag or exact; the path
may be empty while the entry module is unknown. -/
structure Location where
  /-- The package, with its scope. -/
  pkg : String
  /-- The version, a range or a tag. -/
  version : String
  /-- The path inside the package. -/
  path : String
  deriving BEq, DecidableEq, Repr, Inhabited

/-- A package pinned to one version. -/
structure PackageVersion where
  /-- The package, with its scope. -/
  pkg : String
  /-- The exact version. -/
  version : String
  deriving BEq, DecidableEq, Repr, Inhabited

namespace Location

/-- Characters of a scope or a name. -/
def isNameChar (c : Char) : Bool := !(c == '/' || c == '\\' || c == '%' || c == '@')

/-- Characters of a version. -/
def isVersionChar (c : Char) : Bool := !(c == '/' || c == '\\' || c == '%')

/-- A longest non-empty run and what follows it. -/
def run? (p : Char → Bool) (s : List Char) : Option (List Char × List Char) :=
  match s.span p with
  | ([], _) => none
  | (l, r) => some (l, r)

/-- A package name with an optional scope, and what follows it. -/
def cutPackage? : List Char → Option (List Char × List Char)
  | '@' :: s => do
    let (scope, r) ← run? isNameChar s
    match r with
    | '/' :: r =>
      let (name, r) ← run? isNameChar r
      return ('@' :: scope ++ '/' :: name, r)
    | _ => none
  | s => run? isNameChar s

/-- An optional version behind `@`, and what follows it. -/
def cutVersion? : List Char → Option (List Char × List Char)
  | '@' :: s => run? isVersionChar s
  | s => some ([], s)

/-- The rest of a specifier: nothing, or `/` and a path on one line, which a line feed may end. -/
def readPath? : List Char → Option (List Char)
  | [] => some []
  | '/' :: s =>
    let (path, rest) := s.span (· != '\n')
    if rest.length ≤ 1 then some path else none
  | _ => none

/-- The parts of `[@scope/]name[@version][/path]`. -/
def parseParts? (s : List Char) : Option (List Char × List Char × List Char) := do
  let (pkg, r) ← cutPackage? s
  let (version, r) ← cutVersion? r
  return (pkg, version, ← readPath? r)

/-- The location that `[@scope/]name[@version][/path]` names. -/
def parse? (s : List Char) : Option Location :=
  (parseParts? s).map fun (pkg, version, path) => ⟨String.ofList pkg, String.ofList version, String.ofList path⟩

/-- The tag that an absent version stands for. -/
def defaultVersion : String := "latest"

/-- `pkg@version`. -/
def pkgVersion (l : Location) : String :=
  l.pkg ++ "@" ++ (if l.version.isEmpty then defaultVersion else l.version)

/-- A text without a slash in front. -/
def dropLeadingSlash : List Char → List Char
  | '/' :: s => s
  | s => s

/-- A text without a slash at its end. -/
def dropFinalSlash (s : List Char) : List Char := if endsWith "/" s then s.dropLast else s

/-- `pkg@version/path`, with no more than the one slash in front of the path and none at the end. -/
def key (l : Location) : String :=
  String.ofList (dropFinalSlash (l.pkgVersion.toList ++ '/' :: dropLeadingSlash l.path.toList))

end Location

end BareImports
