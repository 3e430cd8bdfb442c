import BareImports.Location
import BareImports.Manifest
import BareImports.Script.Declarations
import BareImports.Specifier
import BareImports.Text.LetterCase
import BareImports.Url.Join

/-!
# What to crawl

* `typesPackage`: the package that holds the declarations of another one;
* `candidates`: the files that a relative reference may mean;
* `Reference`: a bare or a relative reference; `references`: those of a declaration file, `entryReferences`: those of
  a source of the project.
-/

namespace BareImports.Typings

open Text

/-- The scope of the packages that hold declarations of others. -/
def typesScope : String := "@types/"

/-- The package that holds the declarations of another one; a scope becomes a part of its name. -/
def typesPackage (pkg : String) : String :=
  match pkg.toList with
  | '@' :: s => match cut? '/' s with
    | some (scope, name) => typesScope ++ String.ofList (scope ++ '_' :: '_' :: name)
    | none => typesScope ++ String.ofList s
  | _ => typesScope ++ pkg

/-- The specifier of a standard library. -/
def libSpecifier (lib : String) : String := "typescript/lib/lib." ++ toLower lib ++ ".js"

/-- A text with a slash and the default declaration file behind it. -/
def inFolder (s : List Char) : List Char := s ++ '/' :: Manifest.defaultDeclarations.toList

/-- The references to declaration files that a relative reference may mean, in the order in which they are tried. -/
def candidates (reference : List Char) : List (List Char) :=
  let extension := FileName.extension reference
  if endsWith ".d.ts" reference then [reference]
  else if reference == ['.'] || reference == ['.', '.'] || endsWith "/" reference then
    [inFolder (dropTrailing (· == '/') reference)]
  else if extension.isEmpty then [reference ++ ".d.ts".toList, inFolder reference]
  else if FileName.isScript reference then [Manifest.toDeclaration reference]
  else []

/-- The location that a reference means, seen from a declaration file. -/
def locate? (referrer : Location) (reference : List Char) : Option Location :=
  (Url.resolvePath? referrer.path.toList reference).map fun path =>
    { referrer with path := String.ofList (path.drop 1) }

/-- A reference to follow. -/
inductive Reference
  /-- A bare specifier. -/
  | bare (specifier : String)
  /-- A standard library. -/
  | lib (name : String)
  /-- A reference to a file of the same package. -/
  | relative (reference : String)
  deriving BEq, DecidableEq, Repr

/-- The reference that a specifier makes. URLs make none. -/
def Reference.ofSpecifier? (specifier : String) : Option Reference :=
  match Specifier.kind specifier.toList with
  | .url => none
  | .bare => some (.bare specifier)
  | .relative => some (.relative specifier)

/-- The reference that a path in a directive makes; one that looks bare is relative. -/
def Reference.ofPath? (path : String) : Option Reference :=
  match Specifier.kind path.toList with
  | .url => none
  | .bare => some (.relative ("./" ++ path))
  | .relative => some (.relative path)

/-- The references of a declaration file. -/
def references (text : String) : List Reference :=
  let r := Script.references text
  (r.imports ++ r.types).filterMap Reference.ofSpecifier? ++ r.paths.filterMap Reference.ofPath? ++
    r.libs.map .lib

/-- Whether a reference leads out of the project. -/
def Reference.isForeign : Reference → Bool
  | .bare _ | .lib _ => true
  | .relative _ => false

/-- The references of a source of the project that lead out of it. -/
def entryReferences (text : String) : List Reference :=
  let r := Script.references text
  (r.imports ++ r.types).filterMap Reference.ofSpecifier? |>.filter Reference.isForeign |>.append (r.libs.map .lib)

end BareImports.Typings
