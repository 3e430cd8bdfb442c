import BareImports.FileName
import BareImports.Value

/-!
# Manifests of packages

* `Manifest.range?`: the range that a manifest gives for a dependency;
* `Manifest.entry`: the module that stands for a package;
* `Manifest.declarations`: the declaration file that stands for a package.

A field that does not have the form that its reader expects counts as absent.
-/

namespace BareImports.Manifest

open Text

/-- The file name of manifests. -/
def fileName : String := "package.json"

/-- The range that a manifest gives for a dependency. -/
def range? (m : Option Value) (pkg : String) : Option String :=
  match (m.bind (·.get? "dependencies")).bind (·.get? pkg) with
  | some (.text version) => if version.isEmpty then none else some version
  | _ => none

/-- The path that a field names, unless it is empty. -/
def path? (m : Value) (field : String) : Option (List Char) :=
  match m.get? field with
  | some (.text s) =>
    let path := FileName.normalizeEntry s.toList
    if path.isEmpty then none else some path
  | _ => none

/-- The module that stands for a package without a usable field. -/
def defaultEntry : String := "index.js"

/-- The path of the module that stands for a package. -/
def entry (m : Value) : String :=
  match path? m "module" <|> path? m "main" with
  | some path => String.ofList path
  | none => defaultEntry

/-- The extension of declaration files. -/
def declarationExtension : String := "d.ts"

/-- The declaration file that stands for a package without a usable field. -/
def defaultDeclarations : String := "index.d.ts"

/-- A path with the extension of declaration files. -/
def toDeclaration (path : List Char) : List Char := FileName.changeExtension path declarationExtension.toList

/-- The path of the declaration file that stands for a package. -/
def declarations (m : Option Value) : String :=
  let m := m.getD .null
  match path? m "typings" <|> path? m "types" <|> (path? m "main").map toDeclaration with
  | some path => String.ofList path
  | none => defaultDeclarations

end BareImports.Manifest
