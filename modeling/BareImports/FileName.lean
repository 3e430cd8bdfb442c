import BareImports.Path
import BareImports.Text.Blank

/-!
# File names

* `extension`: what follows the last dot of the last segment;
* `changeExtension`: the same file with another extension, `.d.ts` counting as one;
* `isScript`: files that are rewritten as modules;
* `normalizeEntry`: the path that a manifest field names.
-/

namespace BareImports.FileName

open Text

/-- The last segment of a path. -/
def base (path : List Char) : List Char := ((cutLast? '/' path).map (·.2)).getD path

/-- What follows the last dot of the last segment, empty without a dot. -/
def extension (path : List Char) : List Char := ((cutLast? '.' (base path)).map (·.2)).getD []

/-- A path without its extension and the dot before it. -/
def stem (path : List Char) : List Char :=
  if endsWith ".d.ts" path then path.take (path.length - 5)
  else
    let ext := extension path
    if ext.isEmpty then path else path.take (path.length - (ext.length + 1))

/-- A path with another extension. -/
def changeExtension (path ext : List Char) : List Char := stem path ++ '.' :: ext

/-- Whether a file name has one of the extensions of executable modules. -/
def isScript (path : List Char) : Bool := ["js".toList, "mjs".toList].contains (extension path)

/-- The path inside a package that a manifest field names, empty if it names none. -/
def normalizeEntry (path : List Char) : List Char :=
  let p := (strip path).dropWhile (· == '/')
  if p.isEmpty then [] else match Path.normalize p with
    | ['.'] => []
    | n => n

/-- The relative URL that reaches `target` from the file `source`, both below one root. -/
def relativeUrl (source target : List Char) : List Char :=
  let rooted := fun s => '/' :: List.dropWhile (· == '/') s
  let rel := Path.relativeTo (rooted target) (Path.parent (rooted source))
  if startsWith "../" rel then rel else '.' :: '/' :: rel

end BareImports.FileName
