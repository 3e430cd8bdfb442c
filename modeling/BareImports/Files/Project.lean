import BareImports.Build.Output
import BareImports.Files.Tree

/-!
# Projects and output folders

* `Project.load`: the text files of a folder and of the folders in it;
* `writeAll`: named texts written into an output folder, and nowhere else.
-/

namespace BareImports.Files

open Text

/-- Texts in the order of their characters. -/
def sortedNames (names : List (List Char)) : List (List Char) :=
  names.mergeSort fun a b => !(String.ofList b < String.ofList a)

namespace Project

/-- Files as a project has them, and warnings. -/
abbrev Loaded := List Build.File × List Log.Entry

/-- The folders of installed packages, which belong to no project. -/
def installed : List Char := "node_modules".toList

/-- One file of a project. -/
def loadFile (name : List Char) (bs : List UInt8) : Loaded :=
  let name := String.ofList name
  match Tree.decode bs with
  | .ok cs => ([⟨name, String.ofList cs, none⟩], [])
  | .error _ => ([], [Log.warn "Skipping non-text file: %s" [.text name]])

/-- Two parts of a project as one. -/
def both (a b : Loaded) : Loaded := (a.1 ++ b.1, a.2 ++ b.2)

/-- The name of something in a folder of the project, as seen from the project. -/
def nameIn (folder name : List Char) : List Char := if folder.isEmpty then name else folder ++ '/' :: name

/-- The files of the folder at `place`, then those of the folders in it, each in the order of their names. `folder` is
its name as seen from the project at the path `base`; the path `skip` is not entered. -/
def loadFolder (t : Tree) (base : List Char) (skip : Option (List Char)) : Nat → Place → List Char → Loaded
  | 0, _, _ => ([], [])
  | fuel + 1, place, folder =>
    let files := t.filesIn place
    let own := (sortedNames (files.map (·.1))).map fun n => loadFile (nameIn folder n) ((files.lookup n).getD [])
    let entered := (t.subfolders place).filter fun n =>
      n != installed && some (Path.normalize (Path.join base (nameIn folder n))) != skip
    let inner := (sortedNames entered).map fun n => loadFolder t base skip fuel (place ++ [n]) (nameIn folder n)
    (own ++ inner).foldl both ([], [])

/-- The text files of the project in the folder `source`, without what lies in the folder `skip`. -/
def load (t : Tree) (source : String) (skip : Option String) : Except Log.Fault Loaded :=
  let source := source.toList
  let skip := match skip with
    | some s => if s.isEmpty then none else some (Path.absolute t.herePath s.toList)
    | none => none
  if source.contains '\x00' then .error .badValue
  else match t.find? source with
    | some (place, .folder) => .ok (loadFolder t (Path.absolute t.herePath source) skip (t.folders.length + 1) place [])
    | _ => .ok ([], [])

end Project

/-! ## Output -/

/-- The path of a name in an output folder. -/
def pathIn (root name : List Char) : List Char := Path.normalize ((Path.segments name).foldl Path.join root)

/-- Whether a path is the output folder or lies in it. -/
def isInside (root path : List Char) : Bool := '/' :: ['/'].intercalate (Path.common root path) == root

/-- Writes one named text into the output folder at the path `root`, if that is where the name leads. -/
def writeOne (root : List Char) (name content : String) (t : Tree) : Tree × List Log.Entry × Option Log.Fault :=
  let path := pathIn root name.toList
  if isInside root path then
    let (t, fault) := t.writeDeep (Path.placeSegments path) (Utf8.encode content.toList)
    (t, [], fault)
  else (t, [Log.warn "Refusing to write outside the output directory: %s" [.text name]], none)

/-- Writes named texts into the output folder at the path `root`, up to the first fault. -/
def writeEach (root : List Char) : List (String × String) → Tree → Tree × List Log.Entry × Option Log.Fault
  | [], t => (t, [], none)
  | (name, content) :: files, t =>
    match writeOne root name content t with
    | (t, log, some f) => (t, log, some f)
    | (t, log, none) =>
      let (t, more, fault) := writeEach root files t
      (t, log ++ more, fault)

/-- Writes named texts into an output folder, up to the first fault. -/
def writeAll (output : String) (files : List (String × String)) (t : Tree) :
    Tree × List Log.Entry × Option Log.Fault :=
  writeEach (Path.absolute t.herePath output.toList) files t

end BareImports.Files
