import BareImports.Log
import BareImports.Path
import BareImports.Text.LineBreak
import BareImports.Text.Utf8

/-!
# A tree of files

* `Place`: where a file or folder is, from the root on; `Tree`: the folders and the files, and the current folder;
* `Tree.find?`: what a path leads to, step by step from folder to folder;
* `Tree.bytes`, `Tree.text`: what a file holds;
* `Tree.makeFolders`, `Tree.write`: new folders and files.
-/

namespace BareImports.Files

open Text

/-- The names of the folders from the root on, and that of the file itself. -/
abbrev Place := List (List Char)

/-- What a place holds. -/
inductive Entry
  /-- A folder. -/
  | folder
  /-- A file. -/
  | file (bytes : List UInt8)

/-- The folders and files. -/
structure Tree where
  /-- The current folder. -/
  here : Place
  /-- The places of the folders other than the root. -/
  folders : List Place
  /-- The places of the files, and what they hold. -/
  files : List (Place × List UInt8) := []

/-- The longest name of a file or folder, in bytes. -/
def longestName : Nat := 255

/-- Why a name cannot be used, if so: it holds a null character or is too long. -/
def nameFault? (name : List Char) : Option Log.Fault :=
  if name.contains '\x00' then some .badValue
  else if longestName < (Utf8.encode name).length then some .notAccessible
  else none

namespace Tree

/-- The current folder as a path. -/
def herePath (t : Tree) : List Char := '/' :: ['/'].intercalate t.here

/-- The place that a path names by its spelling alone. -/
def placeOf (t : Tree) (p : List Char) : Place := Path.placeSegments (Path.absolute t.herePath p)

/-- What a place holds, if there is anything. -/
def entry? (t : Tree) (p : Place) : Option Entry :=
  if p.isEmpty || t.folders.contains p then some .folder else (t.files.lookup p).map .file

/-- Whether a place is a folder. -/
def isFolderAt (t : Tree) (p : Place) : Bool :=
  match t.entry? p with
  | some .folder => true
  | _ => false

/-- Where the segments of a path lead from a place; only a folder leads anywhere. -/
def walk (t : Tree) : Place → List (List Char) → Option Place
  | p, [] => some p
  | p, seg :: segs =>
    if !t.isFolderAt p then none
    else if seg == [] || seg == ['.'] then t.walk p segs
    else if seg == ['.', '.'] then t.walk p.dropLast segs
    else if (t.entry? (p ++ [seg])).isSome then t.walk (p ++ [seg]) segs
    else none

/-- The place that a path leads to, and what is there. -/
def find? (t : Tree) (p : List Char) : Option (Place × Entry) :=
  if p.isEmpty then none
  else do
    let place ← t.walk (if startsWith "/" p then [] else t.here) (Path.segments p)
    return (place, ← t.entry? place)

/-- Whether a path leads to a file. -/
def isFile (t : Tree) (p : List Char) : Bool :=
  match t.find? p with
  | some (_, .file _) => true
  | _ => false

/-- Whether a path leads to a folder. -/
def isFolder (t : Tree) (p : List Char) : Bool :=
  match t.find? p with
  | some (_, .folder) => true
  | _ => false

/-- The bytes of the file that a path leads to. -/
def bytes (t : Tree) (p : List Char) : Except Log.Fault (List UInt8) :=
  if p.contains '\x00' then .error .badValue
  else match t.find? p with
    | some (_, .file bs) => .ok bs
    | _ => .error .notAccessible

/-- The text of bytes in UTF-8, line breaks unified. -/
def decode (bs : List UInt8) : Except Log.Fault (List Char) :=
  match Utf8.decode? bs with
  | some cs => .ok (unifyBreaks cs)
  | none => .error .notUtf8

/-- The text of the file that a path leads to. -/
def text (t : Tree) (p : List Char) : Except Log.Fault (List Char) := do decode (← t.bytes p)

/-- The names of the folders in a folder. -/
def subfolders (t : Tree) (p : Place) : List (List Char) :=
  t.folders.filterMap fun q => if q.dropLast == p then q.getLast? else none

/-- The names of the files in a folder, and what they hold. -/
def filesIn (t : Tree) (p : Place) : List (List Char × List UInt8) :=
  t.files.filterMap fun (q, bs) => if q.dropLast == p then q.getLast?.map (·, bs) else none

/-- What a change of the tree came to: the tree after it, and why it stopped if it did. -/
abbrev Change := Tree × Option Log.Fault

/-- The folder `p` and, inside it, one folder in the other. What was made before a fault stays. -/
def makeFoldersIn (p : Place) : List (List Char) → Tree → Change
  | [], t => (t, none)
  | name :: names, t =>
    match nameFault? name with
    | some f => (t, some f)
    | none =>
      let p := p ++ [name]
      match t.entry? p with
      | some .folder => makeFoldersIn p names t
      | some (.file _) => (t, some .notAccessible)
      | none => makeFoldersIn p names { t with folders := t.folders ++ [p] }

/-- A folder and the folders around it, those that are not there yet. -/
def makeFolders (p : Place) (t : Tree) : Change := makeFoldersIn [] p t

/-- What a file holds, put in its place. -/
def put (p : Place) (bs : List UInt8) (t : Tree) : Tree :=
  { t with files :=
      if t.files.any (·.1 == p) then t.files.map fun (q, old) => (q, if q == p then bs else old)
      else t.files ++ [(p, bs)] }

/-- A file written at a place in a folder that is there: the new bytes come from the old ones, if there are any. -/
def write (p : Place) (change : List UInt8 → List UInt8) (t : Tree) : Change :=
  match p.getLast?.bind nameFault? with
  | some f => (t, some f)
  | none => match t.entry? p with
    | some .folder => (t, some .notAccessible)
    | some (.file old) => (t.put p (change old), none)
    | none => if t.isFolderAt p.dropLast then (t.put p (change []), none) else (t, some .notAccessible)

/-- A file at a place, with the folders around it. -/
def writeDeep (p : Place) (bs : List UInt8) (t : Tree) : Change :=
  match t.makeFolders p.dropLast with
  | (t, some f) => (t, some f)
  | (t, none) => t.write p fun _ => bs

end Tree

end BareImports.Files
