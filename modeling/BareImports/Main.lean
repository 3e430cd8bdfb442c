import BareImports.CommandLine
import BareImports.Log.Message

/-!
# The program

Reads the current folder, runs the command line on it and writes what has changed. There is no connection to a CDN:
every request fails.
-/

namespace BareImports.Program

open Files

/-- A network without connection; the state counts the requests. -/
def offline : Network (StateT Nat IO) where
  fetch _ := do
    modify (· + 1)
    return .error (.refused 0 "No connection")
  failed := get

/-- The path of a place. -/
def pathOf (p : Place) : String := String.ofList ('/' :: ['/'].intercalate p)

/-- The tree with the folder at a place and all that is below it. -/
partial def readFolder (p : Place) (t : Tree) : IO Tree := do
  let entries ← (System.mkFilePath [pathOf p]).readDir
  entries.foldlM (fun t e => do
    let q := p ++ [e.fileName.toList]
    if ← e.path.isDir then readFolder q { t with folders := t.folders ++ [q] }
    else
      let bytes ← IO.FS.readBinFile e.path
      return { t with files := t.files ++ [(q, bytes.toList)] }) t

/-- The tree of the current folder. -/
def readHere : IO Tree := do
  let here := Path.placeSegments (← IO.currentDir).toString.toList
  let around := (List.range here.length).map fun n => here.take (n + 1)
  readFolder here { here, folders := around }

/-- Writes the files that have changed. -/
def writeBack (before after : Tree) : IO Unit := do
  for (p, bytes) in after.files do
    if before.files.lookup p != some bytes then
      IO.FS.createDirAll (pathOf p.dropLast)
      IO.FS.writeBinFile (pathOf p) (ByteArray.mk bytes.toArray)

end BareImports.Program

open BareImports BareImports.Program in
/-- Runs the command line. -/
def main (args : List String) : IO UInt32 := do
  let tree ← readHere
  let ((exit, console), _) ← (Console.run offline args { tree }).run 0
  writeBack tree console.tree
  for e in console.log do
    IO.eprintln e.line
  for l in console.printed do
    IO.eprintln l
  return exit.code.toUInt32
