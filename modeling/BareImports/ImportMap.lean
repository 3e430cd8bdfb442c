import BareImports.Log
import BareImports.Text.Cut

/-!
# Import maps

* `ImportMap`: texts that stand for a whole specifier, and texts that stand for its beginning;
* `ImportMap.ofValue`: the usable entries of a value, with warnings about the others;
* `ImportMap.resolve`: what a specifier is mapped to.
-/

namespace BareImports

open Text

/-- The usable entries of an import map. -/
structure ImportMap where
  /-- Keys that a specifier has to equal. -/
  exact : List (String × String) := []
  /-- Keys, each with a slash at its end, with which a specifier has to begin. -/
  folders : List (String × String) := []
  deriving Inhabited

namespace ImportMap

/-- Whether a text ends with a slash. -/
def isFolder (s : String) : Bool := endsWith "/" s.toList

/-- Takes one entry of the table. -/
def addEntry (acc : ImportMap × List Log.Entry) (entry : Value × Value) : ImportMap × List Log.Entry :=
  let (m, log) := acc
  match entry with
  | (.text key, .text target) =>
    if isFolder key then
      if isFolder target then ({ m with folders := m.folders ++ [(key, target)] }, log)
      else (m, log ++ [Log.warn "Ignoring import map entry %r: target must end with '/'" [.text key]])
    else ({ m with exact := m.exact ++ [(key, target)] }, log)
  | (key, target) => (m, log ++ [Log.warn "Ignoring import map entry %r: %r" [.value key, .value target]])

/-- The import map of a table of entries. -/
def ofEntries (entries : List (Value × Value)) : ImportMap × List Log.Entry := entries.foldl addEntry ({}, [])

/-- The import map of a mapping with an `imports` table. -/
def ofPairs (kvs : List (Value × Value)) : ImportMap × List Log.Entry :=
  match Value.lookup? "imports" kvs with
  | none => ({}, [])
  | some (.map entries) => ofEntries entries
  | some _ => ({}, [Log.warn "Ignoring import map: 'imports' is not an object" []])

/-- The import map of a value: what does not count as given is an empty map, any other value has to be a mapping. -/
def ofValue? (v : Value) : Option (ImportMap × List Log.Entry) :=
  if v.truthy then v.pairs?.map ofPairs else some ({}, [])

/-- The longer of two keys, the first one when they are equally long. -/
def longer (a b : String × String) : String × String := if a.1.length < b.1.length then b else a

/-- The longest key with which a specifier begins. -/
def bestFolder? (m : ImportMap) (specifier : String) : Option (String × String) :=
  (m.folders.filter fun (key, _) => startsWith key specifier.toList).foldl
    (fun best entry => some (match best with
      | none => entry
      | some b => longer b entry)) none

/-- What a specifier is mapped to: the value of the equal key, else that of the longest key with which it begins and
the rest of the specifier. -/
def resolve (m : ImportMap) (specifier : String) : Option String :=
  match m.exact.lookup specifier with
  | some target => some target
  | none => (m.bestFolder? specifier).map fun (key, target) =>
    target ++ String.ofList (specifier.toList.drop key.length)

end ImportMap

end BareImports
