import BareImports.Log
import BareImports.Merge.Basic

/-!
# Merging scripted producers

* `Action`: what a producer does next;
* `Rounds`: a merge, the producers that run, and what the consumer has got;
* `Rounds.step`: one action of one producer; `Rounds.sweep`: one action of each;
* `Rounds.play`: producers are added and the stream is read to its end.
-/

namespace BareImports.Merge

/-- What a producer does. -/
inductive Action
  /-- Emits an item. -/
  | emit (v : Value)
  /-- Adds a run of the producer with this name. -/
  | spawn (name : String)
  /-- Ends by an accident. -/
  | fail
  /-- Lets the others go on a number of times. -/
  | wait (n : Nat)
  deriving Inhabited

/-- A producer that runs: its name and what is left of its script. -/
structure Running where
  /-- The name. -/
  name : String
  /-- The actions to come. -/
  rest : List Action

/-- A merge of scripted producers. -/
structure Rounds where
  /-- The scripts by name. -/
  scripts : List (String × List Action)
  /-- The merge of items with the names of their producers. -/
  merge : Merge (String × Value) := {}
  /-- The producers that run. -/
  running : List Running := []
  /-- What was logged. -/
  log : List Log.Entry := []

namespace Rounds

/-- Adds a run of a producer. -/
def add (r : Rounds) (name : String) : Rounds :=
  { r with
    merge := r.merge.add
    running := r.running ++ [⟨name, (r.scripts.lookup name).getD []⟩] }

/-- The entry for a producer that ends by an accident. -/
def failed : Log.Entry := ⟨.error, "Merged producer failed", [], []⟩

/-- One action of a producer, which is put back behind the others unless it has ended. -/
def step (r : Rounds) (p : Running) : Rounds :=
  let back := fun (r : Rounds) (rest : List Action) => { r with running := r.running ++ [⟨p.name, rest⟩] }
  match p.rest with
  | [] => { r with merge := r.merge.close }
  | .emit v :: rest => back { r with merge := r.merge.put (p.name, v) } rest
  | .spawn name :: rest => back (r.add name) rest
  | .fail :: _ => { r with merge := r.merge.close, log := r.log ++ [failed] }
  | .wait 0 :: rest => back r rest
  | .wait (n + 1) :: rest => back r (.wait n :: rest)

/-- One action of each producer that runs now. -/
def sweep (r : Rounds) : Rounds := r.running.foldl step { r with running := [] }

/-- Producers and consumer by turns until the stream ends. -/
def read : Nat → Rounds → List (String × Value) × Rounds
  | 0, r => ([], r)
  | fuel + 1, r =>
    let (items, m) := r.merge.drain
    let r := { r with merge := m }
    if m.isOver then (items, r)
    else
      let (more, r) := read fuel r.sweep
      (items ++ more, r)

/-- How many sweeps a round may take. -/
def sweepLimit : Nat := 1000000

/-- Adds producers and reads the stream to its end. -/
def play (r : Rounds) (names : List String) : List (String × Value) × Rounds := read sweepLimit (names.foldl add r)

end Rounds

end BareImports.Merge
