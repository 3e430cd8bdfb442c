import BareImports.Script.Grammar

/-!
# Positions in productions

What has been read of a production leaves it at a position; what matters of a position is what may follow. Positions of
one node from which the same runs lead on are one.

* `Position`: where the runs of a production may stand;
* `Automaton`: the productions of a node with their positions;
* `Automaton.ofProductions`: the positions are found by following each symbol from the start.
-/

namespace BareImports.Script

/-- Where the runs of a production may stand. Positions are numbered within their node. -/
structure Position where
  /-- Whether a run may end here. -/
  final : Bool
  /-- The tokens that may follow, with the positions behind them. -/
  onToken : List (Token × Nat)
  /-- The nodes that may follow, with the positions behind them. -/
  onNode : List (Node × Nat)
  /-- The tokens that may follow, also as the first ones of nodes. -/
  next : TokenSet
  deriving DecidableEq, Repr

instance : Inhabited Position := ⟨false, [], [], .empty⟩

/-- The position behind a symbol. -/
def Position.after? (p : Position) : Symbol → Option Nat
  | .token t => p.onToken.lookup t
  | .node n => p.onNode.lookup n

/-- The productions of a node with their positions. -/
structure Automaton where
  /-- Each production with the position before it. -/
  productions : Array (Production × Nat)
  /-- The positions, each behind those that follow it. -/
  positions : Array Position
  deriving Inhabited

/-- Positions under construction. -/
structure Draft where
  /-- What follows a position, for those that are known. -/
  known : List (List Rule × Nat)
  /-- The positions that are known. -/
  positions : List Position

namespace Draft

/-- Rules by the symbol that they follow, in the order of the symbols and each rule once. -/
def addStep (step : Symbol × Rule) : List (Symbol × List Rule) → List (Symbol × List Rule)
  | [] => [(step.1, [step.2])]
  | (s, rs) :: more =>
    if step.1.code == s.code then (s, if rs.contains step.2 then rs else rs ++ [step.2]) :: more
    else if step.1.code < s.code then (step.1, [step.2]) :: (s, rs) :: more
    else (s, rs) :: addStep step more

/-- The symbols that runs of some rules begin with, each with the rules of what follows it. -/
def steps (rs : List Rule) : List (Symbol × List Rule) :=
  (rs.flatMap Rule.steps).foldl (fun found step => addStep step found) []

/-- The number of a position, which is added unless it is there. -/
def intern (p : Position) (d : Draft) : Nat × Draft :=
  match d.positions.findIdx? (· == p) with
  | some i => (i, d)
  | none => (d.positions.length, { d with positions := d.positions ++ [p] })

/-- The position before some rules, with all that follow it. Runs are no longer than the fuel. -/
def trace : Nat → List Rule → StateM Draft Nat
  | 0, _ => intern default
  | fuel + 1, rs => do
    match (← get).known.lookup rs with
    | some i => return i
    | none =>
      let edges ← (steps rs).mapM fun (s, after) => return (s, ← trace fuel after)
      let i ← intern {
        final := rs.any Rule.nullable
        onToken := edges.filterMap fun | (.token t, i) => some (t, i) | _ => none
        onNode := edges.filterMap fun | (.node n, i) => some (n, i) | _ => none
        next := .empty }
      modify fun d => { d with known := (rs, i) :: d.known }
      return i

end Draft

namespace Automaton

/-- The positions of some productions. -/
def ofProductions (ps : List Production) : Automaton :=
  let (starts, d) := (ps.mapM fun p => Draft.trace (p.rule.longest + 1) [p.rule]).run ⟨[], []⟩
  { productions := (ps.zip starts).toArray, positions := d.positions.toArray }

/-- A position by its number. -/
def position (a : Automaton) (i : Nat) : Position := a.positions.getD i default

/-- The positions before the productions. -/
def starts (a : Automaton) : List Position := a.productions.toList.map fun (_, i) => a.position i

/-- The tokens that the node begins with, those of its own first nodes aside. -/
def firstTokens (a : Automaton) : TokenSet :=
  a.starts.foldl (fun s p => s.union (.ofList (p.onToken.map (·.1)))) .empty

/-- The nodes that the node begins with, with the positions behind them. -/
def firstNodes (a : Automaton) : List (Node × Nat) := a.starts.flatMap (·.onNode)

end Automaton

end BareImports.Script
