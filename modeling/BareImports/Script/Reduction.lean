import BareImports.Script.Reading

/-!
# Ending productions

* `splitWay`: the trees of a way, and the comments behind them;
* `Step.reduce`: ends a production in a reading, on all ways down;
* `Step.reduceAll`: ends productions in all ways before a token, or before any token;
* `Step.accept`: ends a reading at the end of the text.
-/

namespace BareImports.Script

/-! ## The trees of a production -/

/-- A tree of some parts, with the place behind it and what follows it without being a part. -/
structure Gathered where
  /-- The tree. -/
  tree : Tree
  /-- The place behind it. -/
  behind : Input
  /-- The comments behind it. -/
  extras : List (Tree × Input)

/-- The trees of a way up to the last that is no comment, and the comments behind it. -/
def splitWay (way : List (Tree × Input)) : List (Tree × Input) × List (Tree × Input) :=
  let extras := (way.reverse.takeWhile (·.1.facts.extra)).reverse
  (way.take (way.length - extras.length), extras)

/-- The tree of a node that the trees of a way make up. -/
def gather (n : Node) (weight : Int) (start : Input) (way : List (Tree × Input)) : Gathered :=
  let (parts, extras) := splitWay way
  { tree := .make (.node n) (parts.map (·.1)) false weight
    behind := (parts.getLast?.map (·.2)).getD start
    extras }

/-- The best tree that the ways to one stack make up. -/
def gatherBest (n : Node) (weight : Int) (start : Input) : List (List (Tree × Input)) → Gathered
  | [] => gather n weight start []
  | way :: ways => ways.foldl (fun best way =>
      let other := gather n weight start way
      if best.tree.preferred other.tree then other else best) (gather n weight start way)

namespace Step

variable (k : Setting)

/-! ## One production -/

/-- How many readings there may be while productions end. -/
def maxReadings : Nat := 10

/-- Adds the reading in which a production ends on the ways to one stack. -/
def addReduced (v halted : Nat) (mark : Nat) (r : Reduction) (slice : Stack.Slice) : Step Unit := do
  let here ← count
  if here ≤ maxReadings + halted then
    let base := slice.stack.top
    let g := gatherBest r.node r.weight base.input slice.ways
    let state := base.state.bind fun s => s.goto? k.language (.node r.node)
    let stack ← growAll state (← grow slice.stack (some g.tree) state g.behind) g.extras
    append { stack, status := .active, mark, ancestors := none }
    discard (joinBefore 0 (some v) here)

/-- Ends a production in a reading. The readings in which it has ended stand behind all others; the first of them is
named. -/
def reduce (v : Nat) (r : Reduction) : Step (Option Nat) := do
  let first ← count
  let reading ← reading v
  let halted := ((← get).readings.filter (·.isHalted)).length
  (reading.stack.pop r.count).forM (addReduced k v halted reading.mark r)
  return if first < (← count) then some first else none

/-! ## All productions before a token -/

/-- What a state does with some tokens: whether one of them may be taken, and the productions that may end. -/
def possible (s : State) (tokens : List Token) : Bool × List Reduction :=
  tokens.foldl (fun (takes, ends) t =>
    (s.actions k.language t).foldl (fun (takes, ends) a => match a with
      | .shift => (true, ends)
      | .reduce r =>
        if 0 < r.count && !ends.any (fun e => e.node == r.node && e.count == r.count) then (takes, ends ++ [r])
        else (takes, ends)
      | _ => (takes, ends)) (takes, ends)) (false, [])

/-- The tokens before which productions end: one, or all but the end of the text. -/
def tokensOf : Option Token → List Token
  | some t => [t]
  | none => (Token.vocabulary k.language.dialect).filter fun t => t != .finish

/-- Ends some productions in a reading; what the last of them leaves is named. -/
def reduceEach (v : Nat) : List Reduction → Option Nat → Step (Option Nat)
  | [], last => return last
  | r :: rs, _ => do reduceEach v rs (← reduce k v r)

/-- How often a reading is exchanged for one in which a production has ended. -/
def maxRounds : Nat := 6

/-- Goes through the readings that come from one, from a number on. Readings that cannot take the token in the end are
removed if there is one. -/
def reduceFrom (start first : Nat) (look : Option Token) : Nat → Nat → Nat → Bool → Step Bool
  | 0, _, _, can => return can
  | fuel + 1, v, round, can => do
    let total ← count
    if total ≤ v then return can
    if ← joinBefore first none v then reduceFrom start first look fuel v (round + 1) can
    else
      match (← reading v).state with
      | none => reduceFrom start first look fuel (if v == start then total else v + 1) (round + 1) true
      | some s =>
        let (takes, ends) := possible k s (tokensOf k look)
        let last ← reduceEach k v ends none
        match takes, last, decide (round < maxRounds) with
        | false, some w, true =>
          replace w v
          reduceFrom start first look fuel v (round + 1) can
        | _, _, _ =>
          if !takes && look.isSome then remove v
          reduceFrom start first look fuel (if v == start then total else v + 1) (round + 1) (can || takes)

/-- Ends productions in a reading before a token, or before any token, in all ways. Whether a token may be taken then
is told. -/
def reduceAll (v : Nat) (look : Option Token) : Step Bool := do
  reduceFrom k v (← count) look k.fuel v 0 false

/-! ## The end of the text -/

/-- The tree of the whole text on a way to the bottom: the last tree that is no comment, with all others as parts. -/
def wholeTree (way : List (Tree × Input)) : Option Tree :=
  let (parts, extras) := splitWay way
  parts.getLast?.map fun (t, _) =>
    let children := parts.dropLast.map (·.1) ++ t.children ++ extras.map (·.1)
    let root := Tree.make t.kind children false 0
    .mk { root.facts with weight := max t.facts.weight root.facts.weight } root.children

/-- Keeps the better one of a tree of the whole text and the best one so far. -/
def offer (t : Tree) : Step Unit := modify fun p =>
  { p with
    accepted := p.accepted + 1
    finished := match p.finished with
      | none => some t
      | some best => if best.preferred t then some t else some best }

/-- Ends a reading at the end of the text. -/
def accept (v : Nat) (look : Lookahead) : Step Unit := do
  push v look.tree (some k.initial) look.behind
  for slice in (← reading v).stack.popAll do
    for way in slice.ways do
      match wholeTree way with
      | some t => offer t
      | none => pure ()
  halt v

end Step

end BareImports.Script
