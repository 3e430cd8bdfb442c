import BareImports.Script.Reduction

/-!
# Mending faults

Before a token that cannot come, a reading tries in turn: a token that is missing, a state that it was in before, and
to skip the token. All of these cost, and the cheapest readings go on.

* `Step.betterThan`: whether a reading of some cost is not worth going on with;
* `Step.insertMissing`: a reading with a token that the text lacks;
* `Ancestor.ofStack`: the states that a reading may fall back to;
* `Step.fallBack`, `Step.skip`, `Step.mend`: the ways on behind a fault;
* `Step.enter`: what a reading does when it meets a fault.
-/

namespace BareImports.Script

/-! ## States to fall back to -/

namespace Ancestor

/-- How far back a reading may fall. -/
def maxDepth : Nat := 32

/-- Whether a state at some depth is among those that were met last. -/
def isKnown (depth : Nat) (s : Option State) : List Ancestor → Bool
  | [] => false
  | a :: as => depth ≤ a.depth && ((a.depth == depth && sameState a.state s) || isKnown depth s as)

/-- The states below the top of a stack, the nearest first. -/
def ofStack (s : Stack) : List Ancestor :=
  (s.walkFrom (fun (found : List Ancestor) p =>
    if maxDepth < p.count then (found, true)
    else if isKnown p.count p.stack.top.state found then (found, false)
    else (⟨p.stack.top.state, p.count, p.stack.top.input.offset⟩ :: found, false)) []).reverse

end Ancestor

namespace Step

variable (k : Setting)

/-! ## Comparing with other readings -/

/-- Whether there is a better reading than one would be that costs so much: one of the whole text, or one that has read
as far. -/
def betterThan (v : Nat) (cost : Nat) : Step Bool := do
  let p ← get
  if p.finished.any (·.facts.cost ≤ cost) then return true
  let r := (← reading v).settle
  let isRival := fun (x : Reading) (i : Nat) => i != v && x.isActive && r.offset.chars ≤ x.offset.chars
  let readings := p.readings.zipIdx.map fun (x, i) => if i == v || isRival x i then x.settle else x
  modify fun p => { p with readings }
  let here : Standpoint := ⟨cost, r.since, r.stack.top.weight, false⟩
  return readings.zipIdx.any fun (x, i) => isRival x i &&
    match here.compare x.standpoint with
    | .takeSecond => true
    | .preferSecond => x.joinable r
    | _ => false

/-! ## A missing token -/

/-- Whether a token may follow at once, with the end of a production before it. -/
def mayFollow (s : State) (look : Option Token) : Bool :=
  look.any fun t => match (s.actions k.language t).head? with
    | some (.reduce _) => true
    | _ => false

/-- Adds a reading with one of some tokens that the text lacks, the first one that lets the text go on. -/
def insertMissing (v : Nat) (look : Option Token) : List Token → Step Bool
  | [] => return false
  | t :: ts => do
    let r ← reading v
    match r.state.bind (·.take? k.language t) with
    | none => insertMissing v look ts
    | some s =>
      if r.state.any s.same || !mayFollow k s look then insertMissing v look ts
      else
        let w ← count
        append { r with ancestors := none }
        push w (.missing t) (some s) r.stack.top.input
        if ← reduceAll k w (if look == some .finish then none else look) then return true
        else insertMissing v look ts

/-! ## Falling back and skipping -/

/-- The trees above a state that a reading falls back to, with the fault that ends there already. -/
def faultyParts (slice : Stack.Slice) : Stack × List Tree :=
  let trees := (slice.ways.head?.getD []).map (·.1)
  match slice.stack.faultBelow? with
  | some (fault, below) => (below, fault.children ++ trees)
  | none => (slice.stack, trees)

/-- A stack with some more trees that leave its state as it is, each up to where it ends in the text. -/
def growExtras (state : Option State) (s : Stack) : List Tree → Step Stack
  | [] => return s
  | t :: ts => do growExtras state (← grow s (some t) state (s.top.input.advance t.total.chars)) ts

/-- Adds a reading that has fallen back to a state, if the slice leads to it; what was read since is a fault. -/
def addFallen (mark : Nat) (goal : State) (slice : Stack.Slice) : Step Bool := do
  if !sameState slice.stack.top.state (some goal) then return false
  let (base, trees) := faultyParts slice
  let (parts, extras) := Tree.splitExtras trees
  let faulty := if parts.isEmpty then [] else [Tree.make .fault parts true 0]
  let stack ← growExtras (some goal) base (faulty ++ extras)
  append { stack, status := .active, mark, ancestors := none }
  return true

/-- Lets a reading fall back to a state at some depth; whether there is one is told. -/
def fallBackTo (v depth : Nat) (goal : State) : Step Bool := do
  let r ← reading v
  let fallen ← (r.stack.pop depth).mapM (addFallen r.mark goal)
  return fallen.contains true

/-- What it costs to fall back to a state. -/
def fallCost (r : Reading) (a : Ancestor) : Nat :=
  r.cost + a.depth * Cost.part + Cost.text (r.offset - a.offset)

/-- Lets a reading fall back to the first of some states before which the token can come. -/
def fallBack (v others : Nat) (t : Token) : List Ancestor → Step Bool
  | [] => return false
  | a :: as => do
    let r ← reading v
    match a.state with
    | none => fallBack v others t as
    | some s =>
      let depth := if 0 < r.since then a.depth + 1 else a.depth
      let known := ((← get).readings.take others).any fun x =>
        sameState x.state (some s) && x.offset.chars == r.offset.chars
      if a.offset.chars == r.offset.chars || known then fallBack v others t as
      else if ← betterThan v (fallCost r a) then return false
      else if s.admits t then
        if ← fallBackTo v depth s then return true else fallBack v others t as
      else fallBack v others t as

/-- Lets a reading skip a token as a part of its fault. -/
def skip (v : Nat) (look : Lookahead) : Step Unit := do
  let r ← reading v
  let t := look.tree.asExtra ((look.token.any Token.isComment) || look.tree.facts.extra)
  let skipped := Tree.make .skipped [t] false 0
  if 0 < r.since then
    match r.stack.pop 1 with
    | slice :: _ =>
      let before := (slice.ways.head?.getD []).map (·.1)
      let stack ← grow slice.stack (some (.make .skipped (before ++ [skipped]) false 0)) none look.behind
      set v { r with stack, status := .active }
    | [] => push v skipped none look.behind
  else push v skipped none look.behind

/-- How many readings go on at once. -/
def maxVersions : Nat := 6

/-- Mends the fault of a reading before a token. -/
def mend (v : Nat) (look : Lookahead) : Step Unit := do
  update v Reading.settle
  let r ← reading v
  let others ← count
  let fallen ← match look.token, r.ancestors with
    | some t, some as => fallBack v others t as
    | _, _ => pure false
  if look.token == some .finish then
    push v (.make .fault [] false 0) (some k.initial) r.stack.top.input
    accept k v look
  else if fallen && maxVersions < (← count) then halt v
  else if ← betterThan v (r.cost + Cost.part + Cost.text look.tree.total) then halt v
  else skip v look

/-! ## Meeting a fault -/

/-- Lets readings enter a fault, from a number up to another. A missing token is tried until one is found. -/
def enterAll (look : Lookahead) (found : Bool) : Nat → Nat → Step Unit
  | _, 0 => return
  | v, n + 1 => do
    let found ← if found then pure true
      else insertMissing k v look.token (tokensOf k none)
    enterFault v
    enterAll look found (v + 1) n

/-- What a reading does when it meets a fault: productions end before any token, a missing token is tried in all
readings that come of it, and these go on as one reading inside of a fault. -/
def enter (v : Nat) (look : Lookahead) : Step Unit := do
  let first ← count
  discard (reduceAll k v none)
  let last ← count
  let found ← insertMissing k v look.token (tokensOf k none)
  enterFault v
  enterAll k look found first (last - first)
  for _ in [first:last] do discard (join v first)
  update v fun r => { r with ancestors := some (Ancestor.ofStack r.stack) }
  mend k v look

end Step

end BareImports.Script
