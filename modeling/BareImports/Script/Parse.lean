import BareImports.Script.Mending

/-!
# Reading a text

* `Step.advance`: a reading goes on by one token;
* `Step.sweep`: all readings go on;
* `Step.condense`: readings that are worse are given up, and faults are entered;
* `parse`: the best tree of a text.
-/

namespace BareImports.Script

namespace Step

variable (k : Setting)

/-! ## One reading -/

/-- What came of a token before a reading. -/
inductive Outcome
  /-- The token is taken, or the text is read. -/
  | done
  /-- Productions have ended; the last reading that came of it is named. -/
  | ended (last : Option Nat)
  /-- Nothing could be done. -/
  | stuck

/-- The outcome with the end of one more production. -/
def Outcome.andEnded (o : Outcome) (new : Option Nat) : Outcome :=
  match o with
  | .ended last => .ended (new <|> last)
  | _ => .ended new

/-- Goes through what a state does with a token. Productions end in readings of their own; taking the token ends the
list. -/
def act (v : Nat) (look : Lookahead) (s : State) : List Action → Outcome → Step Outcome
  | [], o => return o
  | .gather :: as, o => act v look s as o
  | .shift :: _, _ => do
    push v (look.tree.asExtra false) (look.token.bind fun t => s.goto? k.language (.token t)) look.behind
    return .done
  | .reduce r :: as, o => do act v look s as (o.andEnded (← reduce k v r))
  | .accept :: _, _ => do
    accept k v look
    return .done

/-- The lookahead with a word read as a name, if it may be one. -/
def asName? (s : State) (look : Lookahead) : Option Lookahead :=
  if look.word && look.token != some .name && !look.token.any (k.reserves s) &&
      !(s.actions k.language .name).isEmpty then
    some { look with token := some .name, tree := .leaf .name look.tree.facts.gap look.tree.facts.span false }
  else none

/-- Lets a reading do with a token what it can, until the token is taken or a fault is met. -/
def proceed (v : Nat) (look : Lookahead) : Nat → Step Unit
  | 0 => halt v
  | fuel + 1 => do
    let r ← reading v
    match r.state with
    | none =>
      if look.token.any Token.isComment then push v (look.tree.asExtra true) none look.behind
      else mend k v look
    | some s =>
      let actions := (look.token.map (s.actions k.language)).getD []
      if actions.isEmpty && look.token.any Token.isComment then
        push v (look.tree.asExtra true) (some s) look.behind
      else match ← act k v look s actions .stuck with
        | .done => return
        | .ended (some w) =>
          replace w v
          proceed v look fuel
        | .ended none => halt v
        | .stuck => match asName? k s look with
          | some look => proceed v look fuel
          | none => update v fun r => { r with status := .paused look, mark := r.stack.top.count }

/-- Lets a reading go on by one token. -/
def advance (v : Nat) : Step Unit := do
  let r ← reading v
  proceed k v (k.lookahead r.state r.stack.top.input r.hasAdvanced) k.fuel

/-! ## All readings -/

/-- Lets a reading go on until it ends or has come further than all before it. How far readings have come is told. -/
def advanceBeyond (v : Nat) : Nat → Nat → Step Nat
  | 0, far => return far
  | fuel + 1, far => do
    if !(← reading v).isActive then return far
    advance k v
    let here := (← reading v).offset.chars
    if far < here || (0 < v && here == far) then return here
    else advanceBeyond v fuel far

/-- Lets all readings go on, from a number on, those that are added meanwhile too. -/
def sweepFrom : Nat → Nat → Nat → Step Nat
  | 0, _, far => return far
  | fuel + 1, v, far => do
    if (← count) ≤ v then return far
    sweepFrom fuel (v + 1) (← advanceBeyond k v k.fuel far)

/-- Lets all readings go on. -/
def sweep (far : Nat) : Step Nat := sweepFrom k k.fuel 0 far

/-! ## Choosing among readings -/

/-- Puts a reading among better and worse ones. `s` is how good it was at first; a worse reading is carried on in its
place. -/
def place (s : Standpoint) (x : Reading) : List Reading → List Reading
  | [] => [x]
  | y :: ys =>
    match y.standpoint.compare s with
    | .takeFirst => y :: ys
    | .preferFirst | .neither => if y.joinable x then y.join x :: ys else y :: place s x ys
    | .preferSecond => if y.joinable x then y.join x :: ys else x :: place s y ys
    | .takeSecond => place s x ys

/-- The readings that go on, the best first. -/
def arrange (rs : List Reading) : List Reading :=
  ((rs.filter fun r => !r.isHalted).map Reading.settle).foldl (fun placed r => place r.standpoint r placed) []

/-- The least that a reading costs which is in no fault. -/
def leastCost (rs : List Reading) : Option Nat :=
  (rs.filterMap fun r => if r.isHalted || r.standpoint.faulty then none else some r.standpoint.cost).min?

/-- Lets the first paused reading enter its fault, unless a better one goes on; the other paused ones are given up. -/
def resume (taken : Bool) : Nat → Nat → Option Nat → Step (Option Nat)
  | _, 0, least => return least
  | v, n + 1, least => do
    let r ← reading v
    match r.status with
    | .paused look =>
      if !taken && (← get).accepted < maxVersions then
        set v { r with status := .active }
        enter k v look
        resume true (v + 1) n (some r.cost)
      else
        remove v
        resume taken v n least
    | _ => resume true (v + 1) n least

/-- Gives up the readings that are worse than others, and lets faults be entered. What the best reading costs is told. -/
def condense : Step (Option Nat) := do
  let rs := (← get).readings
  modify fun p => { p with readings := (arrange p.readings).take maxVersions }
  resume k false 0 (← count) (leastCost rs)

/-- Goes on until the best tree is found. -/
def readOn : Nat → Nat → Step Unit
  | 0, _ => return
  | fuel + 1, far => do
    let far ← sweep k far
    let least ← condense k
    let p ← get
    let done := p.finished.any fun t => least.all fun n => t.facts.cost < n
    if done || p.readings.isEmpty then return
    readOn fuel far

end Step

/-- The best tree of a text. -/
def parse (d : Dialect) (s : List Char) : Tree :=
  let k := Setting.ofText d s
  let start : Reading := ⟨.bottom k.initial (.start s), .active, 0, none⟩
  let ((), p) := (Step.readOn k k.fuel 0).run ⟨[start], 1, none, 0⟩
  p.finished.getD (.make .fault [] false 0)

end BareImports.Script
