import BareImports.Script.Lookahead
import BareImports.Script.Stack

/-!
# Readings

A text is read in several ways at once where the grammar leaves more than one, and where a fault can be mended in more
than one way.

* `Reading`: a stack with what its faults ask for;
* `Standpoint`, `Reading.compare`: which of two readings is better, and whether the other is given up;
* `Progress`, `Step`: the readings of a text, and steps that change them;
* `Step.push`, `Step.join`, `Step.replace`: the basic steps.
-/

namespace BareImports.Script

/-- How a reading goes on. -/
inductive Status
  /-- With its next token. -/
  | active
  /-- With the mending of a fault before a token. -/
  | paused (look : Lookahead)
  /-- Not at all. -/
  | halted

/-- A state that a reading was in. -/
structure Ancestor where
  /-- The state. -/
  state : Option State
  /-- How many trees are read since. -/
  depth : Nat
  /-- The text before it. -/
  offset : Extent

/-- A way of reading a text. -/
structure Reading where
  /-- What is read. -/
  stack : Stack
  /-- How it goes on. -/
  status : Status
  /-- How many parts were read at the last fault. -/
  mark : Nat
  /-- The states that it may fall back to, while a fault is mended. -/
  ancestors : Option (List Ancestor)

namespace Reading

instance : Inhabited Reading := ⟨⟨default, .halted, 0, none⟩⟩

variable (r : Reading)

/-- Whether it goes on with its next token. -/
def isActive : Bool := match r.status with
  | .active => true
  | _ => false

/-- Whether it waits for a fault to be mended. -/
def isPaused : Bool := match r.status with
  | .paused _ => true
  | _ => false

/-- Whether it does not go on. -/
def isHalted : Bool := match r.status with
  | .halted => true
  | _ => false

/-- The state at its end. -/
def state : Option State := r.stack.top.state

/-- The text before its end. -/
def offset : Extent := r.stack.top.input.offset

/-- What its faults cost, those that are being mended included. -/
def cost : Nat :=
  let mending := r.state.isNone && r.stack.links.head?.any (·.1.isNone)
  if r.isPaused || mending then r.stack.top.cost + Cost.fault else r.stack.top.cost

/-- A reading that has not read less than at its last fault. -/
def settle : Reading := { r with mark := min r.mark r.stack.top.count }

/-- How many parts were read since the last fault. -/
def since : Nat := r.stack.top.count - r.mark

/-- Whether two readings can become one. -/
def joinable (a b : Reading) : Bool := a.isActive && b.isActive && a.stack.joinable b.stack

/-- Two readings as one. -/
def join (a b : Reading) : Reading :=
  let stack := a.stack.join b.stack
  { a with stack, mark := if a.state.isNone then stack.top.count else a.mark }

/-- Whether a reading has read text since its last fault. -/
def hasAdvanced : Bool := r.stack.top.cost == 0 || go (r.stack.top.height + 1) r.stack
where
  /-- Looks at the trees from the top on, as long as they hold no text. -/
  go : Nat → Stack → Bool
    | 0, _ => false
    | fuel + 1, s => match s.links with
      | (some t, below) :: _ =>
        0 < t.total.bytes || (r.mark < s.top.count && t.facts.cost == 0 && go fuel below)
      | _ => false

end Reading

/-! ## Comparing readings -/

/-- How good a reading is. -/
structure Standpoint where
  /-- What its faults cost. -/
  cost : Nat
  /-- How much it has read since the last one. -/
  since : Nat
  /-- How much it is preferred. -/
  weight : Int
  /-- Whether it is in a fault. -/
  faulty : Bool

/-- How two readings compare. -/
inductive Preference
  /-- The second one is given up. -/
  | takeFirst
  /-- The first one is better. -/
  | preferFirst
  /-- Neither is. -/
  | neither
  /-- The second one is better. -/
  | preferSecond
  /-- The first one is given up. -/
  | takeSecond
  deriving DecidableEq

/-- Compares two readings: by whether they are in a fault, by cost, and by weight. A reading is given up if it costs much
more than one that has gone on without faults. -/
def Standpoint.compare (a b : Standpoint) : Preference :=
  if !a.faulty && b.faulty then
    if a.cost < b.cost then .takeFirst else .preferFirst
  else if a.faulty && !b.faulty then
    if b.cost < a.cost then .takeSecond else .preferSecond
  else if a.cost < b.cost then
    if Cost.difference < (b.cost - a.cost) * (1 + a.since) then .takeFirst else .preferFirst
  else if b.cost < a.cost then
    if Cost.difference < (a.cost - b.cost) * (1 + b.since) then .takeSecond else .preferSecond
  else if b.weight < a.weight then .preferFirst
  else if a.weight < b.weight then .preferSecond
  else .neither

/-- How good a reading is. -/
def Reading.standpoint (r : Reading) : Standpoint where
  cost := if r.isPaused then r.cost + Cost.part else r.cost
  since := r.since
  weight := r.stack.top.weight
  faulty := r.isPaused || r.state.isNone

/-! ## Progress -/

/-- The readings of a text so far. -/
structure Progress where
  /-- The readings that go on, the best first. -/
  readings : List Reading
  /-- A number that no stack has yet. -/
  serial : Nat
  /-- The best tree of the whole text. -/
  finished : Option Tree
  /-- How many such trees were found. -/
  accepted : Nat

/-- A step that changes the readings of a text. -/
abbrev Step := StateM Progress

namespace Step

/-- How many readings there are. -/
def count : Step Nat := return (← get).readings.length

/-- A reading by its number. -/
def reading (v : Nat) : Step Reading := return (← get).readings.getD v default

/-- Exchanges a reading. -/
def set (v : Nat) (r : Reading) : Step Unit := modify fun p => { p with readings := p.readings.set v r }

/-- Changes a reading. -/
def update (v : Nat) (f : Reading → Reading) : Step Unit := do set v (f (← reading v))

/-- Adds a reading behind all others. -/
def append (r : Reading) : Step Unit := modify fun p => { p with readings := p.readings ++ [r] }

/-- Removes a reading. -/
def remove (v : Nat) : Step Unit := modify fun p => { p with readings := p.readings.eraseIdx v }

/-- Ends a reading. -/
def halt (v : Nat) : Step Unit := update v fun r => { r with status := .halted }

/-- A stack with one more tree. -/
def grow (s : Stack) (tree : Option Tree) (state : Option State) (input : Input) : Step Stack := do
  let p ← get
  modify fun p => { p with serial := p.serial + 1 }
  return s.push p.serial tree state input

/-- A stack with some more trees that leave its state as it is. -/
def growAll (state : Option State) (s : Stack) : List (Tree × Input) → Step Stack
  | [] => return s
  | (t, i) :: ts => do growAll state (← grow s (some t) state i) ts

/-- Adds a tree to a reading. -/
def push (v : Nat) (tree : Tree) (state : Option State) (input : Input) : Step Unit := do
  let r ← reading v
  let stack ← grow r.stack (some tree) state input
  set v { r with stack }

/-- Lets a reading enter a fault. -/
def enterFault (v : Nat) : Step Unit := do
  let r ← reading v
  let stack ← grow r.stack none none r.stack.top.input
  set v { r with stack, mark := stack.top.count }

/-- Makes one reading of two, if they can be joined; the first one stays. -/
def join (a b : Nat) : Step Bool := do
  let x ← reading a
  let y ← reading b
  if a < b && b < (← count) && x.joinable y then
    set a (x.join y)
    remove b
    return true
  else return false

/-- Joins a reading with the first one before it from a number on that it can be joined with, one aside. -/
def joinBefore (first : Nat) (except : Option Nat) (v : Nat) : Step Bool := do
  let candidates := ((← get).readings.take v).zipIdx.drop first
  let r ← reading v
  match candidates.find? fun (x, i) => some i != except && x.joinable r with
  | some (_, i) => join i v
  | none => return false

/-- Puts a reading into the place of another one before it. -/
def replace (source target : Nat) : Step Unit := do
  let new ← reading source
  let old ← reading target
  set target { new with ancestors := new.ancestors <|> old.ancestors }
  if source != target then remove source

end Step

end BareImports.Script
