import BareImports.Cdn.Cache

/-!
# Concurrent calls on one cache

* `Call`: a goal and a location; `Slot`: a call and where it stands; `Reply`: what it came to;
* `Session`: a cache and the calls that were made;
* `Move`: the moves, in any order: a call is made, a call goes on, a request is answered;
* `Session.step`: what a move does; `Session.play`: what moves do in order;
* `Session.run`: moves by turns until every call has its result.
-/

namespace BareImports.Cdn

/-- A call: what it is after and the location that it asks for. -/
structure Call where
  /-- What it is after. -/
  goal : Goal
  /-- The location that it asks for. -/
  location : Location

/-- A result with its goal. -/
structure Reply where
  /-- What the call was after. -/
  goal : Goal
  /-- What it came to. -/
  result : Except Failure goal.Result

/-- A call that was made and where it stands. -/
structure Slot where
  /-- The call. -/
  call : Call
  /-- Where it stands. -/
  status : Status call.goal

/-- The result of a call, if it has one. -/
def Slot.result? (s : Slot) : Option Reply :=
  match s.status with
  | .done r => some ⟨s.call.goal, r⟩
  | .waiting _ => none

/-- A cache with the calls that were made of it. -/
structure Session where
  /-- The cache. -/
  cache : Cache
  /-- The calls, in the order in which they were made. -/
  slots : List Slot := []

/-- A move. -/
inductive Move
  /-- A call is made. -/
  | call (c : Call)
  /-- A call goes on as far as it can. -/
  | go (k : Nat)
  /-- A request is answered. -/
  | answer (n : Nat) (a : Answer)

namespace Session

/-- A session without calls on an empty cache. -/
def empty (url : String) : Session := { cache := .empty url }

/-- What a move does. -/
def step (s : Session) : Move → Session
  | .call c => { s with slots := s.slots ++ [⟨c, .waiting (.turn c.location)⟩] }
  | .go k => match s.slots[k]? with
    | some ⟨call, .waiting w⟩ =>
      let (cache, status) := s.cache.resume call.goal w
      ⟨cache, s.slots.set k ⟨call, status⟩⟩
    | _ => s
  | .answer n a => { s with cache := s.cache.complete n a }

/-- What moves do in order. -/
def play (s : Session) (moves : List Move) : Session := moves.foldl step s

/-- Every call goes on as far as it can, in order. -/
def sweep (s : Session) : Session := s.play ((List.range s.slots.length).map .go)

/-- Every request in flight is answered. -/
def answerAll {m : Type → Type} [Monad m] (fetch : String → m Answer) (s : Session) : m Session :=
  s.cache.inFlight.foldlM (fun s (n, url) => do return s.step (.answer n (← fetch url))) s

/-- Whether every call has its result. -/
def isDone (s : Session) : Bool := s.slots.all fun slot => slot.result?.isSome

/-- Calls and answers by turns until every call has its result. -/
def run {m : Type → Type} [Monad m] (fetch : String → m Answer) : Nat → Session → m Session
  | 0, s => return s
  | fuel + 1, s => do
    let s := s.sweep
    if s.isDone then return s
    run fetch fuel (← s.answerAll fetch)

/-- The results of concurrent calls on a cache. Each turn answers all requests in flight, so a call waits at most once
for each other call and once for itself. -/
def gather {m : Type → Type} [Monad m] (fetch : String → m Answer) (c : Cache) (calls : List Call) :
    m (Cache × List Reply) := do
  let s ← run fetch (4 * calls.length + 4) ((⟨c, []⟩ : Session).play (calls.map .call))
  return (s.cache, s.slots.filterMap Slot.result?)

end Session

end BareImports.Cdn
