import BareImports.Script.State
import BareImports.Script.Tree

/-!
# Stacks

A stack holds what is read so far as trees, with the state behind each of them. Where readings met again, it has more
than one way down.

* `Summit`, `Stack`: the top of a stack, and what lies below it;
* `Stack.push`, `Stack.join`: stacks that grow, and two stacks of one state as one;
* `Path`, `Stack.walk`: the ways down from the top;
* `Stack.pop`, `Stack.popAll`: the trees on all ways of some length, by where they lead;
* `Stack.faultBelow?`: the fault on top of a stack.
-/

namespace BareImports.Script

/-- What is known of the top of a stack. -/
structure Summit where
  /-- A number that no other top has. -/
  serial : Nat
  /-- The state; none inside of a fault. -/
  state : Option State
  /-- The place in the text. -/
  input : Input
  /-- What the faults below cost. -/
  cost : Nat
  /-- How many parts lie below. -/
  count : Nat
  /-- How much what lies below is preferred. -/
  weight : Int
  /-- How many trees lie below at most. -/
  height : Nat

/-- A stack: its top, and each tree below it with the stack before that tree. A way without a tree leads into a fault. -/
inductive Stack
  | mk (top : Summit) (links : List (Option Tree × Stack))

/-- A way down by one tree. -/
abbrev Link := Option Tree × Stack

/-- Whether two states are the same; the state inside of faults is one. -/
def sameState : Option State → Option State → Bool
  | none, none => true
  | some s, some t => s.same t
  | _, _ => false

/-- Whether two ways have trees that count as the same. -/
def alikeTrees : Option Tree → Option Tree → Bool
  | none, none => true
  | some a, some b => a.alike b
  | _, _ => false

namespace Stack

/-- What is known of the top. -/
def top : Stack → Summit
  | mk t _ => t

/-- The ways down. -/
def links : Stack → List Link
  | mk _ ls => ls

/-- The stack before a text. -/
def bottom (s : State) (i : Input) : Stack := mk ⟨0, some s, i, 0, 0, 0, 0⟩ []

instance : Inhabited Stack := ⟨mk ⟨0, none, default, 0, 0, 0, 0⟩ []⟩

/-- The weight of a tree, if there is one. -/
def weightOf (t : Option Tree) : Int := (t.map (·.facts.weight)).getD 0

/-- The size of a tree, if there is one. -/
def partsOf (t : Option Tree) : Nat := (t.map Tree.size).getD 0

/-- The cost of a tree, if there is one. -/
def costOf (t : Option Tree) : Nat := (t.map (·.facts.cost)).getD 0

/-- A stack with one more tree, or with the way into a fault. -/
def push (serial : Nat) (below : Stack) (tree : Option Tree) (state : Option State) (input : Input) : Stack :=
  let b := below.top
  mk { serial, state, input
       cost := b.cost + costOf tree
       count := b.count + partsOf tree
       weight := b.weight + weightOf tree
       height := b.height + 1 } [(tree, below)]

/-! ## Joining stacks -/

/-- How many ways a stack may have. -/
def maxLinks : Nat := 8

/-- Whether two stacks can be joined as parts of larger ones. -/
def joinable (a b : Stack) : Bool :=
  sameState a.top.state b.top.state && a.top.input.offset.chars == b.top.input.offset.chars && a.top.cost == b.top.cost

/-- A stack with one more way down. A way like one that is there becomes part of it. Stacks are no higher than the
fuel. -/
def addLink : Nat → Stack → Link → Stack
  | 0, s, _ => s
  | fuel + 1, mk t ls, (tree, below) =>
    let weight := below.top.weight + weightOf tree
    let fits := fun (l : Link) =>
      alikeTrees l.1 tree && (l.2.top.serial == below.top.serial || l.2.joinable below)
    if t.serial == below.top.serial then mk t ls
    else match ls.findIdx? fits with
      | some i =>
        let (oldTree, oldBelow) := ls.getD i (none, default)
        if oldBelow.top.serial == below.top.serial then
          if weightOf oldTree < weightOf tree then mk { t with weight } (ls.set i (tree, oldBelow)) else mk t ls
        else
          let joined := below.links.foldl (addLink fuel) oldBelow
          mk { t with weight := max t.weight weight, height := max t.height (joined.top.height + 1) }
            (ls.set i (oldTree, joined))
      | none =>
        if ls.length == maxLinks then mk t ls
        else
          mk { t with
                count := max t.count (below.top.count + partsOf tree)
                weight := max t.weight weight
                height := max t.height (below.top.height + 1) }
            (ls ++ [(tree, below)])

/-- Two stacks of one state as one. -/
def join (a b : Stack) : Stack := b.links.foldl (addLink (a.top.height + b.top.height + 2)) a

end Stack

/-! ## Ways down -/

/-- A way down from the top of a stack. -/
structure Path where
  /-- The stack at its end. -/
  stack : Stack
  /-- Its trees in the order of the text, each with the place behind it. -/
  trees : List (Tree × Input)
  /-- How many of them cannot stand anywhere. -/
  count : Nat

namespace Path

/-- A way further down. -/
def follow (p : Path) (link : Link) : Path :=
  match link with
  | (some t, below) =>
    ⟨below, (t, p.stack.top.input) :: p.trees, if t.facts.extra then p.count else p.count + 1⟩
  | (none, below) => ⟨below, p.trees, p.count + 1⟩

/-- How many ways are followed at once. -/
def maxPaths : Nat := 64

/-- The first ways of one step, as many as may still be followed. -/
def branch (p : Path) (total : Nat) : List Link → List Path
  | [] => []
  | l :: ls => if maxPaths ≤ total then [] else p.follow l :: branch p (total + 1) ls

end Path

namespace Stack

variable {α : Type}

/-- One round: each way is visited and goes one step down, unless it ends. The first way at a fork goes on in its place,
the others behind all. -/
def round (visit : α → Path → α × Bool) : Nat → List Path → α → List Path × List Path × α
  | _, [], a => ([], [], a)
  | total, p :: ps, a =>
    let (a, stop) := visit a p
    match p.stack.links with
    | l :: ls =>
      if stop then round visit (total - 1) ps a
      else
        let others := p.branch total ls
        let (kept, added, a) := round visit (total + others.length) ps a
        (p.follow l :: kept, others ++ added, a)
    | [] => round visit (total - 1) ps a

/-- Visits the ways down in rounds until all end. -/
def walk (visit : α → Path → α × Bool) : Nat → List Path → α → α
  | 0, _, a => a
  | _, [], a => a
  | fuel + 1, ps, a =>
    let (kept, added, a) := round visit ps.length ps a
    walk visit fuel (kept ++ added) a

/-- Visits the ways down from the top of a stack. -/
def walkFrom (s : Stack) (visit : α → Path → α × Bool) (a : α) : α :=
  walk visit (s.top.height + 2) [⟨s, [], 0⟩] a

/-- Ways that lead to one stack. -/
structure Slice where
  /-- The stack. -/
  stack : Stack
  /-- The trees on each way. -/
  ways : List (List (Tree × Input))

/-- Adds a way to those that lead to the same stack. -/
def addWay (p : Path) : List Slice → List Slice
  | [] => [⟨p.stack, [p.trees]⟩]
  | s :: ss =>
    if s.stack.top.serial == p.stack.top.serial then { s with ways := s.ways ++ [p.trees] } :: ss
    else s :: addWay p ss

/-- The trees on all ways with a number of trees that cannot stand anywhere. -/
def pop (s : Stack) (count : Nat) : List Slice :=
  s.walkFrom (fun found p => if p.count == count then (addWay p found, true) else (found, false)) []

/-- The trees on all ways to the bottom. -/
def popAll (s : Stack) : List Slice :=
  s.walkFrom (fun found p => (if p.stack.links.isEmpty then addWay p found else found, false)) []

/-- The first way down by a fault. -/
def faultBelow? (s : Stack) : Option (Tree × Stack) :=
  s.links.findSome? fun (tree, below) => tree.bind fun t => if t.kind == .fault then some (t, below) else none

end Stack

end BareImports.Script
