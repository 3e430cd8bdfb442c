import BareImports.Script.Language

/-!
# States of a reading

What a reading has met so far leaves it in a state: the productions that it is in, each with how much of it is read and
with the tokens that may follow it.

* `Item`: a production that a reading is in;
* `State`: all of them, with the nodes that may begin next;
* `State.ofItems`, `State.initial`: a state with what follows from its items;
* `State.goto?`: the state behind a symbol;
* `State.frees`: whether reserved words are names.
-/

namespace BareImports.Script

/-- A production that a reading is in. -/
structure Item where
  /-- The node of the production. -/
  node : Node
  /-- The number of the production. -/
  production : Nat
  /-- How many symbols of it are read. -/
  read : Nat
  /-- The position behind them. -/
  position : Nat
  /-- The tokens that may follow the production. -/
  ahead : TokenSet
  deriving DecidableEq, Repr

/-- The position of an item. -/
def Language.placeOf (l : Language) (i : Item) : Position := (l.automaton i.node).position i.position

/-- Where a reading stands in the grammar. -/
structure State where
  /-- The productions that are begun, by how much is read of them and then by their order. -/
  items : List Item
  /-- The tokens that may follow each node, if it begins here. -/
  reached : Numbered TokenSet
  /-- The tokens that may come next. -/
  valid : TokenSet
  deriving Repr

namespace State

/-- Two states with the same items. -/
def same (s t : State) : Bool := s.items == t.items

/-- Adds the nodes at the beginning of a node with what follows them. -/
def addReach (l : Language) (follow : TokenSet) (n : Node) (reached : Numbered TokenSet) : Numbered TokenSet :=
  (l.reach n).foldl (fun reached r =>
    reached.update r.node.ctorIdx fun s =>
      s.union (if r.inherits then r.follow.union follow else r.follow)) reached

/-- Adds the nodes that may begin at an item. -/
def addItem (l : Language) (reached : Numbered TokenSet) (i : Item) : Numbered TokenSet :=
  (l.placeOf i).onNode.foldl (fun reached (n, after) =>
    let p := (l.automaton i.node).position after
    addReach l (if p.final then p.next.union i.ahead else p.next) n reached) reached

/-- The tokens that may come next at an item. -/
def validAt (l : Language) (i : Item) : TokenSet :=
  let p := l.placeOf i
  if p.final then p.next.union i.ahead else p.next

/-- The tokens that may follow each node that begins at one of some items. -/
def reachedFrom (l : Language) (items : List Item) : Numbered TokenSet := items.foldl (addItem l) (.all .empty)

/-- A state with what follows from its items. A text may be empty, so what follows it may come in its place. -/
def ofItems (l : Language) (items : List Item) : State :=
  let reached := reachedFrom l items
  let behindText := reached.get Node.program.ctorIdx
  { items, reached
    valid := items.foldl (fun s i => s.union (validAt l i)) behindText }

/-- The state before a text. -/
def initial (l : Language) : State :=
  ofItems l [⟨.script, 0, 0, ((l.automaton .script).productions[0]?.map (·.2)).getD 0, .single .finish⟩]

variable (l : Language) (s : State)

/-- The tokens that may follow a node that begins here; none if it may not. -/
def follow (n : Node) : TokenSet := s.reached.get n.ctorIdx

/-- The items that a symbol begins. -/
def begun (x : Symbol) : List Item :=
  (l.entries x).filterMap fun e =>
    let ahead := s.follow e.node
    if ahead == .empty then none else some ⟨e.node, e.production, 1, e.position, ahead⟩

/-- The items that a symbol takes further. -/
def continued (x : Symbol) : List Item :=
  s.items.filterMap fun i => ((l.placeOf i).after? x).map fun p => { i with read := i.read + 1, position := p }

/-- The state behind a symbol. -/
def goto? (x : Symbol) : Option State :=
  match s.begun l x ++ s.continued l x with
  | [] => none
  | items => some (ofItems l items)

/-- Whether reserved words are names here. -/
def frees : Bool := s.valid.has .freeName || !s.valid.has .name

end State

end BareImports.Script
