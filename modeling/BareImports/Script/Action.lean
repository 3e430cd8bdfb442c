import BareImports.Script.State

/-!
# What a state does with a token

Where several productions could go on or end, their ranks decide, then their sides. What stays open is read in several
ways at once.

* `Standing`, `orders`: the levels and nodes that are compared with one another;
* `Rank.compare`: whether one production binds more strongly than others;
* `Contest`: the productions that may end, the weaker ones left out;
* `State.actions`: what a state does with a token.
-/

namespace BareImports.Script

/-! ## Ranks -/

/-- What has a place in an order of strength. -/
inductive Standing
  | level (l : Level)
  | node (n : Node)
  deriving DecidableEq, Repr

instance : Coe Level Standing := ⟨.level⟩

instance : Coe Node Standing := ⟨.node⟩

section Orders

open Level Node

/-- The orders of strength that both dialects have, the strongest first. -/
def commonOrders : List (List Standing) := [
  [member, templateCall, call, updateExpression, unaryVoid, binaryPower, binaryTimes, binaryPlus, binaryShift,
    binaryCompare, binaryRelation, binaryEquality, bitwiseAnd, bitwiseXor, bitwiseOr, logicalAnd, logicalOr,
    conditional, sequenceExpression, arrowFunction],
  [assign, primaryExpression],
  [member, templateCall, new, call, expression],
  [declare, literal],
  [primaryExpression, statementBlock, Level.object],
  [metaProperty, importCallee],
  [importStatement, importCallee],
  [exportStatement, primaryExpression],
  [lexicalDeclaration, primaryExpression]]

/-- The orders of strength among types and the expressions that take them, the strongest first. -/
def typedOrders : List (List Standing) := [
  [call, instantiation, unary, binary, awaitExpression, arrowFunction],
  [extended, instantiation],
  [intersectionType, unionType, conditionalType, functionType, binary, typePredicate, readonlyType],
  [mappedTypeClause, primaryExpression],
  [accessibilityModifier, primaryExpression],
  [unaryVoid, expression],
  [extendsClause, primaryExpression],
  [unary, assign],
  [declare, expression],
  [predefinedType, unaryExpression],
  [type, flowMaybeType],
  [tupleType, arrayType, pattern, type],
  [readonlyType, pattern],
  [readonlyType, primaryExpression],
  [typeQuery, subscriptExpression, expression]]

/-- The orders of strength between what is written alike, the stronger first. -/
def likeOrders : List (List Standing) := [
  [typeQuery, querySubscript],
  [nestedTypeName, genericType, primaryType, lookupType, indexTypeQuery, type],
  [asExpression, satisfiesExpression, primaryType],
  [queryMember, memberExpression],
  [memberExpression, annotatedQueryMember],
  [queryMember, primaryExpression],
  [querySubscript, subscriptExpression],
  [querySubscript, primaryExpression],
  [queryCall, primaryExpression],
  [queryInstantiation, primaryExpression],
  [typeQuery, primaryExpression],
  [overrideModifier, primaryExpression],
  [decoratorCall, decorator],
  [literalType, pattern],
  [predefinedType, pattern],
  [callExpression, queryCall],
  [callExpression, annotatedQueryCall],
  [newExpression, primaryExpression],
  [metaProperty, primaryExpression],
  [constructSignature, propertyName]]

end Orders

/-- The orders of strength of a dialect. -/
def orders (d : Dialect) : List (List Standing) := commonOrders ++ d.pick [] (typedOrders ++ likeOrders)

/-- A rank with the nodes whose productions have it. -/
structure Strength where
  /-- The rank. -/
  rank : Rank
  /-- The nodes. -/
  nodes : List Node

/-- The number of a rank without a level. -/
def Rank.number? : Rank → Option Int
  | .low => some (-1)
  | .plain => some 0
  | .high => some 1
  | .level _ => none

/-- Whether something has a place in an order on behalf of a strength. -/
def Standing.standsFor (x : Standing) (s : Strength) : Bool :=
  match x with
  | .level l => s.rank == .level l
  | .node n => s.nodes.contains n

/-- Compares by one order: which of the two has a place before one of the other. -/
def compareIn (a b : Strength) (seenA seenB : Bool) : List Standing → Ordering
  | [] => .eq
  | x :: order =>
    if x.standsFor a then
      if seenB then .lt else compareIn a b true seenB order
    else if x.standsFor b then
      if seenA then .gt else compareIn a b seenA true order
    else compareIn a b seenA seenB order

/-- Compares by the orders of a dialect; the first that decides counts. -/
def compareBy (a b : Strength) : List (List Standing) → Ordering
  | [] => .eq
  | order :: rest => (compareIn a b false false order).then (compareBy a b rest)

/-- Which of two binds more strongly. -/
def Strength.compare (d : Dialect) (a b : Strength) : Ordering :=
  match a.rank.number?, b.rank.number? with
  | some x, some y => if x == 0 && y == 0 then compareBy a b (orders d) else Ord.compare x y
  | _, _ => compareBy a b (orders d)

/-! ## Productions that may end -/

/-- A production as a whole. -/
structure Reduction where
  /-- The node that it makes. -/
  node : Node
  /-- Of how many parts. -/
  count : Nat
  /-- How much a reading with it is preferred. -/
  weight : Int
  deriving DecidableEq, Repr

/-- The productions that may end, the weaker ones left out. -/
structure Contest where
  /-- Their items. -/
  kept : List Item
  /-- How strongly they bind. -/
  strength : Strength
  /-- Which ways they group. -/
  sides : List Side

namespace Contest

/-- The contest without productions. -/
def empty : Contest := ⟨[], ⟨.plain, []⟩, []⟩

/-- The production of an item. -/
def productionOf (l : Language) (i : Item) : Production :=
  (l.production i.node i.production).getD ⟨.plain, .none, 0, .never⟩

/-- A contest with one more production. -/
def add (l : Language) (c : Contest) (i : Item) : Contest :=
  let p := productionOf l i
  let alone : Contest := ⟨[i], ⟨p.rank, [i.node]⟩, [p.side]⟩
  if c.kept.isEmpty then alone
  else match Strength.compare l.dialect ⟨p.rank, [i.node]⟩ c.strength with
    | .gt => alone
    | .eq => ⟨c.kept ++ [i], ⟨p.rank, c.strength.nodes ++ [i.node]⟩, c.sides ++ [p.side]⟩
    | .lt => c

end Contest

/-! ## Actions -/

/-- What a state does with a token. -/
inductive Action
  /-- The token is taken. -/
  | shift
  /-- The token goes on with a run, which is first gathered by another action. -/
  | gather
  /-- A production ends before the token. -/
  | reduce (r : Reduction)
  /-- The text is read. -/
  | accept
  deriving DecidableEq, Repr

namespace State

variable (l : Language) (s : State)

/-- The empty productions that may end before a token. -/
def emptyItems (t : Token) : List Item :=
  if (s.follow .program).has t then
    (l.automaton .program).productions.toList.zipIdx.filterMap fun ((_, start), k) =>
      if ((l.automaton .program).position start).final then some ⟨.program, k, 0, start, s.follow .program⟩ else none
  else []

/-- Whether an item may end before a token. -/
def endsBefore (t : Token) (i : Item) : Bool := (l.placeOf i).final && i.ahead.has t

/-- Whether an item that is begun goes on with a token. -/
def goesOn (t : Token) (i : Item) : Bool := (l.placeOf i).next.has t

/-- The action that ends an item. -/
def ending (i : Item) : Action :=
  if i.node == .script then .accept
  else .reduce ⟨i.node, i.read, (Contest.productionOf l i).weight⟩

/-- What is left of ending some productions or taking a token. -/
def settle (t : Token) (c : Contest) : List Action :=
  let ends := c.kept.map (ending l)
  let rivals := s.items.filter fun i => 0 < i.read && i.node != .script && goesOn l t i
  let involved := s.items.filter fun i => i.node != .script && (endsBefore l t i || (0 < i.read && goesOn l t i))
  if involved.head?.any fun v => v.node.isRepetition && involved.all (·.node == v.node) then ends ++ [.gather]
  else
    let compared := rivals.map fun i =>
      Strength.compare l.dialect ⟨(Contest.productionOf l i).rank, [i.node]⟩ c.strength
    let stronger := compared.contains .gt
    let weaker := compared.contains .lt
    if stronger && !weaker then [.shift]
    else if weaker && !stronger then ends
    else if stronger then ends ++ [.shift]
    else if c.sides.all (· == .left) then ends
    else if c.sides.all (· == .right) then [.shift]
    else ends ++ [.shift]

/-- What a state does with a token; nothing if the token cannot come here. -/
def actions (t : Token) : List Action :=
  let completed := s.emptyItems l t ++ s.items.filter (endsBefore l t)
  let c := completed.foldl (Contest.add l) .empty
  if s.items.any (goesOn l t) then
    if c.kept.isEmpty then [.shift] else s.settle l t c
  else c.kept.map (ending l)

/-- Whether a state can do something with a token. -/
def admits (t : Token) : Bool := s.valid.has t

/-- The state behind a token, if it may be taken. -/
def take? (t : Token) : Option State :=
  match (s.actions l t).getLast? with
  | some .shift | some .gather => s.goto? l (.token t)
  | _ => none

end State

end BareImports.Script
