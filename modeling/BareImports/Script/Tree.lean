import BareImports.Script.Extent
import BareImports.Script.Node
import BareImports.Script.Token

/-!
# Trees

A tree holds the sizes of its parts and no places: parts follow one another, so they nest and do not overlap. What
readings compare is kept with each tree.

* `Kind`: what a tree stands for;
* `Facts`, `Tree`: trees;
* `Tree.leaf`, `Tree.fault`, `Tree.missing`, `Tree.make`: trees of tokens, and of parts;
* `Cost`: what faults cost;
* `Tree.preferred`: which of two trees of the same text is kept.
-/

namespace BareImports.Script

/-- What a tree stands for. -/
inductive Kind
  /-- A lexeme. -/
  | token (t : Token)
  /-- A part that the grammar knows. -/
  | node (n : Node)
  /-- A fault, with what was read of it. -/
  | fault
  /-- Tokens that are skipped, as a part of a fault. -/
  | skipped
  deriving DecidableEq, Repr

namespace Kind

/-- Whether trees of a kind are parts of their own. -/
def isShown : Kind → Bool
  | token t => t.isShown
  | node n => n.isShown
  | fault => true
  | skipped => false

/-- Whether trees of a kind hold a fault directly. -/
def isFaulty : Kind → Bool
  | fault | skipped => true
  | _ => false

/-- A number for the order of kinds. -/
def code : Kind → Nat
  | token t => t.ctorIdx
  | node n => 256 + n.ctorIdx
  | skipped => 65534
  | fault => 65535

end Kind

/-- What is known of a tree apart from its parts. -/
structure Facts where
  /-- What it stands for. -/
  kind : Kind
  /-- The text before its first lexeme. -/
  gap : Extent
  /-- Its text. -/
  span : Extent
  /-- Whether it can stand anywhere: a comment, or a fault between other parts. -/
  extra : Bool
  /-- Whether it is a token that the text lacks. -/
  missing : Bool
  /-- What its faults cost. -/
  cost : Nat
  /-- How much it is preferred. -/
  weight : Int
  /-- How many parts of its own it has. -/
  parts : Nat
  /-- How many parts it has at any depth. -/
  below : Nat
  /-- How many trees it consists of directly. -/
  arity : Nat
  deriving DecidableEq, Repr

/-- A tree with what is known of it. -/
inductive Tree
  | mk (facts : Facts) (children : List Tree)

namespace Tree

/-- What is known of a tree. -/
def facts : Tree → Facts
  | mk f _ => f

/-- The trees that a tree consists of. -/
def children : Tree → List Tree
  | mk _ cs => cs

instance : Inhabited Tree := ⟨mk ⟨.fault, .zero, .zero, false, false, 0, 0, 0, 0, 0⟩ []⟩

/-- What a tree stands for. -/
def kind (t : Tree) : Kind := t.facts.kind

/-- The text of a tree with the gap before it. -/
def total (t : Tree) : Extent := t.facts.gap + t.facts.span

/-- Whether a tree is a part of its own. -/
def isShown (t : Tree) : Bool := t.kind.isShown

/-- A tree as one that can stand anywhere, or as one that cannot. -/
def asExtra (extra : Bool) (t : Tree) : Tree := mk { t.facts with extra } t.children

end Tree

/-! ## Costs -/

namespace Cost

/-- Each fault. -/
def fault : Nat := 500

/-- A token that is missing, apart from the fault. -/
def missing : Nat := 110

/-- A part that is skipped. -/
def part : Nat := 100

/-- Text that is skipped. -/
def text (e : Extent) : Nat := e.bytes + 30 * e.lines

/-- How much worse a reading may be than another, divided by how much it has read since. -/
def difference : Nat := 1800

end Cost

namespace Tree

/-! ## Making trees -/

/-- A tree of one lexeme. -/
def leaf (t : Token) (gap span : Extent) (extra : Bool) : Tree :=
  mk ⟨.token t, gap, span, extra, false, 0, 0, 0, 0, 0⟩ []

/-- Characters that are no lexeme. -/
def fault (gap span : Extent) : Tree :=
  mk ⟨.fault, gap, span, false, false, Cost.fault + Cost.text span, 0, 0, 0, 0⟩ []

/-- A token that the text lacks. -/
def missing (t : Token) : Tree :=
  mk ⟨.token t, .zero, .zero, false, true, Cost.missing + Cost.fault, 0, 0, 0, 0⟩ []

/-- What a child costs as a part of a fault, apart from its own faults. -/
def skippedCost (c : Tree) : Nat :=
  if c.facts.extra || (c.kind == .fault && c.children.isEmpty) then 0
  else if c.isShown then Cost.part
  else Cost.part * c.facts.parts

/-- A tree of some parts. -/
def make (kind : Kind) (children : List Tree) (extra : Bool) (weight : Int) : Tree :=
  let gap := (children.head?.map (·.facts.gap)).getD .zero
  let total := children.foldl (fun e c => e + c.total) .zero
  let span := total - gap
  let own := children.foldl (fun n c => if c.kind == .skipped then n else n + c.facts.cost) 0
  let skipped :=
    if kind.isFaulty then
      children.foldl (fun n c => n + skippedCost c) (Cost.fault + Cost.text span)
    else 0
  mk {
    kind, gap, span, extra
    missing := false
    cost := own + skipped
    weight := children.foldl (fun w c => w + c.facts.weight) weight
    parts := children.foldl (fun n c => n + if c.isShown then 1 else c.facts.parts) 0
    below := children.foldl (fun n c => n + c.facts.below + if c.isShown then 1 else 0) 0
    arity := children.length } children

/-- How many parts a tree adds to what is read. -/
def size (t : Tree) : Nat :=
  t.facts.below + (if t.isShown then 1 else 0) + if t.kind == .skipped then 1 else 0

/-! ## Choosing between trees -/

mutual

/-- Compares trees by their kinds and those of their parts, from the outside and from the left. -/
def compareAll : Tree → Tree → Ordering
  | mk f cs, mk g ds =>
    (compare f.kind.code g.kind.code).then ((compare f.arity g.arity).then (compareLists cs ds))

/-- Compares lists of trees one by one. -/
def compareLists : List Tree → List Tree → Ordering
  | [], _ => .eq
  | _, [] => .eq
  | c :: cs, d :: ds => (compareAll c d).then (compareLists cs ds)

end

/-- Whether the second of two trees of the same text is preferred. -/
def preferred (a b : Tree) : Bool :=
  if b.facts.cost < a.facts.cost then true
  else if a.facts.cost < b.facts.cost then false
  else if a.facts.weight < b.facts.weight then true
  else if b.facts.weight < a.facts.weight then false
  else if 0 < a.facts.cost then true
  else compareAll a b == .gt

/-- Whether two trees count as the same when readings are joined. -/
def alike (a b : Tree) : Bool :=
  a.kind == b.kind &&
    ((0 < a.facts.cost && 0 < b.facts.cost) ||
      (a.facts.gap.bytes == b.facts.gap.bytes && a.facts.span.bytes == b.facts.span.bytes &&
        a.facts.arity == b.facts.arity && a.facts.extra == b.facts.extra))

/-- The trees before the last run of extra ones, and that run. -/
def splitExtras (ts : List Tree) : List Tree × List Tree :=
  let extras := (ts.reverse.takeWhile (·.facts.extra)).reverse
  (ts.take (ts.length - extras.length), extras)

end Tree

end BareImports.Script
