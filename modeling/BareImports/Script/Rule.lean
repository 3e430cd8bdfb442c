import BareImports.Script.Node
import BareImports.Script.Token

/-!
# Rules of the grammar

A rule says which runs of tokens and nodes make up a node. Rules have no loops: what repeats is a node of its own.

* `Symbol`: a token or a node;
* `Rule`: a finite set of runs of symbols, with combinators in the words of grammars;
* `Rule.nullable`, `Rule.steps`: whether the empty run belongs to a rule, and what it can begin with;
* `Rank`, `Side`, `Production`: a rule with what decides between it and others.
-/

namespace BareImports.Script

/-- A token or a node. -/
inductive Symbol
  | token (t : Token)
  | node (n : Node)
  deriving DecidableEq, Repr

/-- A number for each symbol, tokens first. -/
def Symbol.code : Symbol → Nat
  | token t => t.ctorIdx
  | node n => 256 + n.ctorIdx

/-- A finite set of runs of symbols. -/
inductive Rule
  /-- No run at all. -/
  | never
  /-- The empty run alone. -/
  | empty
  /-- A symbol alone. -/
  | symbol (s : Symbol)
  /-- A run of the one and then a run of the other. -/
  | both (a b : Rule)
  /-- A run of either. -/
  | either (a b : Rule)
  deriving DecidableEq, Repr

instance : Coe Token Rule := ⟨fun t => .symbol (.token t)⟩

instance : Coe Node Rule := ⟨fun n => .symbol (.node n)⟩

namespace Rule

/-! ## Combinators -/

/-- One rule after another. -/
def seq : List Rule → Rule
  | [] => .empty
  | [r] => r
  | r :: rs => .both r (seq rs)

/-- One of some rules. -/
def oneOf : List Rule → Rule
  | [] => .never
  | [r] => r
  | r :: rs => .either r (oneOf rs)

/-- A rule or nothing. -/
def opt (r : Rule) : Rule := .either r .empty

/-- A run that may be missing of things with a node `more` for what follows the first of them. -/
def list (r : Rule) (more : Node) : Rule := opt (seq [r, opt more])

/-- A name in a place where reserved words are names too. -/
def anyName : Rule := .either Token.name Token.freeName

/-! ## What a rule can begin with -/

/-- Whether the empty run belongs to a rule. -/
def nullable : Rule → Bool
  | never => false
  | empty => true
  | symbol _ => false
  | both a b => a.nullable && b.nullable
  | either a b => a.nullable || b.nullable

/-- One rule and then another, where the first may have been used up. -/
def andThen : Rule → Rule → Rule
  | empty, b => b
  | a, b => .both a b

/-- The symbols that runs of a rule begin with, each with the rule of what follows it. -/
def steps : Rule → List (Symbol × Rule)
  | never => []
  | empty => []
  | symbol s => [(s, empty)]
  | both a b => a.steps.map (fun (s, r) => (s, r.andThen b)) ++ if a.nullable then b.steps else []
  | either a b => a.steps ++ b.steps

/-- How many symbols the longest run of a rule has. -/
def longest : Rule → Nat
  | never => 0
  | empty => 0
  | symbol _ => 1
  | both a b => a.longest + b.longest
  | either a b => max a.longest b.longest

end Rule

/-! ## Productions -/

/-- A step of the binding strengths that are compared with one another. -/
inductive Level
  | member | templateCall | call | new | unary | unaryVoid | binary | binaryPower | binaryTimes
  | binaryPlus | binaryShift | binaryCompare | binaryRelation | binaryEquality | bitwiseAnd
  | bitwiseXor | bitwiseOr | logicalAnd | logicalOr | conditional | assign | declare | literal
  | object | instantiation | extended
  deriving DecidableEq, Repr

/-- How strongly a production binds. -/
inductive Rank
  /-- Not compared by strength. -/
  | plain
  /-- Below all others. -/
  | low
  /-- Above all others. -/
  | high
  /-- By a level. -/
  | level (l : Level)
  deriving DecidableEq, Repr

/-- Which way a run of equally strong operators is grouped. -/
inductive Side
  | none
  | left
  | right
  deriving DecidableEq, Repr

/-- A rule with what decides between it and others. -/
structure Production where
  /-- How strongly it binds. -/
  rank : Rank
  /-- Which way it groups. -/
  side : Side
  /-- How much a reading with it is preferred over one without. -/
  weight : Int
  /-- The runs that it admits. -/
  rule : Rule
  deriving Repr

namespace Production

/-- A production that nothing prefers. -/
def plain (r : Rule) : List Production := [⟨.plain, .none, 0, r⟩]

/-- A production that binds by a level. -/
def level (l : Level) (r : Rule) : List Production := [⟨.level l, .none, 0, r⟩]

/-- A production that groups to the left. -/
def left (k : Rank) (r : Rule) : List Production := [⟨k, .left, 0, r⟩]

/-- A production that groups to the right. -/
def right (k : Rank) (r : Rule) : List Production := [⟨k, .right, 0, r⟩]

/-- A production that is avoided. -/
def avoided (r : Rule) : List Production := [⟨.plain, .none, -1, r⟩]

/-- A run of at least one thing, as pairs of shorter runs. -/
def repetition (n : Node) (r : Rule) : List Production := plain (.either (.seq [n, n]) r)

end Production

end BareImports.Script
