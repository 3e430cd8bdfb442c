import BareImports.Value
import BareImports.Yaml.Node

/-!
# Reading YAML

* `Node.settle`: a node whose mappings hold what they take over from others;
* `Node.value`: the value of a node;
* `Yaml.read`: the value of a text, null if it holds no document.

Of several faults the one on the outermost level counts, and of those the first.
-/

namespace BareImports.Yaml

open Number Text

/-! ## Scalars -/

/-- Whether a number has a minus sign, and the number without sign and underscores. -/
def cutNumber (s : List Char) : Except Fault (Bool × List Char) :=
  match s.filter (· != '_') with
  | [] => .error .noDigits
  | s => .ok (cutSign s)

/-- An integer of base 60 from its groups, the first one being the most significant. -/
def ofSixtieths (groups : List Int) : Int := groups.foldl (fun n g => n * 60 + g) 0

/-- A number of base 60 from its groups, added up from the last one on. -/
def sumSixtieths (groups : List Float) : Float :=
  (groups.foldr (fun g (base, x) => (base * 60, x + g * intToFloat base)) ((1 : Int), (0.0 : Float))).2

/-- A digit of a base up to sixteen. -/
def digit? (base : Nat) (c : Char) : Option Nat :=
  match hexValue? c <|> digitValue? c with
  | some d => if d < base then some d else none
  | none => none

/-- The number that digits of a base write, a sign and the letter of the base behind a zero being allowed. -/
def ofBase? (base : Nat) (letter : Char) (s : List Char) : Option Int :=
  let (neg, r) := cutSign (strip s)
  let r := match r with
    | '0' :: c :: r' => if c == letter || c == letter.toUpper then r' else r
    | _ => r
  if r.isEmpty then none
  else match r.mapM (digit? base) with
    | some ds =>
      let n := ds.foldl (fun n d => n * base + d) 0
      some (if neg then -(n : Int) else n)
    | none => none

/-- An integer: decimal, or with the marks of base 2, 16 or 8 in front, or in groups of base 60. -/
def intOf (s : List Char) : Except Fault Int := do
  let (neg, r) ← cutNumber s
  if r.isEmpty then throw .noDigits
  let n? := match r with
    | '0' :: 'b' :: r' => ofBase? 2 'b' r'
    | '0' :: 'x' :: r' => ofBase? 16 'x' r'
    | '0' :: _ => ofBase? 8 'o' r
    | _ =>
      if r.contains ':' then
        ((r.splitOn ':').mapM fun (g : List Char) => readInt? (String.ofList g)).map ofSixtieths
      else readInt? (String.ofList r)
  match n? with
  | some n => return if neg then -n else n
  | none => throw .badValue

/-- A floating-point number: a decimal, groups of base 60, or a word for infinity or for no number. -/
def floatOf (s : List Char) : Except Fault Float := do
  let (neg, r) ← cutNumber (s.map Char.toLower)
  let x? : Option Float := match String.ofList r with
    | ".inf" => some infinity
    | ".nan" => some notANumber
    | t =>
      if r.contains ':' then
        ((r.splitOn ':').mapM fun (g : List Char) => readFloat? (String.ofList g)).map sumSixtieths
      else readFloat? t
  match x? with
  | some x => return if neg then -x else x
  | none => throw .badValue

/-- A truth value. -/
def boolOf (s : List Char) : Except Fault Bool :=
  let word := lowerAscii s
  if Kind.trueWords.contains word then .ok true
  else if Kind.falseWords.contains word then .ok false
  else .error .noTruthValue

/-- A moment. -/
def momentOf (s : List Char) : Except Fault Moment :=
  match Moment.parse? s with
  | some m => if m.isValid then .ok m else .error .badValue
  | none => .error .noMoment

/-- The value of a scalar. -/
def scalarOf (k : Kind) (s : List Char) : Except Fault Value :=
  match k with
  | .null => .ok .null
  | .bool => (boolOf s).map .bool
  | .int => (intOf s).map .int
  | .float => (floatOf s).map .float
  | .text => .ok (.text (String.ofList s))
  | .moment => (momentOf s).map fun m => .other m.text
  | _ => .error .malformed

/-! ## Collections -/

namespace Node

/-- What a node is read as. -/
def kind : Node → Kind
  | scalar k _ => k
  | list k _ => k
  | map k _ => k

/-- A key whose value is a text where it is written. -/
def asKey : Node → Node
  | scalar .main t => scalar .text t
  | n => n

/-- What a mapping gets that is to take over something else than mappings: a key without value. -/
def broken : List (Node × Node) := [(scalar .unknown [], nothing)]

/-- The pairs that a mapping takes over from a settled node: those of a mapping, or those of a list of mappings, the last
one first. -/
def taken : Node → List (Node × Node)
  | map _ ps => ps
  | list _ ns => (ns.reverse.map fun
    | map _ ps => ps
    | _ => broken).flatten
  | scalar .. => broken

/-- The pairs of a mapping from its settled ones: what it takes over comes first. -/
def merged (ps : List (Node × Node)) : List (Node × Node) :=
  let (sources, own) := ps.partition fun (k, _) => k.kind == .merge
  sources.flatMap (fun (_, v) => taken v) ++ own.map fun (k, v) => (asKey k, v)

/-- Whether a mapping of a kind can take over pairs: one that stands for a scalar or a list cannot. -/
def canMerge (k : Kind) : Bool := k == .map || k == .set

mutual

/-- A node whose mappings hold what they take over. -/
def settle : Node → Node
  | scalar k t => scalar k t
  | list k ns => list k (settleAll ns)
  | map k ps => map k (if canMerge k then merged (settlePairs ps) else settlePairs ps)

/-- The nodes of a list, settled. -/
def settleAll : List Node → List Node
  | [] => []
  | n :: ns => settle n :: settleAll ns

/-- The pairs of a mapping, settled each. -/
def settlePairs : List (Node × Node) → List (Node × Node)
  | [] => []
  | (k, v) :: ps => (settle k, settle v) :: settlePairs ps

end

/-- A fault with the level of its node, or a result. -/
abbrev Outcome (α : Type) := Except (Nat × Fault) α

/-- Two outcomes as one: the fault on the outer level counts, else the first. -/
def both {α β : Type} (a : Outcome α) (b : Outcome β) : Outcome (α × β) :=
  match a, b with
  | .ok x, .ok y => .ok (x, y)
  | .error e, .ok _ => .error e
  | .ok _, .error e => .error e
  | .error e, .error e' => .error (if e'.1 < e.1 then e' else e)

/-- A result that is a key: a list or a mapping cannot be one. -/
def keyOf (level : Nat) (v : Outcome Value) : Outcome Value :=
  match v with
  | .ok (.list _) | .ok (.map _) => .error (level, .malformed)
  | .error e => .error (if level < e.1 then (level, .malformed) else e)
  | v => v

/-- The text of a scalar or of the value that stands for a mapping. -/
def mainText : Node → Except Fault (List Char)
  | scalar _ t => .ok t
  | list .. => .error .malformed
  | map _ ps => mainOfPairs ps
where
  /-- The text of the value that stands for the mapping of the pairs. -/
  mainOfPairs : List (Node × Node) → Except Fault (List Char)
    | [] => .error .malformed
    | (scalar .main _, v) :: _ => mainText v
    | _ :: ps => mainOfPairs ps

/-- Whether a kind is one of scalars. -/
def isScalar : Kind → Bool
  | .null | .bool | .int | .float | .text | .moment => true
  | _ => false

/-- Whether a kind is one of lists and mappings. -/
def isCollection : Kind → Bool
  | .list | .map | .set | .pairs => true
  | _ => false

mutual

/-- The value of a settled node on a level. -/
def valueAt (level : Nat) : Node → Outcome Value
  | scalar k t =>
    if isCollection k then .error (level + 1, .malformed)
    else (scalarOf k t).mapError ((level, ·))
  | list k ns =>
    match k with
    | .list => (valuesAt (level + 1) ns).map .list
    | .pairs => (listedPairs (level + 1) ns).map .list
    | k => .error (if isCollection k then level + 1 else level, .malformed)
  | map k ps =>
    match k with
    | .map => (pairsAt (level + 1) ps).map .ofPairs
    | .set => (pairsAt (level + 1) ps).map fun kvs => .list (kvs.map (·.1))
    | k =>
      if isScalar k then (do scalarOf k (← mainText.mainOfPairs ps)).mapError ((level, ·))
      else .error (if isCollection k then level + 1 else level, .malformed)

/-- The values of nodes on a level. -/
def valuesAt (level : Nat) : List Node → Outcome (List Value)
  | [] => .ok []
  | n :: ns => (both (valueAt level n) (valuesAt level ns)).map fun (v, vs) => v :: vs

/-- The keys and values of pairs on a level. -/
def pairsAt (level : Nat) : List (Node × Node) → Outcome (List (Value × Value))
  | [] => .ok []
  | (k, v) :: ps =>
    (both (both (keyOf level (valueAt level k)) (valueAt level v)) (pairsAt level ps)).map fun (kv, kvs) => kv :: kvs

/-- The pairs that are written as a list of mappings with one pair each. -/
def listedPairs (level : Nat) : List Node → Outcome (List Value)
  | [] => .ok []
  | map _ [(k, v)] :: ns =>
    (both (both (valueAt level k) (valueAt level v)) (listedPairs level ns)).map fun ((k, v), vs) =>
      .list [k, v] :: vs
  | _ => .error (level, .malformed)

end

/-- The value of a node. -/
def value (n : Node) : Except Fault Value := (valueAt 0 n.settle).mapError (·.2)

end Node

/-- The value of a text with unified line breaks, null if it holds no document. -/
def read (text : List Char) : Except Fault Value := do
  match ← Node.ofTokens (← Token.scan text) with
  | some n => n.value
  | none => return .null

end BareImports.Yaml
