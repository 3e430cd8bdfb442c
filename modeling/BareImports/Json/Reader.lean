import BareImports.Text.Hex
import BareImports.Value

/-!
# Reading JSON

The dialect has three words more than the standard: `NaN`, `Infinity` and `-Infinity`. Of equal keys the last value
counts, in the first one's place.

* `Json.Fault`: why a text is refused;
* `Json.read`: the value of a whole text.
-/

namespace BareImports.Json

open Text

/-- Why a text is refused. -/
inductive Fault
  /-- It is no JSON text. -/
  | malformed
  /-- An integer has more digits than are allowed. -/
  | tooManyDigits
  deriving BEq, DecidableEq, Repr

/-- JSON's own white space. -/
def isSpace (c : Char) : Bool := c == ' ' || c == '\t' || c == '\n' || c == '\x0d'

/-- A text without white space in front. -/
def skip (s : List Char) : List Char := s.dropWhile isSpace

/-- The four digits of an escape as a code unit, and what follows. -/
def unit? : List Char → Option (Nat × List Char)
  | a :: b :: c :: d :: s => (ofHex? [a, b, c, d]).map (·, s)
  | _ => none

/-- The character of a code unit; half of a pair alone becomes a replacement character. -/
def unitChar (n : Nat) : Char := if 0xD800 ≤ n ∧ n < 0xE000 then '\ufffd' else Char.ofNat n

/-- The character of two code units, if they are a pair. -/
def pairChar? (hi lo : Nat) : Option Char :=
  if 0xD800 ≤ hi ∧ hi < 0xDC00 ∧ 0xDC00 ≤ lo ∧ lo < 0xE000 then
    some (Char.ofNat (0x10000 + (hi - 0xD800) * 1024 + (lo - 0xDC00)))
  else none

/-- The character that a letter behind a backslash stands for. -/
def simpleEscape? : Char → Option Char
  | '"' => some '"'
  | '\\' => some '\\'
  | '/' => some '/'
  | 'b' => some '\x08'
  | 'f' => some '\x0c'
  | 'n' => some '\n'
  | 'r' => some '\x0d'
  | 't' => some '\t'
  | _ => none

/-- The escape behind a backslash: its character and what follows. -/
def escape? (s : List Char) : Option (Char × List Char) :=
  match s with
  | 'u' :: r => do
    let (hi, r) ← unit? r
    match r with
    | '\\' :: 'u' :: r' => match unit? r' with
      | some (lo, r'') => match pairChar? hi lo with
        | some c => return (c, r'')
        | none => return (unitChar hi, r)
      | none => return (unitChar hi, r)
    | _ => return (unitChar hi, r)
  | c :: r => (simpleEscape? c).map (·, r)
  | [] => none

/-- The characters of a string up to its closing quote, and what follows. `done` is in reverse. -/
def readString : Nat → List Char → List Char → Option (List Char × List Char)
  | 0, _, _ => none
  | fuel + 1, done, s => match s with
    | [] => none
    | '"' :: r => some (done.reverse, r)
    | '\\' :: r => do
      let (c, r) ← escape? r
      readString fuel (c :: done) r
    | c :: r => if c.toNat < 32 then none else readString fuel (c :: done) r

/-- The digits behind a point, if at least one follows it. -/
def cutFraction (s : List Char) : List Char × List Char :=
  match s with
  | '.' :: r => match r.span Char.isDigit with
    | ([], _) => ([], s)
    | (ds, rest) => (ds, rest)
  | _ => ([], s)

/-- The digits of an exponent with their sign, if at least one is there. -/
def cutPower (s : List Char) : Option Int × List Char :=
  match s with
  | c :: r =>
    if c == 'e' || c == 'E' then
      let (neg, r) := Number.cutSign r
      match r.span Char.isDigit with
      | ([], _) => (none, s)
      | (ds, rest) =>
        let n : Int := Number.ofDigits (ds.map fun d => d.toNat - 48)
        (some (if neg then -n else n), rest)
    else (none, s)
  | [] => (none, s)

/-- The value of the digits of one number. -/
def digitValues (s : List Char) : List Nat := s.map fun d => d.toNat - 48

/-- A number: an integer without a needless zero in front, an optional fraction, an optional exponent. -/
def readNumber (s : List Char) : Except Fault (Value × List Char) :=
  let (neg, r) := match s with
    | '-' :: r => (true, r)
    | _ => (false, s)
  let (whole, r) := match r with
    | '0' :: r' => (['0'], r')
    | _ => r.span Char.isDigit
  if whole.isEmpty then .error .malformed
  else
    let (frac, r) := cutFraction r
    let (power, r) := cutPower r
    if frac.isEmpty && power.isNone then
      if Number.digitLimit < whole.length then .error .tooManyDigits
      else
        let n : Int := Number.ofDigits (digitValues whole)
        .ok (.int (if neg then -n else n), r)
    else
      let x := Number.decimalToFloat (Number.ofDigits (digitValues (whole ++ frac))) (power.getD 0 - frac.length)
      .ok (.float (if neg then -x else x), r)

/-- The words of the dialect and their values. -/
def words : List (String × Value) :=
  [("null", .null), ("true", .bool true), ("false", .bool false), ("NaN", .float Number.notANumber),
    ("Infinity", .float Number.infinity), ("-Infinity", .float (-Number.infinity))]

/-- A word, if the text begins with one. -/
def readWord? (s : List Char) : Option (Value × List Char) :=
  words.findSome? fun (w, v) => (after? w s).map (v, ·)

mutual

/-- A value, white space in front skipped. -/
def readValue : Nat → List Char → Except Fault (Value × List Char)
  | 0, _ => .error .malformed
  | fuel + 1, s => match skip s with
    | '"' :: r => match readString (r.length + 1) [] r with
      | some (t, r) => .ok (.text (String.ofList t), r)
      | none => .error .malformed
    | '\x5b' :: r => match skip r with
      | '\x5d' :: r => .ok (.list [], r)
      | _ => do
        let (xs, r) ← readItems fuel r
        return (.list xs, r)
    | '\x7b' :: r => match skip r with
      | '\x7d' :: r => .ok (.map [], r)
      | _ => do
        let (kvs, r) ← readMembers fuel r
        return (.ofPairs kvs, r)
    | s => match readWord? s with
      | some vr => .ok vr
      | none => readNumber s

/-- The values of a list and its closing bracket. -/
def readItems : Nat → List Char → Except Fault (List Value × List Char)
  | 0, _ => .error .malformed
  | fuel + 1, s => do
    let (v, r) ← readValue fuel s
    match skip r with
    | ',' :: r =>
      let (vs, r) ← readItems fuel r
      return (v :: vs, r)
    | '\x5d' :: r => return ([v], r)
    | _ => throw .malformed

/-- The members of an object and its closing brace. -/
def readMembers : Nat → List Char → Except Fault (List (Value × Value) × List Char)
  | 0, _ => .error .malformed
  | fuel + 1, s => match skip s with
    | '"' :: r => match readString (r.length + 1) [] r with
      | none => .error .malformed
      | some (k, r) => match skip r with
        | ':' :: r => do
          let (v, r) ← readValue fuel r
          match skip r with
          | ',' :: r =>
            let (kvs, r) ← readMembers fuel r
            return ((.text (String.ofList k), v) :: kvs, r)
          | '\x7d' :: r => return ([(.text (String.ofList k), v)], r)
          | _ => throw .malformed
        | _ => .error .malformed
    | _ => .error .malformed

end

/-- The value of a text that holds one value and white space around it. -/
def read (text : String) : Except Fault Value := do
  let s := text.toList
  let (v, r) ← readValue (s.length + 1) s
  if (skip r).isEmpty then return v else throw .malformed

end BareImports.Json
