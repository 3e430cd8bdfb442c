import BareImports.Text.Hex
import BareImports.Log

/-!
# Values as texts and numbers

What a setting means when its value is of another kind than the setting.

* `Value.shown`: the text of a value; inside lists and mappings texts stand in quotes;
* `Value.asText`: the same, where integers are not written beyond a number of digits;
* `Value.asFloat`, `Value.asInt`: the number of a value.
-/

namespace BareImports.Value

open Number Text

/-- Whether a character would not show in print: controls, separators other than the space, marks of direction,
surrogates, characters for private use and those that are no characters. -/
def isHidden (c : Char) : Bool :=
  let n := c.toNat
  n < 32 || (127 ≤ n && n ≤ 0xA0) || n == 0xAD || n == 0x61C || n == 0x1680 || n == 0x180E ||
    (0x600 ≤ n && n ≤ 0x605) || n == 0x6DD || n == 0x70F || (0x2000 ≤ n && n ≤ 0x200F) ||
    (0x2028 ≤ n && n ≤ 0x202F) || (0x205F ≤ n && n ≤ 0x206F) || n == 0x3000 || (0xE000 ≤ n && n ≤ 0xF8FF) ||
    n == 0xFEFF || (0xFFF0 ≤ n && n ≤ 0xFFFB) || n == 0xFFFE || n == 0xFFFF || 0xE0000 ≤ n

/-- The escape of a character that would not show. -/
def hiddenEscape (c : Char) : List Char :=
  let n := c.toNat
  if n < 0x100 then '\\' :: 'x' :: hexPadded 2 n
  else if n < 0x10000 then '\\' :: 'u' :: hexPadded 4 n
  else '\\' :: 'U' :: hexPadded 8 n

/-- A character as it stands between quotes. -/
def quotedChar (quote c : Char) : List Char :=
  if c == quote || c == '\\' then ['\\', c]
  else if c == '\n' then ['\\', 'n']
  else if c == '\x0d' then ['\\', 'r']
  else if c == '\t' then ['\\', 't']
  else if isHidden c then hiddenEscape c
  else [c]

/-- A text in quotes: single ones, or double ones if it holds only single ones. -/
def quoted (s : String) : String :=
  let cs := s.toList
  let quote := if cs.contains '\'' && !cs.contains '"' then '"' else '\''
  String.ofList (quote :: cs.flatMap (quotedChar quote) ++ [quote])

mutual

/-- The text of a value inside another. -/
def inner : Value → String
  | .null => "None"
  | .bool b => if b then "True" else "False"
  | .int n => toString n
  | .float x => floatText x
  | .text s => quoted s
  | .other s => s
  | .list xs => "[" ++ ", ".intercalate (innerAll xs) ++ "]"
  | .map kvs => "\x7b" ++ ", ".intercalate (innerPairs kvs) ++ "\x7d"

/-- The texts of the values of a list. -/
def innerAll : List Value → List String
  | [] => []
  | x :: xs => inner x :: innerAll xs

/-- The texts of the pairs of a mapping. -/
def innerPairs : List (Value × Value) → List String
  | [] => []
  | (k, v) :: kvs => (inner k ++ ": " ++ inner v) :: innerPairs kvs

end

/-- The text of a value. -/
def shown : Value → String
  | .text s => s
  | v => inner v

/-- Whether an integer has more digits than are written. -/
def isLong (n : Int) : Bool := Nat.pow 10 digitLimit ≤ n.natAbs

mutual

/-- Whether a value holds an integer that is not written. -/
def holdsLong : Value → Bool
  | .int n => isLong n
  | .list xs => anyHoldsLong xs
  | .map kvs => anyPairHoldsLong kvs
  | _ => false

/-- Whether one of the values of a list holds such an integer. -/
def anyHoldsLong : List Value → Bool
  | [] => false
  | x :: xs => holdsLong x || anyHoldsLong xs

/-- Whether one of the pairs of a mapping holds such an integer. -/
def anyPairHoldsLong : List (Value × Value) → Bool
  | [] => false
  | (k, v) :: kvs => holdsLong k || holdsLong v || anyPairHoldsLong kvs

end

/-- The text that a value stands for. -/
def asText (v : Value) : Except Log.Fault String := if v.holdsLong then .error .badValue else .ok v.shown

/-- An integer as a floating-point number, if it is not too great. -/
def floatOfInt (n : Int) : Except Log.Fault Float :=
  let x := intToFloat n
  if x == infinity || x == -infinity then .error .tooGreat else .ok x

/-- The floating-point number that a value stands for. -/
def asFloat : Value → Except Log.Fault Float
  | .bool b => .ok (if b then 1.0 else 0.0)
  | .int n => floatOfInt n
  | .float x => .ok x
  | .text s => match readFloat? s with
    | some x => .ok x
    | none => .error .badValue
  | _ => .error .badType

/-- The integer that a value stands for; a fraction is cut off. -/
def asInt : Value → Except Log.Fault Int
  | .bool b => .ok (if b then 1 else 0)
  | .int n => .ok n
  | .float x => match truncate? x with
    | some n => .ok n
    | none => .error (if x.isNaN then .badValue else .tooGreat)
  | .text s => match readInt? s with
    | some n => .ok n
    | none => .error .badValue
  | _ => .error .badType

end BareImports.Value
