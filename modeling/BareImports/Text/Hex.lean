/-!
# Hexadecimal digits

* `hexValue?`: the value of a digit in either case;
* `hexDigit`, `upperHexDigit`: the digit of a value;
* `ofHex?`: the number that a run of digits writes;
* `hexBytes?`, `toHex`: byte sequences written with two digits a byte.
-/

namespace BareImports.Text

/-- The value of a hexadecimal digit. -/
def hexValue? (c : Char) : Option Nat :=
  if '0' ≤ c ∧ c ≤ '9' then some (c.toNat - 48)
  else if 'a' ≤ c ∧ c ≤ 'f' then some (c.toNat - 87)
  else if 'A' ≤ c ∧ c ≤ 'F' then some (c.toNat - 55)
  else none

/-- Hexadecimal digits. -/
def isHexDigit (c : Char) : Bool := (hexValue? c).isSome

/-- The digit of a value below sixteen, letters in lower case. -/
def hexDigit (n : Nat) : Char := Char.ofNat (if n < 10 then 48 + n else 87 + n)

/-- The digit of a value below sixteen, letters in upper case. -/
def upperHexDigit (n : Nat) : Char := Char.ofNat (if n < 10 then 48 + n else 55 + n)

/-- The number that hexadecimal digits write, most significant first. -/
def ofHex? (s : List Char) : Option Nat :=
  s.foldl (fun acc c => do return (← acc) * 16 + (← hexValue? c)) (some 0)

/-- A number with `width` hexadecimal digits. -/
def hexPadded : Nat → Nat → List Char
  | 0, _ => []
  | width + 1, n => hexPadded width (n / 16) ++ [hexDigit (n % 16)]

/-- The bytes that pairs of digits write. -/
def hexBytes? : List Char → Option (List UInt8)
  | [] => some []
  | a :: b :: s => do
    let hi ← hexValue? a
    let lo ← hexValue? b
    return (hi * 16 + lo).toUInt8 :: (← hexBytes? s)
  | [_] => none

/-- Two lower-case digits for each byte. -/
def toHex (bytes : List UInt8) : List Char := bytes.flatMap fun b => hexPadded 2 b.toNat

end BareImports.Text
