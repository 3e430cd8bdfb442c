/-!
# The shortest decimal that reads back

A positive binary number is `m · 2^q`. The reals that round to it form an interval around it, whose ends belong
to it when `m` is even.

* `Binary`: such a number, and `Binary.ofBits` its reading from 64 bits;
* `Binary.grid`: the neighbours of the number among the decimals with a given number of digits;
* `Binary.shortest`: the decimal with the fewest digits in the interval, the nearest one of those.
-/

namespace BareImports.Number

/-- The positive number `mantissa · 2^exponent`; `narrow` if the gap below it is half the gap above. -/
structure Binary where
  /-- The integral factor. -/
  mantissa : Nat
  /-- The power of two. -/
  exponent : Int
  /-- Whether the next smaller number is half as far away as the next greater one. -/
  narrow : Bool

/-- The decimal `digits · 10^exponent`. -/
structure Decimal where
  /-- The integral factor. -/
  digits : Nat
  /-- The power of ten. -/
  exponent : Int
  deriving BEq, DecidableEq, Repr

/-- The number of fractions of one exponent, two to the power 52. -/
def fractionRange : Nat := 0x10000000000000

/-- The value of the bit for the sign, two to the power 63. -/
def signBit : Nat := 0x8000000000000000

/-- The magnitude that the low 63 bits of a 64-bit number write, if it is finite and not zero. -/
def Binary.ofBits (bits : Nat) : Option Binary :=
  let e : Nat := bits / fractionRange % 2048
  let f : Nat := bits % fractionRange
  if e == 2047 || (e == 0 && f == 0) then none
  else if e == 0 then some ⟨f, -1074, false⟩
  else some ⟨fractionRange + f, (e : Int) - 1075, f == 0 && 1 < e⟩

/-- Numerator and denominator of a power. -/
def powerParts (base : Nat) (e : Int) : Nat × Nat := (Nat.pow base e.toNat, Nat.pow base (-e).toNat)

/-- The number in quarters of its last place, and the ends of its interval in the same unit. -/
def Binary.quarters (b : Binary) : Nat × Nat × Nat :=
  (4 * b.mantissa, 4 * b.mantissa - (if b.narrow then 1 else 2), 4 * b.mantissa + 2)

/-- Factors by which quarters of the last place and multiples of `10^j` become comparable integers. -/
def Binary.scales (b : Binary) (j : Int) : Nat × Nat :=
  let (p, q) := powerParts 2 (b.exponent - 2)
  let (r, s) := powerParts 10 j
  (p * s, r * q)

/-- How many digits stand before the point, negative if zeros follow the point. -/
def Binary.magnitude (b : Binary) : Int :=
  let est := ((Nat.log2 b.mantissa : Int) + b.exponent) * 1233 / 4096 - 1
  let fits := fun (k : Int) =>
    let (x, y) := b.scales k
    4 * b.mantissa * x < y
  (([0, 1, 2, 3, 4].map fun (i : Nat) => est + i).find? fits).getD (est + 5)

/-- The decimals with `n` digits next to the number, below and above, as far as they round to it. -/
def Binary.grid (b : Binary) (n : Nat) : Option Nat × Option Nat × Bool :=
  let (v, lo, hi) := b.quarters
  let (x, y) := b.scales (b.magnitude - n)
  let c := v * x / y
  let even := b.mantissa % 2 == 0
  let lowOk := if even then lo * x ≤ c * y else lo * x < c * y
  let highOk := if even then (c + 1) * y ≤ hi * x else (c + 1) * y < hi * x
  let rest := v * x % y
  let upper := y < 2 * rest || (y == 2 * rest && c % 2 == 1)
  (if lowOk then some c else none, if highOk then some (c + 1) else none, upper)

/-- The nearest decimal with `n` digits that rounds to the number. -/
def Binary.withDigits (b : Binary) (n : Nat) : Option Nat :=
  match b.grid n with
  | (none, none, _) => none
  | (some c, none, _) => some c
  | (none, some d, _) => some d
  | (some c, some d, upper) => some (if upper then d else c)

/-- A decimal without zeros at its end. -/
def Decimal.trimmed : Nat → Decimal → Decimal
  | 0, d => d
  | fuel + 1, d => if d.digits ≠ 0 ∧ d.digits % 10 = 0 then trimmed fuel ⟨d.digits / 10, d.exponent + 1⟩ else d

/-- The decimal with the fewest digits that rounds to the number; seventeen always suffice. -/
def Binary.shortest (b : Binary) : Decimal :=
  let found := (List.range 17).findSome? fun i => (b.withDigits (i + 1)).map fun c => (c, i + 1)
  let (c, n) := found.getD (0, 0)
  Decimal.trimmed 20 ⟨c, b.magnitude - n⟩

end BareImports.Number
