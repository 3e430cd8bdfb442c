import BareImports.Number.Shortest
import BareImports.Text.Blank
import BareImports.Text.DecimalDigit

/-!
# Numbers as text

* `floatText`: the shortest decimal of a number, positional from 10^-4 to below 10^16, always with a point or an
  exponent;
* `decimalToFloat`: the number nearest to a decimal;
* `readInt?`, `readFloat?`: numbers as settings write them.
-/

namespace BareImports.Number

open Text

/-- Which decimals are written in positional form, and the texts of what is no decimal. -/
structure FloatFormat where
  /-- The least number of digits before the point in positional form. -/
  least : Int
  /-- The greatest number of digits before the point in positional form. -/
  greatest : Int
  /-- The text of infinity. -/
  infinity : String
  /-- The text of the value that is no number. -/
  notANumber : String

/-- Positional form reaches from four places behind the point to sixteen before it. -/
def FloatFormat.standard : FloatFormat := ⟨-3, 16, "inf", "nan"⟩

/-- The digits of a natural number. -/
def natDigits (n : Nat) : List Char := Nat.toDigits 10 n

/-- A positive decimal as text. -/
def Decimal.text (f : FloatFormat) (d : Decimal) : List Char :=
  let ds := natDigits d.digits
  let point : Int := ds.length + d.exponent
  if f.least ≤ point && point ≤ f.greatest then
    if point ≤ 0 then '0' :: '.' :: List.replicate (-point).toNat '0' ++ ds
    else
      let n := point.toNat
      let whole := ds.take n ++ List.replicate (n - ds.length) '0'
      let frac := ds.drop n
      whole ++ '.' :: (if frac.isEmpty then ['0'] else frac)
  else
    let e := point - 1
    let eDigits := natDigits e.natAbs
    let mantissa := match ds with
      | [c] => [c]
      | c :: cs => c :: '.' :: cs
      | [] => []
    mantissa ++ 'e' :: (if e < 0 then '-' else '+') :: (if eDigits.length < 2 then '0' :: eDigits else eDigits)

/-- The shortest text that reads back as the number. -/
def floatText (x : Float) : String :=
  let f := FloatFormat.standard
  let bits := x.toBits.toNat
  let sign := if bits < signBit then [] else ['-']
  if bits / fractionRange % 2048 == 2047 then
    if bits % fractionRange == 0 then String.ofList (sign ++ f.infinity.toList) else f.notANumber
  else match Binary.ofBits (bits % signBit) with
    | none => String.ofList (sign ++ "0.0".toList)
    | some b => String.ofList (sign ++ b.shortest.text f)

/-- Positive infinity. -/
def infinity : Float := Float.ofBits 0x7FF0000000000000

/-- The value that is no number. -/
def notANumber : Float := Float.ofBits 0x7FF8000000000000

/-- The number nearest to `digits · 10^exponent`. -/
def decimalToFloat (digits : Nat) (exponent : Int) : Float :=
  if digits == 0 then 0.0
  else
    let size : Int := (natDigits digits).length + exponent
    if 310 < size then infinity
    else if size < -400 then 0.0
    else Float.ofScientific digits (exponent < 0) exponent.natAbs

/-- The number nearest to an integer. -/
def intToFloat (n : Int) : Float :=
  let m := decimalToFloat n.natAbs 0
  if n < 0 then -m else m

/-- Digits of any script as their values, an underscore allowed between two of them. -/
def readDigits? (s : List Char) : Option (List Nat) :=
  if s.isEmpty then some []
  else ((s.splitOn '_').mapM fun (g : List Char) => if g.isEmpty then none else g.mapM digitValue?).map List.flatten

/-- The number that decimal digits write, the most significant first. -/
def ofDigits (ds : List Nat) : Nat := ds.foldl (fun n d => n * 10 + d) 0

/-- A sign, if there is one, and the rest. -/
def cutSign : List Char → Bool × List Char
  | '-' :: s => (true, s)
  | '+' :: s => (false, s)
  | s => (false, s)

/-- The longest run of digits that an integer may have. -/
def digitLimit : Nat := 4300

/-- An integer: white space around, a sign, digits. -/
def readInt? (text : String) : Option Int := do
  let (neg, s) := cutSign (strip text.toList)
  let ds ← readDigits? s
  if ds.isEmpty || digitLimit < ds.length then none
  else return if neg then -(ofDigits ds : Int) else ofDigits ds

/-- A word in lower case, ASCII letters only. -/
def lowerAscii (s : List Char) : String := String.ofList (s.map Char.toLower)

/-- The exponent behind `e`, if the text has one, and the text before it. -/
def cutExponent? (s : List Char) : Option (List Char × Int) :=
  match cutWhere? (fun c => c == 'e' || c == 'E') s with
  | none => some (s, 0)
  | some (l, r) => do
    let (neg, r) := cutSign r
    let ds ← readDigits? r
    if ds.isEmpty then none else return (l, if neg then -(ofDigits ds : Int) else ofDigits ds)

/-- A decimal without sign: digits, an optional point, an optional exponent. -/
def readDecimal? (s : List Char) : Option Float := do
  let (s, e) ← cutExponent? s
  let (whole, frac) := (cut? '.' s).getD (s, [])
  let ws ← readDigits? whole
  let fs ← readDigits? frac
  if ws.isEmpty && fs.isEmpty then none
  else return decimalToFloat (ofDigits (ws ++ fs)) (e - fs.length)

/-- A number: white space around, a sign, a decimal or a word for infinity or for no number. -/
def readFloat? (text : String) : Option Float := do
  let (neg, s) := cutSign (strip text.toList)
  let x ← match lowerAscii s with
    | "inf" | "infinity" => some infinity
    | "nan" => some notANumber
    | _ => readDecimal? s
  return if neg then -x else x

/-- The integer part of a finite number. -/
def truncate? (x : Float) : Option Int :=
  let bits := x.toBits.toNat
  if bits / fractionRange % 2048 == 2047 then none
  else match Binary.ofBits (bits % signBit) with
    | none => some 0
    | some b =>
      let (p, q) := powerParts 2 b.exponent
      let n : Int := b.mantissa * p / q
      some (if bits < signBit then n else -n)

end BareImports.Number
