import BareImports.Text.Cut
import BareImports.Text.Hex
import BareImports.Text.Utf8

/-!
# Query strings

* `percentDecode`: the text that escapes, `+` and UTF-8 write;
* `percentEncode`: the escaped form, a blank as `+`;
* `parsePairs`, `renderPairs`: names and values between `&` and `=`.
-/

namespace BareImports.Url

open Text

/-- The bytes of an ASCII text whose escapes stand for bytes; an incomplete escape stands for itself. -/
def escapedBytes : List Char → List UInt8
  | [] => []
  | '%' :: a :: b :: s => match hexValue? a, hexValue? b with
    | some hi, some lo => (hi * 16 + lo).toUInt8 :: escapedBytes s
    | _, _ => 0x25 :: escapedBytes (a :: b :: s)
  | c :: s => c.toNat.toUInt8 :: escapedBytes s

/-- Whether a character is ASCII. -/
def isAscii (c : Char) : Bool := c.toNat < 128

/-- A text with its escapes read, each run of ASCII characters for itself. -/
def unescape (s : List Char) : List Char :=
  (s.splitBy fun a b => isAscii a == isAscii b).flatMap fun run =>
    if run.all isAscii then Utf8.decodeLossy (escapedBytes run) else run

/-- A text with `+` read as a blank and its escapes read. -/
def percentDecode (s : List Char) : List Char := unescape (s.map fun c => if c == '+' then ' ' else c)

/-- Bytes that stand for themselves. -/
def isPlainByte (b : UInt8) : Bool :=
  let c := Char.ofNat b.toNat
  b < 0x80 && (c.isAlphanum || c == '_' || c == '.' || c == '-' || c == '~')

/-- The written form of a byte. -/
def encodeByte (b : UInt8) : List Char :=
  if isPlainByte b then [Char.ofNat b.toNat]
  else if b == 0x20 then ['+']
  else ['%', upperHexDigit (b.toNat / 16), upperHexDigit (b.toNat % 16)]

/-- The written form of a text. -/
def percentEncode (s : List Char) : List Char := (Utf8.encode s).flatMap encodeByte

/-- The names and values of a query; one without `=` has an empty value, an empty one is left out. -/
def parsePairs (query : List Char) : List (List Char × List Char) :=
  (query.splitOn '&').filterMap fun field =>
    if field.isEmpty then none
    else
      let (name, value) := (cut? '=' field).getD (field, [])
      some (percentDecode name, percentDecode value)

/-- A query from names and values. -/
def renderPairs (pairs : List (List Char × List Char)) : List Char :=
  ['&'].intercalate (pairs.map fun (name, value) => percentEncode name ++ '=' :: percentEncode value)

end BareImports.Url
