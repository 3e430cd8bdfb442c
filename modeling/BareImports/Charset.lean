import BareImports.Text.Utf8

/-!
# Character sets of bodies

* `Charset.ofName?`: the character set of a name;
* `Charset.decode`: the text of a body; an unknown name counts as UTF-8.
-/

namespace BareImports

open Text

/-- The character sets that a body may be in. -/
inductive Charset
  /-- UTF-8. -/
  | utf8
  /-- One byte a character, the first 256 of them. -/
  | latin1
  /-- One byte a character, the first 128 of them. -/
  | ascii
  deriving BEq, DecidableEq, Repr

namespace Charset

/-- The names of each character set, in lower case with `_` between the words. -/
def names : List (String × Charset) :=
  [("utf_8", utf8), ("utf8", utf8), ("u8", utf8), ("utf", utf8), ("utf8_ucs2", utf8), ("utf8_ucs4", utf8),
    ("cp65001", utf8), ("latin_1", latin1), ("latin1", latin1), ("latin", latin1), ("l1", latin1),
    ("8859", latin1), ("cp819", latin1), ("csisolatin1", latin1), ("ibm819", latin1), ("iso8859", latin1),
    ("iso8859_1", latin1), ("iso_8859_1", latin1), ("iso_8859_1_1987", latin1), ("iso_ir_100", latin1),
    ("ascii", ascii), ("us_ascii", ascii), ("us", ascii), ("646", ascii), ("ansi_x3.4_1968", ascii),
    ("ansi_x3_4_1968", ascii), ("ansi_x3.4_1986", ascii), ("cp367", ascii), ("csascii", ascii), ("ibm367", ascii),
    ("iso646_us", ascii), ("iso_646.irv_1991", ascii), ("iso_ir_6", ascii)]

/-- A name in lower case, each run of other characters than letters, digits and dots as one `_`. -/
def normalizeName : Bool → List Char → List Char
  | _, [] => []
  | gap, c :: s =>
    if c.isAlphanum || c == '.' then (if gap then ['_'] else []) ++ c.toLower :: normalizeName false s
    else normalizeName true s

/-- A name without a run of other characters in front, and normalized. -/
def normalName (name : String) : String :=
  let s := name.toList
  String.ofList (normalizeName false (s.dropWhile fun c => !(c.isAlphanum || c == '.')))

/-- The character set of a name. -/
def ofName? (name : String) : Option Charset := names.lookup (normalName name)

/-- The text of bytes in a character set, what is invalid replaced by U+FFFD. -/
def text : Charset → List UInt8 → List Char
  | utf8, bytes => Utf8.decodeLossy bytes
  | latin1, bytes => bytes.map fun b => Char.ofNat b.toNat
  | ascii, bytes => bytes.map fun b => if b < 0x80 then Char.ofNat b.toNat else '\ufffd'

/-- The text of a body; no name, an empty one or an unknown one stands for UTF-8. -/
def decode (bytes : List UInt8) (name : Option String) : String :=
  String.ofList ((((name.bind ofName?).getD utf8)).text bytes)

end Charset

end BareImports
