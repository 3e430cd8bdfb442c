import BareImports.Text.Cut
import BareImports.Text.Hex
import BareImports.Yaml.Moment

/-!
# What a scalar is read as

* `Kind`: the kinds of nodes; `Kind.ofName`: the kind that a tag names;
* `Kind.ofPlain`: the kind that the form of a plain scalar shows.
-/

namespace BareImports.Yaml

open Text

/-- What a node is read as. -/
inductive Kind
  /-- No value. -/
  | null
  /-- A truth value. -/
  | bool
  /-- An integer. -/
  | int
  /-- A floating-point number. -/
  | float
  /-- A text. -/
  | text
  /-- A date or a time. -/
  | moment
  /-- Bytes in base 64. -/
  | bytes
  /-- A list. -/
  | list
  /-- A mapping. -/
  | map
  /-- A list of pairs. -/
  | pairs
  /-- A set. -/
  | set
  /-- The key of mappings to take over. -/
  | merge
  /-- The key of the value that stands for its mapping. -/
  | main
  /-- A tag without meaning here. -/
  | unknown
  deriving BEq, DecidableEq, Repr

namespace Kind

/-- The beginning of the names of the standard's own tags. -/
def standard : List Char := "tag:yaml.org,2002:".toList

/-- The standard's own tags. -/
def names : List (String × Kind) :=
  [("null", null), ("bool", bool), ("int", int), ("float", float), ("str", text), ("timestamp", moment),
    ("binary", bytes), ("seq", list), ("map", map), ("omap", pairs), ("pairs", pairs), ("set", set), ("merge", merge),
    ("value", main)]

/-- The kind that a tag names. -/
def ofName (name : List Char) : Kind :=
  match standard.isPrefixOf? name with
  | some r => (names.lookup (String.ofList r)).getD unknown
  | none => unknown

/-- Words in lower case, capitalised and in upper case. -/
def spellings (words : List String) : List String :=
  words.flatMap fun w => [w, String.ofList (match w.toList with
    | [] => []
    | c :: cs => c.toUpper :: cs), String.ofList (w.toList.map Char.toUpper)]

/-- The words for true. -/
def trueWords : List String := ["yes", "true", "on"]

/-- The words for false. -/
def falseWords : List String := ["no", "false", "off"]

/-- A text without a sign. -/
def unsigned : List Char → List Char
  | '+' :: s => s
  | '-' :: s => s
  | s => s

/-- Whether every character passes a test or is an underscore. -/
def allOr (p : Char → Bool) (s : List Char) : Bool := s.all fun c => p c || c == '_'

/-- Whether a text begins with a digit, and digits and underscores follow. -/
def isNumeral (s : List Char) : Bool := s.head?.any Char.isDigit && allOr Char.isDigit s

/-- Whether a text is a group of base 60: a number below sixty of one or two digits. -/
def isSixtieth (s : List Char) : Bool :=
  match s with
  | [a] => a.isDigit
  | [a, b] => '0' ≤ a && a ≤ '5' && b.isDigit
  | _ => false

/-- Whether a text has groups of base 60 behind a first numeral. -/
def isSexagesimal (s : List Char) : Bool :=
  match s.splitOn ':' with
  | first :: g :: gs => isNumeral first && (g :: gs).all isSixtieth
  | _ => false

/-- Whether a text is an integer. -/
def isInt (s : List Char) : Bool :=
  match unsigned s with
  | ['0'] => true
  | '0' :: 'b' :: d :: ds => allOr (fun c => c == '0' || c == '1') (d :: ds)
  | '0' :: 'x' :: d :: ds => allOr isHexDigit (d :: ds)
  | '0' :: d :: ds => allOr (fun c => '0' ≤ c && c ≤ '7') (d :: ds)
  | ds => isNumeral ds || isSexagesimal ds && !ds.head?.any (· == '0')

/-- Whether a text is nothing or an exponent with a sign. -/
def isPower (s : List Char) : Bool :=
  match s with
  | [] => true
  | e :: sign :: d :: ds => (e == 'e' || e == 'E') && (sign == '+' || sign == '-') && (d :: ds).all Char.isDigit
  | _ => false

/-- Whether a text is a fraction and an exponent. -/
def isFraction (s : List Char) : Bool := isPower (s.dropWhile fun c => c.isDigit || c == '_')

/-- Whether a text is a floating-point number: its point decides. -/
def isFloat (s : List Char) : Bool :=
  match cut? '.' s with
  | none => false
  | some (whole, frac) =>
    let isSign := whole == ['+'] || whole == ['-']
    let word := String.ofList frac
    (isNumeral (unsigned whole) && isFraction frac) ||
      (isSexagesimal (unsigned whole) && allOr Char.isDigit frac) ||
      (whole.isEmpty && frac.head?.any Char.isDigit && isFraction frac) ||
      ((whole.isEmpty || isSign) && ["inf", "Inf", "INF"].contains word) ||
      (whole.isEmpty && ["nan", "NaN", "NAN"].contains word)

/-- The kind that the form of a scalar shows. -/
def ofForm (s : List Char) : Kind :=
  let word := String.ofList s
  if (spellings (trueWords ++ falseWords)).contains word then bool
  else if isFloat s then float
  else if isInt s then int
  else if word == "<<" then merge
  else if word == "~" || (spellings ["null"]).contains word || s.isEmpty then null
  else if (Moment.parse? s).any Moment.isPlain then moment
  else if word == "=" then main
  else if word == "!" || word == "&" || word == "*" then unknown
  else text

/-- The kind that the form of a plain scalar shows; a line break at its end does not count. -/
def ofPlain (s : List Char) : Kind :=
  match s.reverse with
  | '\n' :: c :: r => ofForm (c :: r).reverse
  | ['\n'] => text
  | _ => ofForm s

end Kind

end BareImports.Yaml
