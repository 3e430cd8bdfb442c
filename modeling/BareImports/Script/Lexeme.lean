import BareImports.Script.Matcher
import BareImports.Text.Hex

/-!
# Lexemes of scripts

Each class of lexemes is a matcher with states of its own.

* `isSpace`, `isLineMark`, `isNamePart`: the character classes;
* `Name`, `Number`, `Comment`, `Escape`, `PatternBody`, `MarkupWord`, `Entity`, `MarkupValue`, `StaticGet`: the states;
* `nameMatcher` and so on: the matchers.
-/

namespace BareImports.Script

open Text

/-! ## Character classes -/

/-- White space between lexemes, line breaks included. -/
def isSpace (c : Char) : Bool :=
  let n := c.toNat
  (9 ≤ n && n ≤ 13) || n == 32 || n == 0xA0 || n == 0x1680 || (0x2000 ≤ n && n ≤ 0x200B) || n == 0x2028 ||
    n == 0x2029 || n == 0x202F || n == 0x205F || n == 0x2060 || n == 0x3000 || n == 0xFEFF

/-- The characters that separate lines and paragraphs. -/
def isLineMark (c : Char) : Bool := c.toNat == 0x2028 || c.toNat == 0x2029

/-- Characters of a name behind the first one. -/
def isNamePart (c : Char) : Bool :=
  let n := c.toNat
  if n < 128 then c.isAlphanum || c == '_' || c == '$' || n == 127 else !isSpace c

/-! ## Escapes of code points -/

/-- Where an escape of a code point is read, behind its backslash. -/
inductive CodePoint
  /-- Before `u`. -/
  | letter
  /-- Behind `u`. -/
  | mark
  /-- Before a number of digits. -/
  | digits (n : Nat)
  /-- Behind an opening brace. -/
  | braced
  /-- Behind digits in braces. -/
  | bracedDigits

/-- Reads one character of an escape of a code point: further, or behind it. -/
def CodePoint.step? (s : CodePoint) (c : Char) : Option (Option CodePoint) :=
  match s with
  | letter => if c == 'u' then some (some mark) else none
  | mark =>
    if c == '\x7b' then some (some braced)
    else if isHexDigit c then some (some (digits 3))
    else none
  | digits n => if isHexDigit c then some (if n ≤ 1 then none else some (digits (n - 1))) else none
  | braced => if isHexDigit c then some (some bracedDigits) else none
  | bracedDigits =>
    if isHexDigit c then some (some bracedDigits)
    else if c == '\x7d' then some none
    else none

/-! ## Names -/

/-- Where a name is read. -/
inductive Name
  /-- Before its first character. -/
  | start
  /-- Behind a character. -/
  | inside
  /-- Inside an escape. -/
  | escape (s : CodePoint)

/-- Names, with escapes of code points. -/
def nameMatcher : Matcher Name where
  start := .start
  step
    | .escape s, c => (s.step? c).map fun | some s => .escape s | none => .inside
    | .start, c =>
      if c == '\\' then some (.escape .letter)
      else if isNamePart c && !c.isDigit then some .inside
      else none
    | .inside, c =>
      if c == '\\' then some (.escape .letter)
      else if isNamePart c then some .inside
      else none
  accepts
    | .inside => true
    | _ => false

/-- Names behind `#`. -/
def privateMatcher : Matcher (Option Name) where
  start := none
  step
    | none, c => if c == '#' then some (some .start) else none
    | some s, c => (nameMatcher.step s c).map some
  accepts
    | some s => nameMatcher.accepts s
    | none => false

/-! ## Numbers -/

/-- Where a number is read. -/
inductive Number
  /-- Before its first character. -/
  | start
  /-- Behind a zero. -/
  | zero
  /-- Behind digits that may go on with a fraction. -/
  | whole
  /-- Behind an underscore between such digits. -/
  | wholeGap
  /-- Behind digits that may not. -/
  | digits
  /-- Behind an underscore between such digits. -/
  | digitsGap
  /-- Behind the point in front of a fraction. -/
  | leadingPoint
  /-- Behind a point and digits before it. -/
  | point
  /-- Behind digits of a fraction. -/
  | fraction
  /-- Behind an underscore in a fraction. -/
  | fractionGap
  /-- Behind the mark of an exponent. -/
  | exponentMark
  /-- Behind the sign of an exponent. -/
  | exponentSign
  /-- Behind digits of an exponent. -/
  | exponent
  /-- Behind an underscore in an exponent. -/
  | exponentGap
  /-- Before a digit of another base, or behind an underscore between such digits. -/
  | radixGap (isDigit : Char → Bool)
  /-- Behind digits of another base. -/
  | radix (isDigit : Char → Bool)
  /-- Behind the mark of a big number. -/
  | big

/-- Binary digits. -/
def isBinaryDigit (c : Char) : Bool := c == '0' || c == '1'

/-- Octal digits. -/
def isOctalDigit (c : Char) : Bool := '0' ≤ c && c ≤ '7'

/-- The mark of an exponent. -/
def isExponentMark (c : Char) : Bool := c == 'e' || c == 'E'

/-- Reads one character of a number. -/
def Number.step? (s : Number) (c : Char) : Option Number :=
  match s with
  | start =>
    if c == '0' then some zero else if c.isDigit then some whole else if c == '.' then some leadingPoint else none
  | zero =>
    if c == 'x' || c == 'X' then some (radixGap isHexDigit)
    else if c == 'o' || c == 'O' then some (radixGap isOctalDigit)
    else if c == 'b' || c == 'B' then some (radixGap isBinaryDigit)
    else if c == '0' then some digits
    else if c.isDigit then some whole
    else if c == '_' then some digitsGap
    else afterWhole c
  | whole => if c.isDigit then some whole else if c == '_' then some wholeGap else afterWhole c
  | wholeGap => if c.isDigit then some whole else none
  | digits =>
    if c.isDigit then some digits else if c == '_' then some digitsGap else if c == 'n' then some big else none
  | digitsGap => if c.isDigit then some digits else none
  | leadingPoint => if c.isDigit then some fraction else none
  | point => if c.isDigit then some fraction else if isExponentMark c then some exponentMark else none
  | fraction =>
    if c.isDigit then some fraction
    else if c == '_' then some fractionGap
    else if isExponentMark c then some exponentMark
    else none
  | fractionGap => if c.isDigit then some fraction else none
  | exponentMark =>
    if c.isDigit then some exponent else if c == '+' || c == '-' then some exponentSign else none
  | exponentSign => if c.isDigit then some exponent else none
  | exponent => if c.isDigit then some exponent else if c == '_' then some exponentGap else none
  | exponentGap => if c.isDigit then some exponent else none
  | radixGap p => if p c then some (radix p) else none
  | radix p => if p c then some (radix p) else if c == '_' then some (radixGap p) else if c == 'n' then some big else none
  | big => none
where
  /-- Reads one character behind digits that may go on with a fraction. -/
  afterWhole (c : Char) : Option Number :=
    if c == '.' then some point
    else if isExponentMark c then some exponentMark
    else if c == 'n' then some big
    else none

/-- Numbers. -/
def numberMatcher : Matcher Number where
  start := .start
  step := Number.step?
  accepts
    | .zero | .whole | .digits | .point | .fraction | .exponent | .radix _ | .big => true
    | _ => false

/-! ## Comments -/

/-- Where a comment is read. -/
inductive Comment
  /-- Before its first character. -/
  | start
  /-- Behind its first slash. -/
  | slash
  /-- In one that ends with its line. -/
  | line
  /-- In one that ends with a mark. -/
  | block
  /-- Behind a star in such a one. -/
  | star
  /-- Behind the mark. -/
  | closed

/-- Characters that end a comment of one line. -/
def endsLine (c : Char) : Bool := c == '\n' || c == '\x0d' || isLineMark c

/-- Comments. -/
def commentMatcher : Matcher Comment where
  start := .start
  step
    | .start, c => if c == '/' then some .slash else none
    | .slash, c => if c == '/' then some .line else if c == '*' then some .block else none
    | .line, c => if endsLine c then none else some .line
    | .block, c => some (if c == '*' then .star else .block)
    | .star, c => some (if c == '/' then .closed else if c == '*' then .star else .block)
    | .closed, _ => none
  accepts
    | .line | .closed => true
    | _ => false

/-- The line in front of a script that tells what runs it. -/
def interpreterMatcher : Matcher Nat where
  start := 0
  step
    | 0, c => if c == '#' then some 1 else none
    | 1, c => if c == '!' then some 2 else none
    | _, c => if c == '\n' then none else some 2
  accepts := (· == 2)

/-! ## Escapes in strings -/

/-- Where an escape in a string or a template is read. -/
inductive Escape
  /-- Before its backslash. -/
  | start
  /-- Behind its backslash. -/
  | opened
  /-- Behind octal digits, so many of which may follow. -/
  | octal (more : Nat)
  /-- Before so many hexadecimal digits. -/
  | hex (n : Nat)
  /-- Inside an escape of a code point. -/
  | code (s : CodePoint)
  /-- Behind a character that a line break may follow. -/
  | beforeBreak
  /-- Behind the escape. -/
  | closed

/-- Reads one character of an escape. -/
def Escape.step? (s : Escape) (c : Char) : Option Escape :=
  match s with
  | start => if c == '\\' then some opened else none
  | opened =>
    if isOctalDigit c then some (octal 2)
    else if c == 'x' then some (hex 2)
    else if c == 'u' then some (code .mark)
    else if c == '\x0d' || c == '?' then some beforeBreak
    else some closed
  | octal n => if 0 < n && isOctalDigit c then some (octal (n - 1)) else none
  | hex n => if isHexDigit c then some (if n ≤ 1 then closed else hex (n - 1)) else none
  | code p => (p.step? c).map fun | some p => code p | none => closed
  | beforeBreak => if c == '\n' || isLineMark c then some closed else none
  | closed => none

/-- Escapes in strings and templates. -/
def escapeMatcher : Matcher Escape where
  start := .start
  step := Escape.step?
  accepts
    | .octal _ | .beforeBreak | .closed => true
    | _ => false

/-! ## Regular expressions -/

/-- Where the body of a regular expression is read. -/
inductive PatternBody
  /-- Before its first character. -/
  | start
  /-- Behind a character. -/
  | body
  /-- Behind a backslash. -/
  | escape
  /-- In a class of characters. -/
  | inClass
  /-- Behind a backslash in a class. -/
  | classEscape

/-- Bodies of regular expressions. -/
def patternMatcher : Matcher PatternBody where
  start := .start
  step s c :=
    if c == '\n' then none
    else match s with
      | .start | .body =>
        if c == '/' then none else if c == '\\' then some .escape else if c == '\x5b' then some .inClass else some .body
      | .escape => some .body
      | .inClass => some (if c == '\x5d' then .body else if c == '\\' then .classEscape else .inClass)
      | .classEscape => some .inClass
  accepts
    | .body => true
    | _ => false

/-! ## Markup -/

/-- Letters, underscores and dollar signs. -/
def isWordStart (c : Char) : Bool := c.isAlpha || c == '_' || c == '$'

/-- Names in markup that have a hyphen. The state counts: nothing, a beginning, and a hyphen behind it. -/
def markupNameMatcher : Matcher Nat where
  start := 0
  step
    | 0, c => if isWordStart c then some 1 else none
    | 1, c => if isWordStart c || c.isDigit then some 1 else if c == '-' then some 2 else none
    | _, c => if isWordStart c || c.isDigit || c == '-' then some 2 else none
  accepts := (· == 2)

/-- Where a character reference is read. -/
inductive Entity
  /-- Before its first character. -/
  | start
  /-- Behind `&`. -/
  | opened
  /-- Behind the mark of a number. -/
  | number
  /-- Behind the mark of a hexadecimal number. -/
  | hexNumber
  /-- Behind decimal digits, so many of which may follow. -/
  | decimal (more : Nat)
  /-- Behind hexadecimal digits, so many of which may follow. -/
  | hex (more : Nat)
  /-- Behind letters, so many of which may follow. -/
  | letters (more : Nat)
  /-- Behind it. -/
  | closed

/-- Reads one character of a character reference. -/
def Entity.step? (s : Entity) (c : Char) : Option Entity :=
  match s with
  | start => if c == '&' then some opened else none
  | opened => if c == '#' then some number else if c.isAlpha then some (letters 29) else none
  | number => if c == 'x' || c == 'X' then some hexNumber else if c.isDigit then some (decimal 4) else none
  | hexNumber => if isHexDigit c then some (hex 5) else none
  | decimal n => if c == ';' then some closed else if 0 < n && c.isDigit then some (decimal (n - 1)) else none
  | hex n => if c == ';' then some closed else if 0 < n && isHexDigit c then some (hex (n - 1)) else none
  | letters n => if c == ';' then some closed else if 0 < n && c.isAlpha then some (letters (n - 1)) else none
  | closed => none

/-- Character references. -/
def entityMatcher : Matcher Entity where
  start := .start
  step := Entity.step?
  accepts
    | .closed => true
    | _ => false

/-- Where the characters of a markup value are read. -/
inductive MarkupValue
  /-- Before the first one. -/
  | start
  /-- Behind one. -/
  | inside
  /-- Behind `&`. -/
  | ampersand

/-- Characters of a markup value up to its quote or a character reference. -/
def markupValueMatcher (quote : Char) : Matcher MarkupValue where
  start := .start
  step
    | .ampersand, c => if c == '#' || c.isAlpha then none else some .inside
    | _, c => if c == quote then none else if c == '&' then some .ampersand else some .inside
  accepts
    | .inside => true
    | _ => false

/-! ## Words that end a line -/

/-- Where `static get` at the end of a line is read. -/
inductive StaticGet
  /-- Before so many characters of its first word. -/
  | static (left : List Char)
  /-- Behind white space. -/
  | between
  /-- Before so many characters of its second word. -/
  | get (left : List Char)
  /-- Behind white space at the end. -/
  | trailing
  /-- Behind a line feed at the end. -/
  | closed

/-- `static get` with the white space behind it up to a line feed. -/
def staticGetMatcher : Matcher StaticGet where
  start := .static ['s', 't', 'a', 't', 'i', 'c']
  step
    | .static [], c => if isSpace c then some .between else none
    | .static (x :: left), c => if c == x then some (.static left) else none
    | .between, c => if isSpace c then some .between else if c == 'g' then some (.get ['e', 't']) else none
    | .get (x :: left), c => if c == x then some (.get left) else none
    | .get [], c | .trailing, c | .closed, c =>
      if c == '\n' then some .closed else if isSpace c then some .trailing else none
  accepts
    | .closed => true
    | _ => false

end BareImports.Script
