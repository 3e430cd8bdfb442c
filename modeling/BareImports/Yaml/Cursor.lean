/-!
# Places in a YAML text

* `isBreak`, `atGap`, `atLineEnd`, `atSpace`: what ends a word or a line;
* `atSeparator`: the marks of documents at the beginning of a line;
* `Cursor`: a text yet to be read with its line and column; `Cursor.moveTo`: the cursor at a later place;
* `skipIdle`: the text behind blanks, comments and line breaks.
-/

namespace BareImports.Yaml

/-- Why a text is refused. -/
inductive Fault
  /-- It is not YAML, or has more than one document, an unknown tag or a key that is no scalar. -/
  | malformed
  /-- A number, a date or a character code has the right form, but there is no such thing. -/
  | badValue
  /-- A character code is too great to be looked up. -/
  | tooGreat
  /-- A number has no digits at all. -/
  | noDigits
  /-- A word that is declared a truth value is none. -/
  | noTruthValue
  /-- A word that is declared a moment is none. -/
  | noMoment
  deriving BEq, DecidableEq, Repr

/-- Line breaks. -/
def isBreak (c : Char) : Bool :=
  c == '\n' || c == '\x0d' || c == '\u0085' || c == '\u2028' || c == '\u2029'

/-- What a line break counts as inside a scalar: the separators of lines and paragraphs stay what they are. -/
def breakText (c : Char) : Char := if c == '\u2028' || c == '\u2029' then c else '\n'

/-- Whether a character is a space or a tab. -/
def isIndent (c : Char) : Bool := c == ' ' || c == '\t'

/-- Whether a text is at its end or begins with a blank or a line break. -/
def atGap : List Char → Bool
  | [] => true
  | c :: _ => isIndent c || isBreak c

/-- Whether a text is at the end of a line. -/
def atLineEnd : List Char → Bool
  | [] => true
  | c :: _ => isBreak c

/-- Whether a text is at the end of a line or begins with a space. -/
def atSpace : List Char → Bool
  | [] => true
  | c :: _ => c == ' ' || isBreak c

/-- Whether a text begins with the given character three times and a gap. -/
def atTriple (mark : Char) : List Char → Bool
  | a :: b :: c :: s => a == mark && b == mark && c == mark && atGap s
  | _ => false

/-- Whether a line begins with a mark between documents. -/
def atSeparator (s : List Char) : Bool := atTriple '-' s || atTriple '.' s

/-- A text without the spaces in front. -/
def skipSpaces (s : List Char) : List Char := s.dropWhile (· == ' ')

/-- The rest of a line that may hold nothing but a comment, and the line break. -/
def endLine? (s : List Char) : Option (List Char) :=
  let s := match skipSpaces s with
    | '#' :: r => r.dropWhile fun c => !isBreak c
    | r => r
  match s with
  | [] => some []
  | c :: r => if isBreak c then some r else none

/-- What follows blanks, comments and line breaks, and whether a line break was among them. -/
def skipIdle (comment : Bool) : List Char → Bool × List Char
  | [] => (false, [])
  | c :: s =>
    if isBreak c then (true, (skipIdle false s).2)
    else if comment || c == ' ' then skipIdle comment s
    else if c == '#' then skipIdle true s
    else (false, c :: s)

/-- A text yet to be read. -/
structure Cursor where
  /-- The text. -/
  rest : List Char
  /-- Its line. -/
  line : Nat := 0
  /-- Its column; a byte order mark has no width. -/
  column : Nat := 0

/-- The line and the column behind a text. -/
def passed (line column : Nat) : List Char → Nat × Nat
  | [] => (line, column)
  | c :: s =>
    if isBreak c then passed (line + 1) 0 s
    else passed line (if c == '\ufeff' then column else column + 1) s

/-- The cursor at the given rest of its text. -/
def Cursor.moveTo (c : Cursor) (rest : List Char) : Cursor :=
  let (line, column) := passed c.line c.column (c.rest.take (c.rest.length - rest.length))
  ⟨rest, line, column⟩

end BareImports.Yaml
