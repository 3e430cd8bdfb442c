import BareImports.Script.Lexeme
import BareImports.Script.Token

/-!
# Tokens that depend on what surrounds them

Some tokens are read only where the grammar can use them: the end of a statement without a semicolon, the parts of
templates and of markup, the mark of a conditional expression, and comments of old pages.

* `Cursor`: a place behind a number of characters;
* `Found`: a token with the characters before it and its own;
* `Gap.read`: the white space and comments in front of a token;
* `endsPlain`, `endsTyped`: whether a statement ends where a semicolon is missing, in either dialect;
* `conditionalMark?`, `templateChars?`, `markupText?`, `legacyComment?`: the other tokens;
* `layoutToken?`: the token that is read first where some are possible.
-/

namespace BareImports.Script

/-- A place behind a number of characters. -/
structure Cursor where
  /-- The number. -/
  passed : Nat
  /-- The text behind them. -/
  rest : List Char

namespace Cursor

/-- The character at a place. -/
def peek (c : Cursor) : Option Char := c.rest.head?

/-- The place one character further on. -/
def next (c : Cursor) : Cursor :=
  match c.rest with
  | [] => c
  | _ :: r => ⟨c.passed + 1, r⟩

/-- The place behind the characters that pass a test. -/
def skipWhile (p : Char → Bool) (c : Cursor) : Cursor := go c.passed c.rest
where
  /-- Goes on from a number of characters. -/
  go (n : Nat) : List Char → Cursor
    | [] => ⟨n, []⟩
    | c :: r => if p c then go (n + 1) r else ⟨n, c :: r⟩

/-- Whether one of some characters is at a place. -/
def isAt (c : Cursor) (cs : List Char) : Bool := c.peek.any cs.contains

end Cursor

/-- A token with the characters before it and its own. -/
structure Found where
  /-- The token. -/
  token : Token
  /-- How many characters stand before it. -/
  gap : Nat
  /-- How many characters it has. -/
  length : Nat

/-! ## Character classes -/

/-- White space between the lines of a script; it has no spaces that keep words together. -/
def isLayoutSpace (c : Char) : Bool :=
  let n := c.toNat
  (9 ≤ n && n ≤ 13) || n == 32 || n == 0x1680 || (0x2000 ≤ n && n ≤ 0x2006) || (0x2008 ≤ n && n ≤ 0x200A) ||
    n == 0x2028 || n == 0x2029 || n == 0x205F || n == 0x3000

/-- Letters; outside of ASCII all characters of names count. -/
def isLetter (c : Char) : Bool := if c.toNat < 128 then c.isAlpha else isNamePart c

/-- The character that counts as the end of the text. -/
def isNul (c : Char) : Bool := c.toNat == 0

/-- Characters behind which a new line begins. -/
def isLineBreak (c : Char) : Bool := c == '\n' || isLineMark c

/-! ## White space and comments -/

/-- A comment that ends with a mark, behind its opening: whether it is closed, whether it has a line break, and the
place behind it. -/
def blockComment (n : Nat) (breaks : Bool) : List Char → Bool × Bool × Cursor
  | [] => (false, breaks, ⟨n, []⟩)
  | '*' :: '/' :: r => (true, breaks, ⟨n + 2, r⟩)
  | c :: r => if isNul c then (false, breaks, ⟨n, c :: r⟩) else blockComment (n + 1) (breaks || isLineBreak c) r

/-- How white space and comments end. -/
inductive GapEnd
  /-- Before a slash that begins no comment. -/
  | slash
  /-- Behind a comment that may end a statement only with its line. -/
  | comment
  /-- Before something else. -/
  | other
  deriving DecidableEq

/-- White space and comments that were read. -/
structure Gap where
  /-- How they end. -/
  ending : GapEnd
  /-- Whether a comment is among them. -/
  commented : Bool
  /-- The place behind them. -/
  cursor : Cursor

/-- Reads white space and comments. Comments with a mark end it, unless all are to be read. -/
def Gap.readPlain (all : Bool) : Nat → Bool → Bool → Cursor → Gap
  | 0, commented, _, cur => ⟨.other, commented, cur⟩
  | fuel + 1, commented, breaks, cur =>
    let cur := cur.skipWhile isLayoutSpace
    match cur.rest with
    | '/' :: '/' :: r =>
      readPlain all fuel true breaks
        (Cursor.skipWhile (fun c => !isLineBreak c && !isNul c) ⟨cur.passed + 2, r⟩)
    | '/' :: '*' :: r =>
      let (closed, breaks, behind) := blockComment (cur.passed + 2) breaks r
      if closed && !all && behind.peek != some '/' then ⟨if breaks then .other else .comment, true, behind⟩
      else readPlain all fuel (commented || closed) breaks behind
    | '/' :: r => ⟨.slash, commented, ⟨cur.passed + 1, r⟩⟩
    | _ => ⟨.other, commented, cur⟩

/-- Reads white space and comments in scripts with types, where comments with a mark do not count as comments. -/
def Gap.readTyped : Nat → Bool → Cursor → Gap
  | 0, commented, cur => ⟨.other, commented, cur⟩
  | fuel + 1, commented, cur =>
    let cur := cur.skipWhile isLayoutSpace
    match cur.rest with
    | '/' :: '/' :: r =>
      readTyped fuel true (Cursor.skipWhile (fun c => c != '\n' && !isNul c) ⟨cur.passed + 2, r⟩)
    | '/' :: '*' :: r => readTyped fuel commented (blockComment (cur.passed + 2) false r).2.2
    | '/' :: r => ⟨.slash, commented, ⟨cur.passed + 1, r⟩⟩
    | _ => ⟨.other, commented, cur⟩

/-! ## The end of a statement without a semicolon -/

/-- Whether a statement ends at a place, whether comments were met, and how far was read to tell. -/
structure LineEnd where
  /-- Whether it ends. -/
  ends : Bool
  /-- Whether comments were met. -/
  commented : Bool
  /-- How far was read. -/
  cursor : Cursor

/-- Whether a word behind its `i` is no operator: neither `in` nor `instanceof`. -/
def wordEnds (cur : Cursor) : Bool :=
  if cur.peek != some 'n' then true
  else
    let cur := cur.next
    if !cur.peek.any isLetter then false
    else match ['s', 't', 'a', 'n', 'c', 'e', 'o', 'f'].isPrefixOf? cur.rest with
      | none => true
      | some r => r.head?.any isLetter

/-- Whether what stands on a new line ends the statement before it, apart from the marks that never do. -/
def beginsStatement (commented : Bool) (cur : Cursor) : LineEnd :=
  match cur.peek with
  | some '+' => ⟨cur.next.peek == some '+', commented, cur.next⟩
  | some '-' => ⟨cur.next.peek == some '-', commented, cur.next⟩
  | some '!' => ⟨cur.next.peek != some '=', commented, cur.next⟩
  | some 'i' => ⟨wordEnds cur.next, commented, cur.next⟩
  | _ => ⟨true, commented, cur⟩

/-- Whether a statement ends where a new line begins, in scripts as they are run. -/
def endsPlainLine (fuel : Nat) (commented : Bool) (cur : Cursor) : LineEnd :=
  let g := Gap.readPlain true fuel commented false cur
  if g.ending == .slash then ⟨false, g.commented, g.cursor⟩
  else if g.cursor.isAt ['\x60', ',', ':', ';', '*', '%', '>', '<', '=', '\x5b', '(', '?', '^', '|', '&', '/'] then
    ⟨false, g.commented, g.cursor⟩
  else if g.cursor.isAt ['.'] then ⟨g.cursor.next.peek.any Char.isDigit, g.commented, g.cursor.next⟩
  else beginsStatement g.commented g.cursor

/-- Whether a statement ends at a place, in scripts as they are run. `operand` tells that an operator may follow. -/
def endsPlain (operand : Bool) : Nat → Bool → Cursor → LineEnd
  | 0, commented, cur => ⟨false, commented, cur⟩
  | fuel + 1, commented, cur =>
    if cur.peek.all isNul then ⟨true, commented, cur⟩
    else
      let g := if cur.peek == some '/' then Gap.readPlain false (fuel + 1) commented false cur
        else ⟨.comment, commented, cur⟩
      if g.ending == .slash then ⟨false, g.commented, g.cursor⟩
      else if g.ending == .other && !operand && !g.cursor.isAt [',', '='] then ⟨true, g.commented, g.cursor⟩
      else match g.cursor.peek with
        | none => ⟨false, g.commented, g.cursor⟩
        | some c =>
          if c == '\x7d' then ⟨true, g.commented, g.cursor⟩
          else if isLineBreak c then endsPlainLine (fuel + 1) g.commented g.cursor.next
          else if isLayoutSpace c then endsPlain operand fuel g.commented g.cursor.next
          else ⟨false, g.commented, g.cursor⟩

/-- Whether a statement ends where a new line begins, in scripts with types. -/
def endsTypedLine (operand signature : Bool) (fuel : Nat) (cur : Cursor) : LineEnd :=
  let g := Gap.readTyped fuel false cur
  if g.ending == .slash then ⟨false, g.commented, g.cursor⟩
  else if g.cursor.isAt ['\x60', ',', '.', ';', '*', '%', '>', '<', '=', '?', '^', '|', '&', '/', ':'] then
    ⟨false, g.commented, g.cursor⟩
  else if g.cursor.isAt ['\x7b'] && signature then ⟨false, g.commented, g.cursor⟩
  else if g.cursor.isAt ['(', '\x5b'] && operand then ⟨false, g.commented, g.cursor⟩
  else beginsStatement g.commented g.cursor

/-- Whether a statement or a signature ends at a place, in scripts with types. -/
def endsTyped (operand signature : Bool) : Nat → Cursor → LineEnd
  | 0, cur => ⟨false, false, cur⟩
  | fuel + 1, cur =>
    match cur.peek with
    | none => ⟨true, false, cur⟩
    | some c =>
      if isNul c then ⟨true, false, cur⟩
      else if c == '\x7d' then
        let cur := cur.next.skipWhile isLayoutSpace
        ⟨cur.peek != some ':' || operand, false, cur⟩
      else if !isLayoutSpace c then ⟨false, false, cur⟩
      else if c == '\n' then endsTypedLine operand signature fuel cur.next
      else endsTyped operand signature fuel cur.next

/-! ## Other tokens -/

/-- The mark of a conditional expression; it is no other mark that begins with it. -/
def conditionalMark? (d : Dialect) (cur : Cursor) : Option Found :=
  let cur := cur.skipWhile isLayoutSpace
  let found : Found := ⟨.conditionalMark, cur.passed, 1⟩
  if cur.peek != some '?' then none
  else
    let behind := cur.next
    let further := d.pick behind (behind.skipWhile isLayoutSpace)
    if behind.isAt ['?'] || d.pick false (behind.isAt ['.'] || further.isAt [':', ')', ',']) then none
    else if further.isAt ['.'] && !further.next.peek.any Char.isDigit then none
    else some found

/-- How many characters of a template stand before its end or the next part of another kind. -/
def templateLength? (n : Nat) : List Char → Option Nat
  | [] => none
  | '$' :: r => if r.head? == some '\x7b' then some n else templateLength? (n + 1) r
  | c :: r =>
    if c == '\x60' || c == '\\' then some n
    else if isNul c then none
    else templateLength? (n + 1) r

/-- Characters of a template. -/
def templateChars? (s : List Char) : Option Found :=
  match templateLength? 0 s with
  | some (n + 1) => some ⟨.templateChars, 0, n + 1⟩
  | _ => none

/-- The characters up to the next mark of markup, and whether they are more than white space behind a line feed. -/
def markupLength (n : Nat) (broken shown : Bool) : List Char → Nat × Bool
  | [] => (n, shown)
  | c :: r =>
    if isNul c || ['<', '>', '\x7b', '\x7d', '&'].contains c then (n, shown)
    else if c == '\n' then markupLength (n + 1) true shown r
    else
      let broken := broken && isLayoutSpace c
      markupLength (n + 1) broken (shown || !broken) r

/-- Text between markup elements. -/
def markupText? (s : List Char) : Option Found :=
  match markupLength 0 false false s with
  | (n, true) => some ⟨.markupText, 0, n⟩
  | _ => none

/-- A comment of an old page. Between markup elements the white space before it is a part of it. -/
def legacyComment? (inMarkup : Bool) (s : List Char) : Option Found :=
  let cur := Cursor.skipWhile (fun c => isLayoutSpace c || isLineMark c) ⟨0, s⟩
  let start := if inMarkup then 0 else cur.passed
  let opening := if cur.isAt ['<'] then ['<', '!', '-', '-'] else ['-', '-', '>']
  (opening.isPrefixOf? cur.rest).map fun r =>
    let behind := Cursor.skipWhile (fun c => !isLineBreak c && !isNul c) ⟨cur.passed + opening.length, r⟩
    ⟨.legacyComment, start, behind.passed - start⟩

/-- The end of a statement, or the mark that stands there. -/
def lineEnd? (d : Dialect) (fuel : Nat) (valid : TokenSet) (s : List Char) : Option Found :=
  let operand := valid.has .barBar
  let e := d.pick (endsPlain operand fuel false ⟨0, s⟩)
    (endsTyped operand (valid.has .signatureEnd) fuel ⟨0, s⟩)
  if e.ends then some ⟨.lineEnd, 0, 0⟩
  else if !e.commented && valid.has .conditionalMark && e.cursor.peek == some '?' then
    conditionalMark? d e.cursor
  else none

/-- The token that is read first where some are possible. The fuel is at least the length of the text. -/
def layoutToken? (d : Dialect) (fuel : Nat) (valid : TokenSet) (s : List Char) : Option Found :=
  if valid.has .templateChars then
    if valid.has .lineEnd then none else templateChars? s
  else
    (if valid.has .markupText then markupText? s else none) <|>
      if valid.has .lineEnd || d.pick false (valid.has .signatureEnd) then lineEnd? d fuel valid s
      else if valid.has .conditionalMark then conditionalMark? d ⟨0, s⟩
      else if valid.has .barBar || valid.has .escape || valid.has .patternBody then none
      else legacyComment? (valid.has .markupText) s

end BareImports.Script
