import BareImports.Yaml.Scalar.Block
import BareImports.Yaml.Scalar.Plain
import BareImports.Yaml.Scalar.Quoted
import BareImports.Yaml.Tag

/-!
# The tokens of a YAML text

Indentation opens and closes block collections, so the tokens come from a scan that remembers the open columns. A key
without mark shows itself only by the colon behind it: the scan remembers where one may have begun, on each level of
brackets, and puts the key's mark there when the colon comes.

* `Token`;
* `Scan`: a scan under way; `Scan.next`: one token or a few;
* `Token.scan`: the tokens of a text.
-/

namespace BareImports.Yaml

/-- A token. The end of the tokens is the end of the text. -/
inductive Token
  /-- A line in front of a document. -/
  | directive (d : Directive)
  /-- The mark before a document. -/
  | documentStart
  /-- The mark behind a document. -/
  | documentEnd
  /-- The beginning of an indented list. -/
  | listStart
  /-- The beginning of an indented mapping. -/
  | mapStart
  /-- The end of an indented list or mapping. -/
  | blockEnd
  /-- The beginning of a list in brackets. -/
  | openList
  /-- The end of a list in brackets. -/
  | closeList
  /-- The beginning of a mapping in braces. -/
  | openMap
  /-- The end of a mapping in braces. -/
  | closeMap
  /-- A comma between the members of a list or mapping in brackets. -/
  | comma
  /-- The dash before a member of an indented list. -/
  | entry
  /-- What stands before a key, written or not. -/
  | key
  /-- The colon before a value. -/
  | value
  /-- The use of an anchor. -/
  | alias (name : List Char)
  /-- An anchor. -/
  | anchor (name : List Char)
  /-- A tag. -/
  | tag (t : Tag)
  /-- A scalar, with quotes or in block form, or plain. -/
  | scalar (plain : Bool) (text : List Char)

/-- A place where a key without mark may have begun. -/
structure Candidate where
  /-- The bracket level. -/
  depth : Nat
  /-- How many tokens stand before it. -/
  number : Nat
  /-- Whether something else than a key would be an error there. -/
  required : Bool
  /-- Its line. -/
  line : Nat
  /-- Its column. -/
  column : Nat
  /-- How many characters of the text lie at or behind it. -/
  left : Nat

/-- The longest key that needs no mark, in characters. -/
def longestKey : Nat := 1024

/-- A scan under way. -/
structure Scan where
  /-- The text yet to be read. -/
  cursor : Cursor
  /-- How many brackets are open. -/
  depth : Nat := 0
  /-- The columns of the open block collections, the innermost first. -/
  columns : List Nat := []
  /-- Whether a key without mark may begin here. -/
  keyAllowed : Bool := true
  /-- Where keys may have begun, one for each bracket level at most. -/
  candidates : List Candidate := []
  /-- The tokens, the last one first. -/
  tokens : List Token := []

namespace Scan

/-- A scan with one more token. -/
def push (t : Token) (s : Scan) : Scan := { s with tokens := t :: s.tokens }

/-- A scan with a token put before all but the first `n`. -/
def insert (n : Nat) (t : Token) (s : Scan) : Scan :=
  let behind := s.tokens.length - n
  { s with tokens := s.tokens.take behind ++ t :: s.tokens.drop behind }

/-- A scan moved to a later place of its text. -/
def moveTo (rest : List Char) (s : Scan) : Scan := { s with cursor := s.cursor.moveTo rest }

/-- A scan without the candidates that pass a test, none of which may be required. -/
def drop (p : Candidate → Bool) (s : Scan) : Except Fault Scan :=
  if s.candidates.any fun c => p c && c.required then .error .malformed
  else .ok { s with candidates := s.candidates.filter fun c => !p c }

/-- A scan without the candidates that lie too far back: on another line or more than the longest key. -/
def dropStale (s : Scan) : Except Fault Scan :=
  let left := s.cursor.rest.length
  s.drop fun c => c.line != s.cursor.line || longestKey < c.left - left

/-- A scan without the candidate of its bracket level. -/
def dropHere (s : Scan) : Except Fault Scan := s.drop (·.depth == s.depth)

/-- A scan that remembers that a key may begin here. -/
def mark (s : Scan) : Except Fault Scan :=
  if s.keyAllowed then do
    let s ← s.dropHere
    let c : Candidate :=
      { depth := s.depth, number := s.tokens.length, line := s.cursor.line, column := s.cursor.column,
        required := s.depth == 0 && s.columns.head? == some s.cursor.column, left := s.cursor.rest.length }
    return { s with candidates := c :: s.candidates }
  else .ok s

/-- A scan with the block collections closed whose column passes a test; in brackets there are none to close. -/
def unwind (p : Nat → Bool) (s : Scan) : Scan :=
  if s.depth != 0 then s
  else
    let closed := s.columns.takeWhile p
    { s with columns := s.columns.drop closed.length, tokens := closed.map (fun _ => Token.blockEnd) ++ s.tokens }

/-- Whether a column lies behind the innermost open one. -/
def isDeeper (column : Nat) (s : Scan) : Bool := s.columns.head?.all (· < column)

/-- A scan with a block collection opened at a column, if that lies deeper; its first token goes before all but the
first `n`. -/
def openBlock (t : Token) (column n : Nat) (s : Scan) : Scan :=
  if s.isDeeper column then { s.insert n t with columns := column :: s.columns } else s

/-- A scan behind a mark of one character that is a token. -/
def markToken (t : Token) (rest : List Char) (s : Scan) : Scan := (s.push t).moveTo rest

/-- A scan between documents: all block collections are closed and no key may begin. -/
def closeDocument (s : Scan) : Except Fault Scan := do
  let s ← (s.unwind fun _ => true).dropHere
  return { s with keyAllowed := false }

/-- A scan behind an opening bracket. -/
def openBracket (t : Token) (rest : List Char) (s : Scan) : Except Fault Scan := do
  let s ← s.mark
  return { s.markToken t rest with depth := s.depth + 1, keyAllowed := true }

/-- A scan behind a closing bracket. -/
def closeBracket (t : Token) (rest : List Char) (s : Scan) : Except Fault Scan := do
  if s.depth == 0 then throw .malformed
  let s ← s.dropHere
  return { s.markToken t rest with depth := s.depth - 1, keyAllowed := false }

/-- A scan behind a comma. -/
def takeComma (rest : List Char) (s : Scan) : Except Fault Scan := do
  let s ← s.dropHere
  return { s.markToken .comma rest with keyAllowed := true }

/-- A scan behind a dash or a question mark, which outside brackets opens a block collection. -/
def takeMark (first t : Token) (keyAllowed : Bool) (rest : List Char) (s : Scan) : Except Fault Scan := do
  if s.depth == 0 && !s.keyAllowed then throw .malformed
  let s := if s.depth == 0 then s.openBlock first s.cursor.column s.tokens.length else s
  let s ← s.dropHere
  return { s.markToken t rest with keyAllowed := keyAllowed }

/-- A scan behind a colon: it makes a key of the candidate of its level, if there is one. -/
def takeColon (rest : List Char) (s : Scan) : Except Fault Scan :=
  match s.candidates.find? (·.depth == s.depth) with
  | some c =>
    let s := { s with candidates := s.candidates.filter (·.depth != s.depth), keyAllowed := false }
    let s := s.insert c.number .key
    let s := if s.depth == 0 then s.openBlock .mapStart c.column c.number else s
    .ok (s.markToken .value rest)
  | none => s.takeMark .mapStart .value (s.depth == 0) rest

/-- A scan behind a token that may be a key, given with what follows it. -/
def takeNode (t : Token) (rest : List Char) (s : Scan) : Except Fault Scan := do
  let s ← s.mark
  return { s.markToken t rest with keyAllowed := false }

/-- A scan behind a plain scalar. -/
def takePlain (s : Scan) : Except Fault Scan := do
  let p := Plain.scan (s.depth != 0) (s.columns.head?.elim 0 (· + 1)) s.cursor.rest
  let s ← s.takeNode (.scalar true p.text) p.rest
  return { s with keyAllowed := p.fresh }

/-- A scan behind a block scalar, whose first mark is given with what follows it. -/
def takeBlock (folded : Bool) (rest : List Char) (s : Scan) : Except Fault Scan := do
  let s ← s.dropHere
  let (t, r) ← Block.scan folded (max 1 (s.columns.head?.elim 0 (· + 1))) rest
  return { s.markToken (.scalar false t) r with keyAllowed := true }

/-- A scan at its next token: blanks, comments and line breaks are passed, and what they end is ended. -/
def settle (s : Scan) : Except Fault Scan := do
  let (broke, r) := skipIdle false s.cursor.rest
  let s := s.moveTo r
  let s := if broke && s.depth == 0 then { s with keyAllowed := true } else s
  let s ← s.dropStale
  return s.unwind fun k => s.cursor.column < k

/-- Whether a plain scalar may begin with a character, given what follows it. -/
def beginsPlain (s : Scan) (c : Char) (r : List Char) : Bool :=
  !("-?:,[]\x7b\x7d#&*!|>'\"%@`".toList.contains c || atGap [c]) ||
    (!atGap r && (c == '-' || (s.depth == 0 && (c == '?' || c == ':'))))

/-- A settled scan behind the token that begins with the character `c`; `r` follows that character. -/
def take (s : Scan) (c : Char) (r : List Char) : Except Fault Scan :=
  let s₀ := s.cursor.column == 0
  let outside := s.depth == 0
  if c == '%' && s₀ then do
    let s ← s.closeDocument
    let (d, r) ← Directive.scan r
    return s.markToken (.directive d) r
  else if s₀ && atTriple '-' (c :: r) then do
    return (← s.closeDocument).markToken .documentStart (r.drop 2)
  else if s₀ && atTriple '.' (c :: r) then do
    return (← s.closeDocument).markToken .documentEnd (r.drop 2)
  else match c with
    | '\x5b' => s.openBracket .openList r
    | '\x7b' => s.openBracket .openMap r
    | '\x5d' => s.closeBracket .closeList r
    | '\x7d' => s.closeBracket .closeMap r
    | ',' => s.takeComma r
    | '*' => do
      let (name, r) ← anchor r
      s.takeNode (.alias name) r
    | '&' => do
      let (name, r) ← anchor r
      s.takeNode (.anchor name) r
    | '!' => do
      let (t, r) ← Tag.scan r
      s.takeNode (.tag t) r
    | '\'' => do
      let (t, r) ← Quoted.scan false r
      s.takeNode (.scalar false t) r
    | '"' => do
      let (t, r) ← Quoted.scan true r
      s.takeNode (.scalar false t) r
    | _ =>
      if c == '-' && atGap r then s.takeMark .listStart .entry true r
      else if c == '?' && (!outside || atGap r) then s.takeMark .mapStart .key outside r
      else if c == ':' && (!outside || atGap r) then s.takeColon r
      else if c == '|' && outside then s.takeBlock false r
      else if c == '>' && outside then s.takeBlock true r
      else if s.beginsPlain c r then s.takePlain
      else .error .malformed

/-- The tokens of a scan run to its end. -/
def run : Nat → Scan → Except Fault (List Token)
  | 0, _ => .error .malformed
  | fuel + 1, s => do
    let s ← s.settle
    match s.cursor.rest with
    | [] => return (← s.closeDocument).tokens.reverse
    | c :: r => run fuel (← s.take c r)

end Scan

/-- Characters that a text may hold. -/
def isPrintable (c : Char) : Bool :=
  let n := c.toNat
  n == 9 || n == 10 || n == 13 || (32 ≤ n && n ≤ 126) || n == 0x85 || (0xA0 ≤ n && n ≤ 0xFFFD) || 0x10000 ≤ n

/-- The tokens of a text, the byte order mark at its beginning left out. -/
def Token.scan (text : List Char) : Except Fault (List Token) :=
  if !text.all isPrintable then .error .malformed
  else
    let s := match text with
      | '\ufeff' :: r => r
      | s => s
    Scan.run (s.length + 2) { cursor := { rest := s } }

end BareImports.Yaml
