import BareImports.Text.Hex
import BareImports.Yaml.Cursor

/-!
# Quoted scalars

In single quotes a quote is written twice; in double quotes a backslash begins an escape. In both, one line break
counts as a space and each further one as itself.

* `Quoted.scan`: the text of a quoted scalar behind its opening quote, and what follows its closing quote.
-/

namespace BareImports.Yaml.Quoted

open Text

/-- The characters that a letter behind a backslash stands for. -/
def letterEscapes : List (Char × Char) :=
  [('0', '\x00'), ('a', '\x07'), ('b', '\x08'), ('t', '\t'), ('\t', '\t'), ('n', '\n'), ('v', '\x0b'), ('f', '\x0c'),
    ('r', '\x0d'), ('e', '\x1b'), (' ', ' '), ('"', '"'), ('\\', '\\'), ('/', '/'), ('N', '\u0085'),
    ('_', '\u00a0'), ('L', '\u2028'), ('P', '\u2029')]

/-- How many hexadecimal digits follow a letter that announces a character code. -/
def codeLength? : Char → Option Nat
  | 'x' => some 2
  | 'u' => some 4
  | 'U' => some 8
  | _ => none

/-- The character of a code; half of a pair becomes a replacement character. -/
def ofCode (n : Nat) : Except Fault Char :=
  if 0x80000000 ≤ n then .error .tooGreat
  else if 0x110000 ≤ n then .error .badValue
  else if 0xD800 ≤ n && n < 0xE000 then .ok '\ufffd'
  else .ok (Char.ofNat n)

/-- The character of an escape behind its backslash, and what follows. -/
def escape (s : List Char) : Except Fault (Char × List Char) :=
  match s with
  | [] => .error .malformed
  | c :: r =>
    match letterEscapes.lookup c, codeLength? c with
    | some d, _ => .ok (d, r)
    | none, some n =>
      if (r.take n).length < n then .error .malformed
      else match ofHex? (r.take n) with
        | some code => (ofCode code).map (·, r.drop n)
        | none => .error .malformed
    | none, none => .error .malformed

/-- The line breaks in front of a text that stands at the beginning of a line, blanks left out. No mark between
documents may be there. -/
def breaks : Nat → List Char → Except Fault (List Char × List Char)
  | 0, s => .ok ([], s)
  | fuel + 1, s =>
    if atSeparator s then .error .malformed
    else match s.dropWhile isIndent with
      | [] => .ok ([], [])
      | c :: r =>
        if isBreak c then (breaks fuel r).map fun (bs, r) => (breakText c :: bs, r)
        else .ok ([], c :: r)

/-- What the gap in front of a text counts as, and what follows it. -/
def gap (s : List Char) : Except Fault (List Char × List Char) :=
  let (blanks, r) := s.span isIndent
  match r with
  | [] => .error .malformed
  | c :: r' =>
    if isBreak c then do
      let (bs, r) ← breaks (r'.length + 1) r'
      let b := breakText c
      return (if b != '\n' then b :: bs else if bs.isEmpty then [' '] else bs, r)
    else .ok (blanks, r)

/-- The characters up to the closing quote. Those in `done` are in reverse. -/
def chars (double : Bool) : Nat → List Char → List Char → Except Fault (List Char × List Char)
  | 0, _, _ => .error .malformed
  | fuel + 1, done, s =>
    match s with
    | [] => .error .malformed
    | c :: r =>
      if atGap s then do
        let (g, r) ← gap s
        chars double fuel (g.reverse ++ done) r
      else if double then
        if c == '"' then .ok (done.reverse, r)
        else if c == '\\' then match r with
          | b :: r' =>
            if isBreak b then do
              let (bs, r) ← breaks (r'.length + 1) r'
              chars double fuel (bs.reverse ++ done) r
            else do
              let (d, r) ← escape r
              chars double fuel (d :: done) r
          | [] => .error .malformed
        else chars double fuel (c :: done) r
      else if c == '\'' then match r with
        | '\'' :: r' => chars double fuel ('\'' :: done) r'
        | _ => .ok (done.reverse, r)
      else chars double fuel (c :: done) r

/-- The text of a scalar behind its opening quote, and what follows its closing quote. -/
def scan (double : Bool) (s : List Char) : Except Fault (List Char × List Char) :=
  chars double (s.length + 1) [] s

end BareImports.Yaml.Quoted
