import BareImports.Yaml.Cursor

/-!
# Block scalars

Indented lines behind `|`, which keeps them, or `>`, which folds them: there a line break between two lines that are not
indented further counts as a space, unless blank lines follow it.

* `Block.scan`: the text of a block scalar behind its first mark, and what follows it.
-/

namespace BareImports.Yaml.Block

/-- What becomes of the line breaks at the end. -/
inductive Chomp
  /-- The first one stays. -/
  | clip
  /-- None stays. -/
  | strip
  /-- All stay. -/
  | keep
  deriving BEq, DecidableEq, Repr

/-- What the mark `+` or `-` says about the line breaks at the end. -/
def chomp? : Char → Option Chomp
  | '+' => some .keep
  | '-' => some .strip
  | _ => none

/-- The value of a digit. -/
def digit? (c : Char) : Option Nat := if c.isDigit then some (c.toNat - 48) else none

/-- The marks behind the first one: a mark for the end, an indentation, in either order; and what follows. -/
def marks (s : List Char) : Except Fault (Chomp × Option Nat × List Char) := do
  let (chomp, n, r) := match s with
    | [] => (Chomp.clip, none, s)
    | c :: r => match chomp? c, digit? c with
      | some k, _ => match r with
        | d :: r' => match digit? d with
          | some n => (k, some n, r')
          | none => (k, none, r)
        | [] => (k, none, r)
      | none, some n => match r with
        | d :: r' => match chomp? d with
          | some k => (k, some n, r')
          | none => (Chomp.clip, some n, r)
        | [] => (Chomp.clip, some n, r)
      | none, none => (Chomp.clip, none, s)
  if n == some 0 || !atSpace r then throw .malformed else return (chomp, n, r)

/-- The blank lines in front of a text, the greatest column that their spaces and those of the next line reach, the
column of what follows, and what follows. -/
def leading (greatest column : Nat) : List Char → List Char × Nat × Nat × List Char
  | [] => ([], greatest, column, [])
  | c :: s =>
    if c == ' ' then leading (max greatest (column + 1)) (column + 1) s
    else if isBreak c then
      let (bs, m, k, r) := leading greatest 0 s
      (breakText c :: bs, m, k, r)
    else ([], greatest, column, c :: s)

/-- The blank lines in front of a text, of which up to `indent` spaces a line are left out; the column of what follows,
and what follows. -/
def blankLines (indent column : Nat) : List Char → List Char × Nat × List Char
  | [] => ([], column, [])
  | c :: s =>
    if c == ' ' && column < indent then blankLines indent (column + 1) s
    else if isBreak c then
      let (bs, k, r) := blankLines indent 0 s
      (breakText c :: bs, k, r)
    else ([], column, c :: s)

/-- Whether a text begins with a blank. -/
def atIndent (s : List Char) : Bool := s.head?.any isIndent

/-- What the break between two lines counts as. -/
def joint (folded : Bool) (line next : List Char) (lineBreak breaks : List Char) : List Char :=
  if folded && lineBreak == ['\n'] && !atIndent line && !atIndent next then if breaks.isEmpty then [' '] else []
  else lineBreak

/-- What stays of the line breaks at the end. -/
def ending (chomp : Chomp) (lineBreak breaks : List Char) : List Char :=
  match chomp with
  | .clip => lineBreak
  | .strip => []
  | .keep => lineBreak ++ breaks

/-- The lines of a scalar. `done` holds what was read, in reverse; `breaks` the blank lines behind it; the text stands
at `column`. -/
def lines (folded : Bool) (chomp : Chomp) (indent : Nat) :
    Nat → List (List Char) → List Char → List Char → Nat → List Char → List Char × List Char
  | 0, done, _, _, _, s => (done.reverse.flatten, s)
  | fuel + 1, done, lineBreak, breaks, column, s =>
    if column != indent || s.isEmpty then ((ending chomp lineBreak breaks :: done).reverse.flatten, s)
    else
      let (line, r) := s.span fun c => !isBreak c
      let (lineBreak', r) := match r with
        | [] => ([], [])
        | c :: r' => ([breakText c], r')
      let (breaks', column', r) := blankLines indent 0 r
      let more := column' == indent && !r.isEmpty
      let glue := if more then joint folded line r lineBreak' breaks' else []
      lines folded chomp indent fuel (glue :: line :: breaks :: done) lineBreak' breaks' column' r

/-- The text of a scalar behind its first mark, and what follows it; `least` is the least column of its lines. -/
def scan (folded : Bool) (least : Nat) (s : List Char) : Except Fault (List Char × List Char) := do
  let (chomp, n, r) ← marks s
  let some r := endLine? r | throw .malformed
  let (indent, breaks, column, r) := match n with
    | none =>
      let (bs, m, k, r) := leading 0 0 r
      (max least m, bs, k, r)
    | some n =>
      let indent := least + n - 1
      (indent, blankLines indent 0 r)
  return lines folded chomp indent (r.length + 1) [] [] breaks column r

end BareImports.Yaml.Block
