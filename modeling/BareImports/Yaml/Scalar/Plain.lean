import BareImports.Yaml.Cursor

/-!
# Scalars without quotes

A plain scalar ends at a comment, at a colon before a gap, and where a line is indented too little; inside brackets
also at the marks of lists and mappings. One line break inside it counts as a space, each further one as itself.

* `Plain.scan`: the text of a plain scalar, and what follows it.
-/

namespace BareImports.Yaml

/-- What was read as a plain scalar. -/
structure Plain where
  /-- Its text. -/
  text : List Char
  /-- What follows it and the gap behind it. -/
  rest : List Char
  /-- Whether that gap broke the line. -/
  fresh : Bool

namespace Plain

/-- The marks of lists and mappings in brackets. -/
def isBracketMark (c : Char) : Bool := c == ',' || c == '\x5b' || c == '\x5d' || c == '\x7b' || c == '\x7d'

/-- Whether a piece of a plain scalar ends before this text. -/
def stops (bracketed : Bool) : List Char → Bool
  | [] => true
  | c :: s =>
    atGap (c :: s) || (bracketed && (c == '?' || isBracketMark c)) ||
      (c == ':' && (atGap s || (bracketed && s.head?.any isBracketMark)))

/-- The piece in front of a text that has no gaps, and the rest. -/
def piece (bracketed : Bool) : List Char → List Char × List Char
  | [] => ([], [])
  | c :: s =>
    if stops bracketed (c :: s) then ([], c :: s)
    else
      let (p, r) := piece bracketed s
      (c :: p, r)

/-- What lies between two pieces. -/
structure Gap where
  /-- What it counts as; empty if the scalar ends here. -/
  text : List Char
  /-- What follows it. -/
  rest : List Char
  /-- Whether it broke the line. -/
  fresh : Bool
  /-- The column behind it, if it broke the line. -/
  column : Nat

/-- The line breaks of a gap behind its first one, spaces left out, what follows and its column. A mark between
documents ends the scalar: then there are no breaks to give. -/
def moreBreaks (column : Nat) : List Char → Option (List Char) × List Char × Nat
  | [] => (some [], [], column)
  | c :: s =>
    if c == ' ' then moreBreaks (column + 1) s
    else if isBreak c then
      if atSeparator s then (none, s, 0)
      else
        let (bs, r, k) := moreBreaks 0 s
        (bs.map (breakText c :: ·), r, k)
    else (some [], c :: s, column)

/-- The gap in front of a text. -/
def gap (s : List Char) : Gap :=
  let (spaces, r) := s.span (· == ' ')
  match r with
  | [] => ⟨spaces, r, false, 0⟩
  | c :: r' =>
    if !isBreak c then ⟨spaces, r, false, 0⟩
    else if atSeparator r' then ⟨[], r', true, 0⟩
    else match moreBreaks 0 r' with
      | (none, r'', k) => ⟨[], r'', true, k⟩
      | (some bs, r'', k) =>
        let b := breakText c
        ⟨if b != '\n' then b :: bs else if bs.isEmpty then [' '] else bs, r'', true, k⟩

/-- The pieces of a plain scalar behind those in `done`, which are in reverse, as are the gaps among them. -/
def pieces (bracketed : Bool) (least : Nat) : Nat → List (List Char) → Gap → Plain
  | 0, done, g => ⟨done.reverse.flatten, g.rest, g.fresh⟩
  | fuel + 1, done, g =>
    match piece bracketed g.rest with
    | ([], _) => ⟨done.reverse.flatten, g.rest, g.fresh⟩
    | (p, r) =>
      let next := gap r
      let done := p :: g.text :: done
      if next.text.isEmpty || next.rest.head? == some '#' || (!bracketed && next.fresh && next.column < least) then
        ⟨done.reverse.flatten, next.rest, next.fresh⟩
      else pieces bracketed least fuel done next

/-- The plain scalar that a text begins with; outside brackets its further lines need the column `least`. -/
def scan (bracketed : Bool) (least : Nat) (s : List Char) : Plain :=
  pieces bracketed least s.length [] ⟨[], s, false, 0⟩

end Plain

end BareImports.Yaml
