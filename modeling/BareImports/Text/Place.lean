/-!
# Places in a text

* `Place`: a zero-based line and character;
* `Place.ofOffset`: the place of an offset, in code points;
* `Span`: the half-open range between two places.
-/

namespace BareImports.Text

/-- A line and a character in it, both counted from zero. -/
structure Place where
  /-- Line feeds before the place. -/
  line : Nat
  /-- Characters between the place and the start of its line. -/
  character : Nat
  deriving BEq, DecidableEq, Repr

/-- The half-open range between two places. -/
structure Span where
  /-- The first place of the range. -/
  start : Place
  /-- The first place behind the range. -/
  stop : Place
  deriving BEq, DecidableEq, Repr

/-- The characters since the last line feed of a text. -/
def sinceLineFeed (s : List Char) : Nat := (s.reverse.takeWhile (· != '\n')).length

/-- The place of an offset. An offset behind the text is counted on from its last line. -/
def Place.ofOffset (s : List Char) (offset : Nat) : Place :=
  let before := s.take offset
  ⟨before.count '\n', sinceLineFeed before + (offset - before.length)⟩

/-- The range of two offsets. -/
def Span.ofOffsets (s : List Char) (start stop : Nat) : Span := ⟨.ofOffset s start, .ofOffset s stop⟩

/-- The offset at which a line starts. -/
def lineStart : List Char → Nat → Nat
  | _, 0 => 0
  | [], _ + 1 => 0
  | c :: s, n + 1 => if c == '\n' then lineStart s n + 1 else lineStart s (n + 1) + 1

/-- The offset of a place: the start of its line and the characters after it. -/
def Place.offset (p : Place) (s : List Char) : Nat := lineStart s p.line + p.character

/-- Text with each line break, also the two-character one, as one line feed. -/
def unifyLineBreaks : List Char → List Char
  | [] => []
  | '\x0d' :: '\n' :: s => '\n' :: unifyLineBreaks s
  | c :: s => (if c == '\x0d' then '\n' else c) :: unifyLineBreaks s

end BareImports.Text
