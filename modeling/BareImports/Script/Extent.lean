/-!
# Extents

* `Extent`: how much text there is: characters, bytes and line breaks;
* `Input`: a place in a text, with the text behind it;
* `Input.advance`: the place a number of characters further on.
-/

namespace BareImports.Script

/-- How much text there is. -/
structure Extent where
  /-- Characters. -/
  chars : Nat
  /-- Bytes in UTF-8. -/
  bytes : Nat
  /-- Line feeds. -/
  lines : Nat
  deriving DecidableEq, Repr

namespace Extent

/-- No text. -/
def zero : Extent := ⟨0, 0, 0⟩

instance : Inhabited Extent := ⟨zero⟩

instance : Add Extent := ⟨fun a b => ⟨a.chars + b.chars, a.bytes + b.bytes, a.lines + b.lines⟩⟩

instance : Sub Extent := ⟨fun a b => ⟨a.chars - b.chars, a.bytes - b.bytes, a.lines - b.lines⟩⟩

/-- An extent with one character more. -/
def push (e : Extent) (c : Char) : Extent :=
  ⟨e.chars + 1, e.bytes + c.utf8Size, if c == '\n' then e.lines + 1 else e.lines⟩

/-- The extent of a text. -/
def ofList (s : List Char) : Extent := s.foldl push zero

end Extent

/-- A place in a text. -/
structure Input where
  /-- The text before it. -/
  offset : Extent
  /-- The text behind it. -/
  rest : List Char

namespace Input

instance : Inhabited Input := ⟨⟨.zero, []⟩⟩

/-- The place before a text. -/
def start (s : List Char) : Input := ⟨.zero, s⟩

/-- The place a number of characters further on, at most that behind the text. -/
def advance : Nat → Input → Input
  | 0, i => i
  | _, ⟨o, []⟩ => ⟨o, []⟩
  | n + 1, ⟨o, c :: r⟩ => advance n ⟨o.push c, r⟩

/-- The text between two places. -/
def extentTo (i j : Input) : Extent := j.offset - i.offset

end Input

end BareImports.Script
