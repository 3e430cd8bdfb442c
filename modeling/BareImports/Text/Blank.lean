import BareImports.Text.Cut

/-!
# White space of every script

* `isBlank`: the characters that count as white space in settings, manifests and directives;
* `strip`: a text without the white space at its ends.
-/

namespace BareImports.Text

/-- White space: the separators of the character tables, the controls that move the cursor, the four
information separators and the next-line control. A byte order mark is none. -/
def isBlank (c : Char) : Bool :=
  let n := c.toNat
  (9 ≤ n && n ≤ 13) || (28 ≤ n && n ≤ 32) || n == 0x85 || n == 0xA0 || n == 0x1680 ||
    (0x2000 ≤ n && n ≤ 0x200A) || n == 0x2028 || n == 0x2029 || n == 0x202F || n == 0x205F || n == 0x3000

/-- A text without the white space at its ends. -/
def strip (s : List Char) : List Char := trim isBlank s

theorem isBlank_of_isWhitespace {c : Char} (h : c.isWhitespace = true) : isBlank c = true := by
  simp only [Char.isWhitespace, Bool.or_eq_true, decide_eq_true_eq] at h
  rcases h with ((rfl | rfl) | rfl) | rfl <;> decide

end BareImports.Text
