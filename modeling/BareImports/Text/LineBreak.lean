/-!
# Line breaks

* `unifyBreaks`: a text whose line breaks are all one character.
-/

namespace BareImports.Text

/-- A text with a line feed for each carriage return and for each pair of carriage return and line feed. -/
def unifyBreaks : List Char → List Char
  | [] => []
  | '\x0d' :: '\n' :: s => '\n' :: unifyBreaks s
  | c :: s => (if c == '\x0d' then '\n' else c) :: unifyBreaks s

theorem not_mem_unifyBreaks (s : List Char) : '\x0d' ∉ unifyBreaks s := by
  fun_induction unifyBreaks s with
  | case1 => simp
  | case2 s ih => simpa using ih
  | case3 c s _ ih =>
    rw [List.mem_cons, not_or]
    refine ⟨?_, ih⟩
    by_cases h : c = '\x0d'
    · simp [h]
    · simpa [h] using fun h' => h h'.symm

end BareImports.Text
