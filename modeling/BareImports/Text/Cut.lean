/-!
# Cutting texts

Texts are worked on as lists of characters; `String` stands at the edges.

* `after?`: what follows a given beginning;
* `cut?`, `cutLast?`: both sides of the first and of the last occurrence of a character;
* `cutAt?`: both sides of the first occurrence of a text;
* `dropTrailing`: a text without the run of some characters at its end.
-/

namespace BareImports.Text

variable {α : Type}

/-- What follows the beginning `p` of a text, `none` if it begins otherwise. -/
def after? (p : String) (s : List Char) : Option (List Char) := p.toList.isPrefixOf? s

/-- Whether a text begins with `p`. -/
def startsWith (p : String) (s : List Char) : Bool := p.toList.isPrefixOf s

/-- Whether a text ends with `p`. -/
def endsWith (p : String) (s : List Char) : Bool := p.toList.isSuffixOf s

/-- Both sides of the first member that passes a test. -/
def cutWhere? (p : α → Bool) : List α → Option (List α × List α)
  | [] => none
  | x :: xs => if p x then some ([], xs) else (cutWhere? p xs).map fun (l, r) => (x :: l, r)

/-- Both sides of the first occurrence of a character. -/
def cut? (c : Char) (s : List Char) : Option (List Char × List Char) := cutWhere? (· == c) s

/-- Both sides of the last occurrence of a character. -/
def cutLast? (c : Char) (s : List Char) : Option (List Char × List Char) :=
  (cut? c s.reverse).map fun (r, l) => (l.reverse, r.reverse)

/-- Both sides of the first occurrence of a text. -/
def cutAt? (p : List Char) : List Char → Option (List Char × List Char)
  | [] => if p.isEmpty then some ([], []) else none
  | c :: s => match p.isPrefixOf? (c :: s) with
    | some r => some ([], r)
    | none => (cutAt? p s).map fun (l, r) => (c :: l, r)

/-- A text without the run of characters at its end that pass a test. -/
def dropTrailing (p : Char → Bool) (s : List Char) : List Char := (s.reverse.dropWhile p).reverse

/-- A text without the runs of characters at both ends that pass a test. -/
def trim (p : Char → Bool) (s : List Char) : List Char := dropTrailing p (s.dropWhile p)

/-- Whether a text occurs in another. -/
def occursIn (p s : List Char) : Bool := (cutAt? p s).isSome

theorem after?_append (p : String) (s : List Char) : after? p (p.toList ++ s) = some s := by
  unfold after?
  induction p.toList with
  | nil => rfl
  | cons c p ih =>
    show (if c == c then p.isPrefixOf? (p ++ s) else none) = some s
    rw [if_pos (beq_self_eq_true c), ih]

theorem cutWhere?_eq_some {p : α → Bool} {s l r : List α} (h : cutWhere? p s = some (l, r)) :
    ∃ x, p x = true ∧ s = l ++ x :: r ∧ ∀ y ∈ l, p y = false := by
  induction s generalizing l with
  | nil => simp [cutWhere?] at h
  | cons a s ih =>
    unfold cutWhere? at h
    split at h
    · next ha => simp only [Option.some.injEq, Prod.mk.injEq] at h; exact ⟨a, ha, by simp [← h.1, h.2]⟩
    · next ha =>
      obtain ⟨⟨l', r'⟩, h', he⟩ := Option.map_eq_some_iff.1 h
      obtain ⟨rfl, rfl⟩ := Prod.mk.inj he
      obtain ⟨x, hx, hs, hl⟩ := ih h'
      refine ⟨x, hx, by simp [hs], fun y hy => ?_⟩
      rcases List.mem_cons.1 hy with rfl | hy
      · simpa using ha
      · exact hl y hy

theorem cut?_eq_some {c : Char} {s l r : List Char} (h : cut? c s = some (l, r)) :
    s = l ++ c :: r ∧ c ∉ l := by
  obtain ⟨x, hx, hs, hl⟩ := cutWhere?_eq_some h
  obtain rfl : x = c := by simpa using hx
  exact ⟨hs, fun hm => by simpa using hl _ hm⟩

theorem cut?_eq_none {c : Char} {s : List Char} (h : c ∉ s) : cut? c s = none := by
  rcases hcut : cut? c s with _ | ⟨l, r⟩
  · rfl
  · obtain ⟨rfl, -⟩ := cut?_eq_some hcut
    exact absurd (by simp) h

theorem cut?_append {c : Char} {l : List Char} (hl : c ∉ l) (r : List Char) : cut? c (l ++ c :: r) = some (l, r) := by
  unfold cut?
  induction l with
  | nil => simp [cutWhere?]
  | cons d l ih =>
    have hd : d ≠ c := fun h => hl (by simp [h])
    rw [List.cons_append, cutWhere?, if_neg (by simpa using hd), ih fun h => hl (List.mem_cons_of_mem _ h)]
    rfl

end BareImports.Text
