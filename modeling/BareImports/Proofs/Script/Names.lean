import BareImports.Script.Declarations
import Mathlib.Data.List.Infix

/-!
# What a text refers to is written in it

* `rest_advance`, `firstPart?_suffix`, `firstOf?_suffix` : the parts of a tree stand further on in the text;
* `literalAt?_isInfix`, `named?_isInfix`, `moduleNames_isInfix` : the names in a tree are written in its text;
* `imports_isInfix` : so are the modules that a declaration file imports; `references_empty`.
-/

namespace BareImports.Script

variable {c c' : Cursor} {t t' : Tree} {x : String}

/-! ## Places further on -/

theorem rest_advance (n : Nat) (c : Cursor) : (c.advance n).rest <:+ c.rest := by
  induction n generalizing c with
  | zero => exact List.suffix_rfl
  | succ n ih =>
    rcases c with ⟨k, _ | ⟨x, r⟩⟩
    · exact List.suffix_rfl
    · exact (ih ⟨k + 1, r⟩).trans (List.suffix_cons x r)

mutual

theorem firstPart?_suffix {p : Kind → Bool} {c c' : Cursor} {t t' : Tree} (h : t.firstPart? p c = some (c', t')) :
    c'.rest <:+ c.rest := by
  cases t with
  | mk f children =>
    unfold Tree.firstPart? at h
    split at h
    · split at h
      · obtain ⟨rfl, -⟩ := Prod.mk.inj (Option.some.inj h)
        exact List.suffix_rfl
      · exact absurd h (by simp)
    · exact firstPartIn_suffix h

theorem firstPartIn_suffix {p : Kind → Bool} {c c' : Cursor} {ts : List Tree} {t' : Tree}
    (h : firstPartIn p c ts = some (c', t')) : c'.rest <:+ c.rest := by
  cases ts with
  | nil => exact absurd h (by simp [firstPartIn])
  | cons t ts =>
    unfold firstPartIn at h
    rcases hfirst : t.firstPart? p c with _ | found
    · rw [hfirst] at h
      exact (firstPartIn_suffix h).trans (rest_advance _ c)
    · rw [hfirst] at h
      obtain rfl := Option.some.inj h
      exact firstPart?_suffix hfirst

end

theorem firstOf?_suffix {p : Kind → Bool} {ts : List Tree} (h : firstOf? p c ts = some (c', t')) : c'.rest <:+ c.rest := by
  induction ts generalizing c with
  | nil => exact absurd h (by simp [firstOf?])
  | cons t ts ih =>
    unfold firstOf? at h
    split at h
    · obtain ⟨rfl, -⟩ := Prod.mk.inj (Option.some.inj h)
      exact List.suffix_rfl
    · exact (ih h).trans (rest_advance _ c)

/-! ## Names -/

theorem textAt_isInfix : t.textAt c <:+: c.rest :=
  (List.take_prefix _ _).isInfix.trans (rest_advance _ c).isInfix

theorem literalAt?_isInfix (h : t.literalAt? c = some x) : x.toList <:+: c.rest := by
  unfold Tree.literalAt? at h
  split at h
  · obtain rfl := Option.some.inj h
    rw [String.toList_ofList]
    exact ((List.dropLast_prefix _).isInfix.trans (List.drop_suffix 1 _).isInfix).trans textAt_isInfix
  · exact absurd h (by simp)

theorem sourceOf?_isInfix {parts : List Tree} (h : sourceOf? c parts = some x) : x.toList <:+: c.rest := by
  unfold sourceOf? at h
  obtain ⟨⟨place, t⟩, hfound, hname⟩ := Option.bind_eq_some_iff.1 h
  refine (literalAt?_isInfix hname).trans (List.IsSuffix.isInfix ?_)
  rcases hfirst : firstOf? (fun k => k == Kind.node .stringLiteral) c parts with _ | found
  · rw [hfirst] at hfound
    obtain ⟨⟨clause, t'⟩, hclause, hin⟩ := Option.bind_eq_some_iff.1 hfound
    exact (firstOf?_suffix hin).trans (firstOf?_suffix hclause)
  · rw [hfirst] at hfound
    obtain rfl := Option.some.inj hfound
    exact firstOf?_suffix hfirst

theorem argumentOf?_isInfix {parts : List Tree} (h : argumentOf? c parts = some x) : x.toList <:+: c.rest := by
  unfold argumentOf? at h
  obtain ⟨⟨place, callee⟩, -, h⟩ := Option.bind_eq_some_iff.1 h
  dsimp only at h
  split at h
  · exact absurd h (by simp)
  · obtain ⟨⟨place', args⟩, hargs, h⟩ := Option.bind_eq_some_iff.1 h
    obtain ⟨⟨place'', arg⟩, harg, hname⟩ := Option.bind_eq_some_iff.1 h
    exact (literalAt?_isInfix hname).trans ((firstPartIn_suffix harg).trans (firstOf?_suffix hargs)).isInfix

theorem named?_isInfix {around : Surroundings} (h : t.named? around c = some x) : x.toList <:+: c.rest := by
  unfold Tree.named? at h
  split at h
  · split at h
    · exact literalAt?_isInfix h
    · exact absurd h (by simp)
  · split at h
    · exact literalAt?_isInfix h
    · exact absurd h (by simp)
  · unfold namedBy? at h
    split at h
    · exact sourceOf?_isInfix h
    · exact sourceOf?_isInfix h
    · exact sourceOf?_isInfix h
    · exact argumentOf?_isInfix h
    · exact argumentOf?_isInfix h
    · exact argumentOf?_isInfix h
    · exact argumentOf?_isInfix h
    · exact absurd h (by simp)
  · exact absurd h (by simp)

mutual

/-- The names in a tree are written in its text, and what follows it stands further on. -/
theorem moduleNames_isInfix (around : Surroundings) (c : Cursor) (t : Tree) :
    (∀ x ∈ (t.moduleNames around c).1, x.toList <:+: c.rest) ∧ (t.moduleNames around c).2.1.rest <:+ c.rest := by
  cases t with
  | mk f children =>
    have hown : ∀ x ∈ ((Tree.mk f children).named? around c).toList, x.toList <:+: c.rest := fun x hx =>
      named?_isInfix (Option.mem_toList.1 hx)
    unfold Tree.moduleNames
    dsimp only
    split
    · refine ⟨fun x hx => ?_, rest_advance _ c⟩
      dsimp only at hx
      split at hx
      · exact hown x hx
      · exact absurd hx (by simp)
    · split
      · obtain ⟨hnames, hrest⟩ := moduleNamesIn_isInfix ⟨f.kind == .fault, none⟩ c children
        exact ⟨fun x hx => (List.mem_append.1 hx).elim (hown x) (hnames x), hrest⟩
      · exact moduleNamesIn_isInfix around c children

theorem moduleNamesIn_isInfix (around : Surroundings) (c : Cursor) (ts : List Tree) :
    (∀ x ∈ (moduleNamesIn around c ts).1, x.toList <:+: c.rest) ∧ (moduleNamesIn around c ts).2.1.rest <:+ c.rest := by
  cases ts with
  | nil => exact ⟨by simp [moduleNamesIn], List.suffix_rfl⟩
  | cons t ts =>
    obtain ⟨hfirst, hbehind⟩ := moduleNames_isInfix around c t
    obtain ⟨hmore, hrest⟩ := moduleNamesIn_isInfix (t.moduleNames around c).2.2 (t.moduleNames around c).2.1 ts
    unfold moduleNamesIn
    exact ⟨fun x hx => (List.mem_append.1 hx).elim (hfirst x) fun hx => (hmore x hx).trans hbehind.isInfix,
      hrest.trans hbehind⟩

end

theorem references_imports (text : String) : (references text).imports =
    (((parse .typed text.toList).moduleNames ⟨false, none⟩ ⟨0, text.toList⟩).1.filter (· != "")).eraseDups := by
  simp only [references]

/-- The modules that a text imports are written in it. -/
theorem imports_isInfix {text : String} (h : x ∈ (references text).imports) : x ≠ "" ∧ x.toList <:+: text.toList := by
  rw [references_imports, List.mem_eraseDups, List.mem_filter] at h
  exact ⟨by simpa using h.2, (moduleNames_isInfix ⟨false, none⟩ ⟨0, text.toList⟩ _).1 x h.1⟩

/-- An empty text refers to nothing. -/
theorem references_empty : references "" = {} := by
  have himports : (references "").imports = [] := List.eq_nil_iff_forall_not_mem.2 fun x hx => by
    obtain ⟨hne, hinfix⟩ := imports_isInfix hx
    exact hne (String.toList_inj.1 (List.infix_nil.1 hinfix))
  rw [references_imports] at himports
  simp only [references, himports]
  rfl

end BareImports.Script
