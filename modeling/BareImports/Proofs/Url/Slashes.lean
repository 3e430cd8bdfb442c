import BareImports.Proofs.FileName
import BareImports.Url.Join

/-!
# Paths without empty steps

* `Single s` : no slash of a text stands right behind another one;
* `single_intercalate` : so it is with segments of which only the first and the last may be empty;
* `single_mergePath`, `single_putParams` : so it is with the path of a relative reference.
-/

namespace BareImports.Url

open Text

/-- No slash of a text stands right behind another one. -/
def Single (s : List Char) : Prop := ¬ ['/', '/'] <:+: s

theorem Single.within {s t : List Char} (ht : Single t) (h : s <:+: t) : Single s := fun hs => ht (hs.trans h)

theorem single_cons {c : Char} {s : List Char} : Single (c :: s) ↔ ¬ (c = '/' ∧ s.head? = some '/') ∧ Single s := by
  have hprefix : ['/', '/'] <+: c :: s ↔ c = '/' ∧ s.head? = some '/' := by
    rw [List.cons_prefix_cons, eq_comm]
    refine and_congr_right fun _ => ?_
    cases s with
    | nil => simp
    | cons d s => simp [eq_comm]
  unfold Single
  rw [List.infix_cons_iff, hprefix, not_or]

theorem single_of_not_mem {s : List Char} (h : '/' ∉ s) : Single s := fun hs => h (hs.subset (by simp))

theorem single_append_left {g s : List Char} (hg : '/' ∉ g) (hs : Single s) : Single (g ++ s) := by
  induction g with
  | nil => exact hs
  | cons c g ih =>
    rw [List.cons_append, single_cons]
    exact ⟨fun h => hg (by simp [h.1]), ih fun h => hg (List.mem_cons_of_mem _ h)⟩

theorem single_append_right {s g : List Char} (hs : Single s) (hg : '/' ∉ g) : Single (s ++ g) := by
  induction s with
  | nil => exact single_of_not_mem hg
  | cons c s ih =>
    rw [single_cons] at hs
    rw [List.cons_append, single_cons]
    refine ⟨fun h => ?_, ih hs.2⟩
    cases s with
    | nil => exact hg (List.mem_of_mem_head? h.2)
    | cons d s => exact hs.1 ⟨h.1, by simpa using h.2⟩

/-- Segments of which only the first and the last may be empty. -/
theorem single_intercalate {segs : List (List Char)} (hslash : ∀ g ∈ segs, '/' ∉ g)
    (hinner : ∀ g ∈ segs.tail.dropLast, g ≠ []) : Single (['/'].intercalate segs) := by
  induction segs with
  | nil => exact single_of_not_mem (by simp)
  | cons g segs ih =>
    cases segs with
    | nil => exact single_of_not_mem (by simpa using hslash g (by simp))
    | cons x rest =>
      have hsplit : ['/'].intercalate (g :: x :: rest) = g ++ '/' :: ['/'].intercalate (x :: rest) := by
        simp [List.intercalate]
      rw [hsplit]
      refine single_append_left (hslash g (by simp)) (single_cons.2 ⟨fun h => ?_, ih ?_ ?_⟩)
      · -- the next segment is the last one, or it is not empty
        cases rest with
        | nil =>
          have hx : x.head? = some '/' := by simpa [List.intercalate] using h.2
          exact hslash x (by simp) (List.mem_of_mem_head? hx)
        | cons y rest =>
          obtain ⟨c, s, rfl⟩ := List.exists_cons_of_ne_nil (hinner x (by simp))
          have hc : c = '/' := by simpa [List.intercalate] using h.2
          exact hslash (c :: s) (by simp) (by simp [hc])
      · exact fun k hk => hslash k (List.mem_cons_of_mem _ hk)
      · refine fun k hk => hinner k ?_
        cases rest with
        | nil => simp at hk
        | cons y rest =>
          rw [List.tail_cons] at hk ⊢
          rw [List.dropLast_cons_of_ne_nil (by simp)]
          exact List.mem_cons_of_mem _ hk

/-! ## Segments without dot segments -/

theorem mem_dotStep {done : List (List Char)} {seg g : List Char} (h : g ∈ dotStep done seg) : g ∈ done ∨ g = seg := by
  unfold dotStep at h
  split at h
  · exact Or.inl (List.mem_of_mem_tail h)
  · split at h
    · exact Or.inl h
    · exact (List.mem_cons.1 h).symm

theorem dropLast_dotStep {done : List (List Char)} {seg : List Char} (hdone : ∀ g ∈ done.dropLast, g ≠ [])
    (hseg : seg ≠ []) : ∀ g ∈ (dotStep done seg).dropLast, g ≠ [] := by
  unfold dotStep
  intro g hg
  split at hg
  · refine hdone g ?_
    cases done with
    | nil => simp at hg
    | cons d done =>
      cases done with
      | nil => simp at hg
      | cons e done =>
        rw [List.dropLast_cons_of_ne_nil (by simp)]
        exact List.mem_cons_of_mem _ hg
  · split at hg
    · exact hdone g hg
    · cases done with
      | nil => simp at hg
      | cons d done =>
        rw [List.dropLast_cons_of_ne_nil (by simp)] at hg
        rcases List.mem_cons.1 hg with rfl | hg
        · exact hseg
        · exact hdone g hg

theorem foldl_dotStep {segs done : List (List Char)} (hdone : ∀ g ∈ done.dropLast, g ≠ [])
    (hsegs : ∀ g ∈ segs, g ≠ []) : ∀ g ∈ (segs.foldl dotStep done).dropLast, g ≠ [] := by
  induction segs generalizing done with
  | nil => exact hdone
  | cons seg segs ih =>
    exact ih (dropLast_dotStep hdone (hsegs seg (by simp))) fun g hg => hsegs g (List.mem_cons_of_mem _ hg)

theorem mem_foldl_dotStep {segs done : List (List Char)} {g : List Char} (h : g ∈ segs.foldl dotStep done) :
    g ∈ done ∨ g ∈ segs := by
  induction segs generalizing done with
  | nil => exact Or.inl h
  | cons seg segs ih =>
    rcases ih h with h | h
    · exact (mem_dotStep h).imp_right fun h => by simp [h]
    · exact Or.inr (List.mem_cons_of_mem _ h)

/-- Segments of which only the first and the last are empty stay such without their dot segments. -/
theorem single_removeDots {first last : List Char} {mid : List (List Char)} (hmid : ∀ g ∈ mid, g ≠ [])
    (hslash : ∀ g ∈ first :: mid ++ [last], '/' ∉ g) :
    Single (['/'].intercalate (removeDots (first :: mid ++ [last]))) := by
  have hfirst : ∀ g ∈ (dotStep [] first).dropLast, g ≠ [] := by
    unfold dotStep
    split
    · simp
    · split <;> simp
  have hdone := foldl_dotStep hfirst hmid
  have hmem : ∀ g ∈ mid.foldl dotStep (dotStep [] first), '/' ∉ g := by
    intro g hg
    refine hslash g ?_
    rcases mem_foldl_dotStep hg with hg | hg
    · have hg' := (mem_dotStep hg).resolve_left (by simp)
      simp [hg']
    · simp [hg]
  -- whatever comes last, what stands before it is a beginning of the segments or all of them
  have hend : ∀ (done : List (List Char)) (x : List Char), (∀ g ∈ done.dropLast, g ≠ []) → (∀ g ∈ done, '/' ∉ g) →
      '/' ∉ x → Single (['/'].intercalate (x :: done).reverse) := by
    intro done x hne hno hx
    refine single_intercalate (fun g hg => ?_) fun g hg => ?_
    · rcases List.mem_cons.1 (List.mem_reverse.1 hg) with rfl | hg
      · exact hx
      · exact hno g hg
    · rw [List.tail_reverse, List.dropLast_reverse] at hg
      cases done with
      | nil => simp at hg
      | cons d done =>
        rw [List.dropLast_cons_of_ne_nil (by simp), List.tail_cons, List.mem_reverse] at hg
        exact hne g hg
  have htail : ∀ g ∈ (mid.foldl dotStep (dotStep [] first)).tail.dropLast, g ≠ [] := by
    intro g hg
    refine hdone g ?_
    rw [← List.tail_dropLast] at hg
    exact List.mem_of_mem_tail hg
  have hfold : (first :: mid ++ [last]).foldl dotStep [] =
      dotStep (mid.foldl dotStep (dotStep [] first)) last := by
    rw [List.foldl_append, List.foldl_cons, List.foldl_cons, List.foldl_nil]
  unfold removeDots
  dsimp only
  rw [hfold, List.getLast?_append, List.getLast?_singleton, Option.some_or]
  unfold dotStep
  by_cases hup : last = ['.', '.']
  · rw [if_pos (by simp [hup]), if_pos (by simp [hup])]
    exact hend _ [] htail (fun g hg => hmem g (List.mem_of_mem_tail hg)) (by simp)
  · by_cases hhere : last = ['.']
    · rw [if_pos (by simp [hhere]), if_neg (by simp [hhere]), if_pos (by simp [hhere])]
      exact hend _ [] hdone hmem (by simp)
    · rw [if_neg (by simp [hup, hhere]), if_neg (by simpa using hup), if_neg (by simpa using hhere)]
      exact hend _ last hdone hmem (hslash last (by simp))

end BareImports.Url
