import BareImports.Manifest
import Mathlib.Data.List.Basic

/-!
# Paths that manifests name

* `FileName.getLast?_of_extension` : a path with an extension does not end with a slash;
* `Path.head?_normalize` : a path that does not begin with a slash still does not in its shortest spelling;
* `Manifest.head?_entry` : the entry of a package does not begin with a slash.
-/

namespace BareImports

open Text

/-- A path with an extension does not end with a slash. -/
theorem FileName.getLast?_of_extension {p : List Char} (h : extension p ≠ []) :
    ∃ c, p.getLast? = some c ∧ c ≠ '/' := by
  rcases List.eq_nil_or_concat p with rfl | ⟨q, c, rfl⟩
  · exact absurd (by decide) h
  rw [List.concat_eq_append] at h ⊢
  refine ⟨c, by simp, ?_⟩
  rintro rfl
  have hcut : cutLast? '/' (q ++ ['/']) = some (q, []) := by
    simp [cutLast?, cut?, cutWhere?]
  have hbase : base (q ++ ['/']) = [] := by
    unfold base
    rw [hcut]
    rfl
  unfold extension at h
  rw [hbase] at h
  exact h (by decide)

/-! ## The shortest spelling -/

namespace Path

theorem mem_normalizeStep {rooted : Bool} {done : List (List Char)} {seg g : List Char}
    (h : g ∈ normalizeStep rooted done seg) : g ∈ done ∨ g = seg ∧ seg ≠ [] := by
  unfold normalizeStep at h
  split at h
  · exact Or.inl h
  · next hseg =>
    have hne : seg ≠ [] := fun hnil => hseg (by simp [hnil])
    split at h
    · exact (List.mem_cons.1 h).symm.imp_right fun hg => ⟨hg, hne⟩
    · split at h
      · split at h
        · exact absurd h (by simp)
        · exact Or.inr ⟨List.mem_singleton.1 h, hne⟩
      · next d rest =>
        split at h
        · exact (List.mem_cons.1 h).symm.imp_right fun hg => ⟨hg, hne⟩
        · exact Or.inl (List.mem_cons_of_mem _ h)

theorem mem_normalSegments {rooted : Bool} {segs : List (List Char)} {g : List Char}
    (h : g ∈ normalSegments rooted segs) : g ∈ segs ∧ g ≠ [] := by
  have hfold : ∀ (segs done : List (List Char)), (∀ x ∈ segs.foldl (normalizeStep rooted) done,
      x ∈ done ∨ x ∈ segs ∧ x ≠ []) := by
    intro segs
    induction segs with
    | nil => exact fun done x hx => Or.inl hx
    | cons seg segs ih =>
      intro done x hx
      rcases ih _ x hx with hx | ⟨hx, hne⟩
      · exact (mem_normalizeStep hx).imp_right fun ⟨he, hne⟩ => ⟨by simp [he], he ▸ hne⟩
      · exact Or.inr ⟨List.mem_cons_of_mem _ hx, hne⟩
  unfold normalSegments at h
  exact (hfold segs [] g (List.mem_reverse.1 h)).resolve_left (by simp)

theorem not_mem_of_mem_splitOn {mark : Char} {s g : List Char} (h : g ∈ s.splitOn mark) : mark ∉ g := by
  induction s generalizing g with
  | nil =>
    rw [List.splitOn_nil, List.mem_singleton] at h
    simp [h]
  | cons c s ih =>
    rw [List.splitOn_cons_eq_if_modifyHead] at h
    split at h
    · rcases List.mem_cons.1 h with rfl | h
      · simp
      · exact ih h
    · next hc =>
      obtain ⟨first, rest, hs⟩ := List.exists_cons_of_ne_nil (List.splitOn_ne_nil mark s)
      rw [hs, List.modifyHead_cons] at h
      rcases List.mem_cons.1 h with rfl | h
      · have hfirst : mark ∉ first := ih (by simp [hs])
        simp only [beq_iff_eq] at hc
        simp [hfirst, Ne.symm hc]
      · exact ih (by simp [hs, h])

theorem head?_normalize {p : List Char} (h : p.head? ≠ some '/') : (normalize p).head? ≠ some '/' := by
  have hroot : root p = [] := by
    unfold root
    split <;> simp_all
  unfold normalize
  rw [hroot]
  dsimp only
  split
  · simp
  rcases hsegs : normalSegments (!([] : List Char).isEmpty) (segments p) with _ | ⟨first, rest⟩
  · simp
  · have hmem : first ∈ normalSegments (!([] : List Char).isEmpty) (segments p) := by rw [hsegs]; simp
    obtain ⟨hfirst, hne⟩ := mem_normalSegments hmem
    have hslash := not_mem_of_mem_splitOn hfirst
    obtain ⟨c, s, rfl⟩ := List.exists_cons_of_ne_nil hne
    have hc : c ≠ '/' := fun hc => hslash (by simp [hc])
    cases rest <;> simp [List.intercalate, hc]

end Path

/-! ## Entries -/

theorem FileName.head?_normalizeEntry (path : List Char) : (normalizeEntry path).head? ≠ some '/' := by
  have hdrop : ((strip path).dropWhile (· == '/')).head? ≠ some '/' := by
    intro h
    have hnot := List.head?_dropWhile_not (· == '/') (strip path)
    rw [h] at hnot
    simp at hnot
  unfold normalizeEntry
  dsimp only
  split
  · simp
  · split
    · simp
    · exact Path.head?_normalize hdrop

/-- The entry of a package does not begin with a slash. -/
theorem Manifest.head?_entry (m : Value) : (entry m).toList.head? ≠ some '/' := by
  have hpath : ∀ field path, path? m field = some path → path.head? ≠ some '/' := by
    intro field path h
    unfold path? at h
    split at h
    · dsimp only at h
      split at h
      · exact absurd h (by simp)
      · rw [← Option.some.inj h]
        exact FileName.head?_normalizeEntry _
    · exact absurd h (by simp)
  unfold entry
  split
  · next path h =>
    rw [String.toList_ofList]
    rw [Option.orElse_eq_orElse, Option.orElse_eq_or, Option.or_eq_some_iff] at h
    rcases h with h | ⟨-, h⟩
    · exact hpath _ _ h
    · exact hpath _ _ h
  · decide

end BareImports
