import BareImports.Table
import Mathlib.Data.List.Basic
import Mathlib.Data.List.Induction

/-!
# What a table holds after a change

* `lookup_update` : the value of a key after a change;
* `mem_put`, `mem_put_self`, `mem_put_of_ne` : the members of a table in which a key was set;
* `nodup_put` : its keys stay distinct;
* `lookup_foldl_put` : in a table that was filled entry by entry the last value of a key counts.
-/

namespace BareImports.Table

variable {α β : Type} [BEq α] [LawfulBEq α]

omit [LawfulBEq α] in
theorem put_cons (e : α × β) (t : List (α × β)) (k : α) (v : β) :
    put (e :: t) k v = if e.1 == k then (e.1, v) :: t else e :: put t k v := rfl

theorem lookup_update (k : α) (f : Option β → β) (t : List (α × β)) (k' : α) :
    (update k f t).lookup k' = if k' == k then some (f (t.lookup k)) else t.lookup k' := by
  induction t with
  | nil =>
    by_cases hk : k' = k
    · simp [update, hk]
    · simp [update, List.lookup_cons, beq_eq_false_iff_ne.2 hk]
  | cons e t ih =>
    obtain ⟨a, b⟩ := e
    unfold update
    by_cases ha : a = k
    · rw [if_pos (by simpa using ha), List.lookup_cons, List.lookup_cons]
      by_cases hk : k' = k
      · simp [hk, ha]
      · simp [List.lookup_cons, beq_eq_false_iff_ne.2 hk, ha]
    · rw [if_neg (by simpa using ha), List.lookup_cons, List.lookup_cons, ih]
      by_cases hk : k' = k
      · simp [hk, beq_eq_false_iff_ne.2 (Ne.symm ha)]
      · simp [List.lookup_cons, beq_eq_false_iff_ne.2 hk]

theorem mem_put {t : List (α × β)} {k : α} {v : β} {e : α × β} (h : e ∈ put t k v) : e = (k, v) ∨ e ∈ t := by
  induction t with
  | nil => exact Or.inl (by simpa [put, update] using h)
  | cons a t ih =>
    rw [put_cons] at h
    split at h
    · next ha =>
      rcases List.mem_cons.1 h with rfl | h
      · exact Or.inl (by rw [beq_iff_eq.1 ha])
      · exact Or.inr (List.mem_cons_of_mem _ h)
    · rcases List.mem_cons.1 h with rfl | h
      · exact Or.inr List.mem_cons_self
      · exact (ih h).imp_right (List.mem_cons_of_mem _)

theorem mem_put_self (t : List (α × β)) (k : α) (v : β) : (k, v) ∈ put t k v := by
  induction t with
  | nil => simp [put, update]
  | cons a t ih =>
    rw [put_cons]
    split
    · next ha => rw [beq_iff_eq.1 ha]; exact List.mem_cons_self
    · exact List.mem_cons_of_mem _ ih

theorem mem_put_of_ne {t : List (α × β)} {k : α} {v : β} {e : α × β} (h : e ∈ t) (hk : e.1 ≠ k) : e ∈ put t k v := by
  induction t with
  | nil => exact absurd h (by simp)
  | cons a t ih =>
    rw [put_cons]
    split
    · next ha =>
      rcases List.mem_cons.1 h with rfl | h
      · exact absurd (beq_iff_eq.1 ha) hk
      · exact List.mem_cons_of_mem _ h
    · rcases List.mem_cons.1 h with rfl | h
      · exact List.mem_cons_self
      · exact List.mem_cons_of_mem _ (ih h)

theorem nodup_put {t : List (α × β)} (h : (t.map (·.1)).Nodup) (k : α) (v : β) : ((put t k v).map (·.1)).Nodup := by
  induction t with
  | nil => simp [put, update]
  | cons a t ih =>
    rw [List.map_cons, List.nodup_cons] at h
    rw [put_cons]
    split
    · next ha => simpa using h
    · next ha =>
      rw [List.map_cons, List.nodup_cons]
      refine ⟨fun hmem => ?_, ih h.2⟩
      obtain ⟨e, he, hname⟩ := List.mem_map.1 hmem
      rcases mem_put he with rfl | he
      · exact ha (by simpa using hname.symm)
      · exact h.1 (hname ▸ List.mem_map_of_mem he)

theorem lookup_foldl_put (entries : List (α × β)) (t : List (α × β)) (k : α) :
    (entries.foldl (fun t (k, v) => put t k v) t).lookup k = (entries.reverse.lookup k).or (t.lookup k) := by
  induction entries using List.reverseRecOn with
  | nil => rfl
  | append_singleton entries e ih =>
    obtain ⟨k', v⟩ := e
    rw [List.foldl_append, List.foldl_cons, List.foldl_nil, List.reverse_append, List.reverse_singleton,
      List.singleton_append, List.lookup_cons]
    by_cases hk : k = k'
    · rw [hk, lookup_put_self]
      simp
    · rw [lookup_put_of_ne _ _ hk, ih, beq_eq_false_iff_ne.2 hk]

theorem mem_of_lookup {t : List (α × β)} {k : α} {v : β} (h : t.lookup k = some v) : (k, v) ∈ t := by
  obtain ⟨before, behind, ht, -⟩ := List.lookup_eq_some_iff.1 h
  rw [ht]
  simp

theorem mem_of_lookup_foldl_put {entries : List (α × β)} {k : α} {v : β}
    (h : (entries.foldl (fun t (k, v) => put t k v) []).lookup k = some v) : (k, v) ∈ entries := by
  rw [lookup_foldl_put, List.lookup_nil, Option.or_none] at h
  exact List.mem_reverse.1 (mem_of_lookup h)

/-- A key that always comes with the same value has that value in the end. -/
theorem lookup_foldl_put_of_mem {entries : List (α × β)} {k : α} {v : β} (h : (k, v) ∈ entries)
    (hone : ∀ v', (k, v') ∈ entries → v' = v) :
    (entries.foldl (fun t (k, v) => put t k v) []).lookup k = some v := by
  rcases hl : (entries.foldl (fun t (k, v) => put t k v) []).lookup k with _ | v'
  · rw [lookup_foldl_put, List.lookup_nil, Option.or_none] at hl
    exact absurd (List.lookup_eq_none_iff.1 hl _ (List.mem_reverse.2 h)) (by simp)
  · rw [hl, hone v' (mem_of_lookup_foldl_put hl)]

end BareImports.Table
