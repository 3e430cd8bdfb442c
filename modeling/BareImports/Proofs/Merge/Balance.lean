import BareImports.Merge.Basic

/-!
# The count of a merge

* `Merge.ends q` : how many ends of producers are in a queue;
* `Merge.Balanced n m` : with `n` producers that may still add to it, the count of `m` is that of the ends to come and of
  those in the queue;
* `Balanced.add`, `Balanced.put`, `Balanced.close`, `Balanced.take` : what producers and the consumer do keeps it;
* `Balanced.over` : a stream that is over has no producer and an empty queue.
-/

namespace BareImports.Merge

variable {α : Type} {n : Nat} {m m' : Merge α}

/-- How many ends of producers are in a queue. -/
def ends (q : List (Option α)) : Nat := q.countP (·.isNone)

theorem ends_append (q q' : List (Option α)) : ends (q ++ q') = ends q + ends q' := List.countP_append

theorem ends_some (a : α) (q : List (Option α)) : ends (some a :: q) = ends q := by simp [ends]

theorem ends_none (q : List (Option α)) : ends (none :: q) = ends q + 1 := by simp [ends]

/-- The count of a merge to which `n` producers may still add. -/
structure Balanced (n : Nat) (m : Merge α) : Prop where
  /-- The count is that of the ends to come and of those in the queue. -/
  outstanding : m.outstanding = n + ends m.queue
  /-- Behind the last producer, the last entry is an end. -/
  last : n = 0 → ∀ e ∈ m.queue.getLast?, e = none

theorem balanced_empty : Balanced 0 ({} : Merge α) := ⟨rfl, by simp⟩

theorem Balanced.add (h : m.Balanced n) : m.add.Balanced (n + 1) := by
  refine ⟨?_, fun h0 => absurd h0 (by omega)⟩
  have hout := h.outstanding
  unfold Merge.add
  dsimp only
  omega

theorem Balanced.put (h : m.Balanced n) (hn : n ≠ 0) (a : α) : (m.put a).Balanced n := by
  refine ⟨?_, fun h0 => absurd h0 hn⟩
  have hout := h.outstanding
  unfold Merge.put
  dsimp only
  rw [ends_append, ends_some]
  exact hout

theorem Balanced.close (h : m.Balanced (n + 1)) : m.close.Balanced n := by
  refine ⟨?_, fun _ e he => ?_⟩
  · have hout := h.outstanding
    unfold Merge.close
    dsimp only
    rw [ends_append, ends_none, show ends ([] : List (Option α)) = 0 from rfl]
    omega
  · unfold Merge.close at he
    simpa using he.symm

/-- An entry is taken from the front of the queue. -/
theorem take?_eq_some {e : Option α} (h : m.take? = some (e, m')) : m.queue = e :: m'.queue ∧
    m'.outstanding = m.outstanding - if e.isNone then 1 else 0 := by
  unfold take? at h
  split at h
  · exact absurd h (by simp)
  · next a q hq =>
    obtain ⟨rfl, rfl⟩ := Prod.mk.inj (Option.some.inj h)
    exact ⟨hq, rfl⟩
  · next q hq =>
    obtain ⟨rfl, rfl⟩ := Prod.mk.inj (Option.some.inj h)
    exact ⟨hq, rfl⟩

theorem Balanced.take {e : Option α} (h : m.Balanced n) (ht : m.take? = some (e, m')) : m'.Balanced n := by
  obtain ⟨hq, hout⟩ := take?_eq_some ht
  have hbal := h.outstanding
  rw [hq] at hbal
  refine ⟨?_, fun h0 e' he' => h.last h0 e' ?_⟩
  · cases e with
    | none =>
      rw [ends_none] at hbal
      rw [hout, hbal]
      rfl
    | some a =>
      rw [ends_some] at hbal
      rw [hout, hbal]
      rfl
  · rw [hq, List.getLast?_cons]
    rw [Option.mem_def] at he'
    simp [he']

/-- In a stream that is over, no producer is left and the queue is empty. -/
theorem Balanced.over (h : m.Balanced n) (ho : m.isOver = true) : n = 0 ∧ m.queue = [] ∧ m.outstanding = 0 := by
  have hzero : m.outstanding = 0 := by simpa [isOver] using ho
  have hout := h.outstanding
  have hends : ends m.queue = 0 := by omega
  refine ⟨by omega, ?_, hzero⟩
  -- a queue that is not empty would have an end in it
  rcases List.eq_nil_or_concat m.queue with hnil | ⟨q, e, hq⟩
  · exact hnil
  · have hlast := h.last (by omega) e (by rw [hq]; simp)
    rw [hq, List.concat_eq_append, hlast, ends_append, ends_none] at hends
    omega

/-- Behind the last producer, a stream with an empty queue is over. -/
theorem Balanced.isOver (h : m.Balanced 0) (hq : m.queue = []) : m.isOver = true := by
  have hout := h.outstanding
  rw [hq] at hout
  simpa [Merge.isOver, ends] using hout

/-- Behind the last producer, a stream is not over as long as anything is in the queue. -/
theorem Balanced.not_isOver (h : m.Balanced n) (hq : m.queue ≠ []) : m.isOver = false := by
  rw [Bool.eq_false_iff]
  exact fun ho => hq (h.over ho).2.1

end BareImports.Merge
