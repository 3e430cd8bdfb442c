import BareImports.Proofs.Cdn.Requests

/-!
# How calls go on

* `Wait.early`, `Cache.ready`, `Cache.pending` : whether a call has still to find the download that answers it, whether
  it can go on, and how many requests are in flight;
* `Advances c w o` : all that becomes of a call that goes on, `resume_advances`;
* `inFlight_ne_nil` : a call that cannot go on waits for a request in flight.
-/

namespace BareImports.Cdn

/-- Whether a call has still to find the download that answers it. -/
def Wait.early : Wait → Nat
  | .outcome _ => 0
  | .turn _ | .version .. | .request .. => 1

namespace Cache

/-- How many requests are in flight. -/
def pending (c : Cache) : Nat := c.downloads.countP (·.outcome.isNone)

/-- Whether a call can go on. -/
def ready (c : Cache) : Wait → Nat
  | .turn _ => 1
  | .version _ n | .request _ n | .outcome n => (c.outcome? n).isSome.toNat

section

variable {c : Cache} {l : Location} {w : Wait} {g : Goal}

theorem pending_startDownload (exact : Bool) : (c.startDownload l exact).pending = c.pending + 1 := by
  unfold pending startDownload
  simp

/-- What becomes of a call that goes on. -/
inductive Advances (c : Cache) (w : Wait) {g : Goal} : Cache × Status g → Prop
  /-- It has its result. -/
  | done (x : Except Failure g.Result) : Advances c w (c, .done x)
  /-- It has found the download that answers it, or has started one. -/
  | finds {c' : Cache} {w' : Wait} (h : 2 * w'.early + c'.pending < 2 * w.early + c.pending) :
    Advances c w (c', .waiting w')
  /-- It waits for another download, which finds a version out. -/
  | turns {w' : Wait} (he : w'.early = w.early) (hr : c.ready w' < c.ready w) : Advances c w (c, .waiting w')
  /-- It cannot go on. -/
  | stays (h : c.ready w = 0) : Advances c w (c, .waiting w)

theorem await_advances (hw : w.early = 1) (n : Nat) : Advances c w (c, c.await g n) := by
  unfold await
  split
  · exact .done _
  · refine .finds ?_
    rw [hw]
    simp [Wait.early]

theorem obtain_advances (hw : w.early = 1) (l : Location) (exact : Bool) : Advances c w (c.obtain g l exact) := by
  unfold obtain
  split
  · exact .done _
  · exact await_advances hw _
  · have hnone : (c.startDownload l exact).outcome? c.downloads.length = none := by
      unfold outcome?
      rw [getElem?_startDownload, if_pos rfl]
      rfl
    dsimp only
    unfold await
    rw [hnone]
    refine .finds ?_
    rw [hw, pending_startDownload]
    simp [Wait.early]
    omega

theorem request_advances (hc : Sound c) (hw : w.early = 1) (hr : c.ready w = 1) (l : Location) :
    Advances c w (c.request g l) := by
  unfold request
  split
  · exact obtain_advances hw _ true
  · exact obtain_advances hw l false
  · next n h =>
    obtain ⟨-, -, -, hn⟩ := version_eq_pending hc h
    refine .turns hw.symm ?_
    rw [hr, ready, hn]
    exact Nat.zero_lt_one

theorem settle_advances (hc : Sound c) (hw : w.early = 1) (hr : c.ready w = 1) (l : Location) :
    Advances c w (c.settle g l) := by
  unfold settle
  split
  · exact .done _
  · exact request_advances hc hw hr l

theorem start_advances (hc : Sound c) (hw : w.early = 1) (hr : c.ready w = 1) (l : Location) :
    Advances c w (c.start g l) := by
  unfold start
  split
  · split
    · exact settle_advances hc hw hr _
    · exact request_advances hc hw hr l
    · next n h =>
      obtain ⟨-, -, -, hn⟩ := version_eq_pending hc h
      refine .turns hw.symm ?_
      rw [hr, ready, hn]
      exact Nat.zero_lt_one
  · exact request_advances hc hw hr l

/-- What becomes of a call that goes on. -/
theorem resume_advances (hc : Sound c) (w : Wait) : Advances c w (c.resume g w) := by
  cases w with
  | turn l => exact start_advances hc rfl rfl l
  | outcome n =>
    simp only [resume, await]
    rcases ho : c.outcome? n with _ | x
    · exact .stays (by simp [ready, ho])
    · exact .done _
  | version l n =>
    simp only [resume]
    rcases ho : c.outcome? n with _ | x
    · exact .stays (by simp [ready, ho])
    · have hr : c.ready (.version l n) = 1 := by simp [ready, ho]
      rcases hv : c.versionOf? n with _ | v
      · exact start_advances hc rfl hr l
      · exact settle_advances hc rfl hr _
  | request l n =>
    simp only [resume]
    rcases ho : c.outcome? n with _ | x
    · exact .stays (by simp [ready, ho])
    · have hr : c.ready (.request l n) = 1 := by simp [ready, ho]
      rcases hv : c.versionOf? n with _ | v
      · exact request_advances hc rfl hr l
      · exact obtain_advances rfl _ true

/-- A call that cannot go on waits for a request in flight. -/
theorem inFlight_ne_nil (hw : c.Expects l w) (h : c.ready w = 0) : c.inFlight ≠ [] := by
  have hflight : ∀ (n : Nat) (d : Download), c.downloads[n]? = some d → c.outcome? n = none → c.inFlight ≠ [] := by
    intro n d hd ho hnil
    have hmem : (n, c.urlOf d) ∈ c.inFlight := mem_inFlight.2 ⟨d, hd, by simpa [outcome?, hd] using ho, rfl⟩
    rw [hnil] at hmem
    exact absurd hmem (by simp)
  cases hw with
  | turn => exact absurd h (by simp [ready])
  | version hm hx hn =>
    obtain ⟨d, hd, -⟩ := hn
    exact hflight _ d hd (by simpa [ready] using h)
  | request hm hx hn =>
    obtain ⟨d, hd, -⟩ := hn
    exact hflight _ d hd (by simpa [ready] using h)
  | outcome hm hd hk => exact hflight _ _ hd (by simpa [ready] using h)

/-- A call that does nothing when it goes on waits for a request in flight. -/
theorem inFlight_of_stays (hc : Sound c) (hw : c.Expects l w) (h : c.resume g w = (c, .waiting w)) : c.inFlight ≠ [] := by
  have hadv := resume_advances (g := g) hc w
  rw [h] at hadv
  cases hadv with
  | finds h => exact absurd h (Nat.lt_irrefl _)
  | turns he hr => exact absurd hr (Nat.lt_irrefl _)
  | stays h => exact inFlight_ne_nil hw h

/-- The answer to a request in flight leaves one less. -/
theorem pending_complete {n : Nat} {url : String} (h : (n, url) ∈ c.inFlight) (a : Answer) :
    (c.complete n a).pending < c.pending := by
  obtain ⟨d, hd, ho, -⟩ := mem_inFlight.1 h
  have hset : (c.complete n a).downloads = c.downloads.set n { d with outcome := some (c.judge d a) } := by
    refine List.ext_getElem? fun k => ?_
    rw [getElem?_complete hd ho, List.getElem?_set]
    by_cases hk : k = n
    · rw [if_pos hk, if_pos hk.symm, if_pos (lt_of_getElem? hd)]
    · rw [if_neg hk, if_neg (Ne.symm hk)]
  have hlt := lt_of_getElem? hd
  have hget : c.downloads[n] = d := Option.some.inj ((List.getElem?_eq_getElem hlt).symm.trans hd)
  have hpos : 0 < c.pending := List.countP_pos_iff.2 ⟨d, List.mem_of_getElem? hd, by simp [ho]⟩
  unfold pending at hpos ⊢
  rw [hset, List.countP_set hlt, hget, ho]
  simp only [Option.isNone_none, Option.isNone_some, if_true, Bool.false_eq_true, if_false]
  omega

end

end Cache

end BareImports.Cdn
