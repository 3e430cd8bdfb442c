import BareImports.Proofs.Build.Progress
import Mathlib.Data.List.Nodup
import Mathlib.Data.List.Perm.Subperm
import Mathlib.Data.Nat.Pairing

/-!
# A build that goes on comes to its end

* `stuck_over` : a build without requests in flight that no move changes is over;
* `Run.after r schedule n` : what the first moves of a schedule do;
* `Fair r schedule` : every producer and every resolution goes on again and again, entries are taken and requests are
  answered; `everyMove`, a schedule that does this in any build;
* `Fair.ends` : then the stream ends, if finitely many dependencies are begun.
-/

namespace BareImports.Build.Run

open Text Cdn

variable {r : Run}

/-! ## A build that no move changes -/

/-- A turn that changes neither its producer nor the cache is one of a call that waits or of a resolution. -/
theorem Acts.idle {t : Turn} (h : r.Acts t) (ha : t.after = t.before) (hc : t.cache = r.cache) :
    (∃ l w, t.before = .fetching l w ∧ r.cache.resume .file w = (r.cache, .waiting w)) ∨
      ∃ w m, t.before = .rewriting w m ∧ w.left ≠ [] := by
  cases h with
  | @wait l w w' c h =>
    obtain ⟨-, rfl⟩ := Producer.fetching.inj ha
    obtain rfl : c = r.cache := hc
    exact Or.inl ⟨l, _, rfl, h⟩
  | @settle w w' m o h =>
    obtain ⟨-, first, hleft⟩ := settle?_left h
    obtain ⟨rfl, -⟩ := Producer.rewriting.inj ha
    exact absurd (congrArg List.length hleft) (by simp)
  | @resolve w m m' k o c c' st l hk hm hs =>
    refine Or.inr ⟨w, m, rfl, ?_⟩
    rintro hnil
    rw [hnil] at hk
    exact absurd hk (by simp)
  | _ => exact absurd ha (by simp)

/-- A producer that does nothing has ended, waits for the file of a dependency or for its last specifier. -/
theorem of_produce_eq {i : Nat} {p : Producer} (hp : r.producers[i]? = some p) (h : r.produce i = r) : p = .ended ∨
    (∃ l w, p = .fetching l w ∧ r.cache.resume .file w = (r.cache, .waiting w)) ∨ ∃ w m, p = .rewriting w m ∧ w.left ≠ [] := by
  rcases r.produce_turns i with ⟨-, hidle⟩ | ⟨t, ht⟩
  · rcases hidle p hp with rfl | ⟨w, m, o, left, rfl, hl, -⟩
    · exact Or.inl rfl
    · exact Or.inr (Or.inr ⟨w, m, rfl, by simp [hl]⟩)
  · rw [h] at ht
    obtain rfl := Option.some.inj (ht.before.symm.trans hp)
    have ha := ht.getElem? i
    rw [if_pos rfl, ht.before] at ha
    exact Or.inr (ht.acts.idle (Option.some.inj ha).symm ht.cache.symm)

/-- A producer whose last specifier is resolved goes on. -/
theorem produce_resolved {i : Nat} {w : Rewriting} {m : ManifestSource} {o : Open} {left : List Open}
    {x : Except Failure String} (hp : r.producers[i]? = some (.rewriting w m)) (hl : w.left = o :: left)
    (hx : o.stage = .done x) : r.produce i ≠ r := by
  have hlt : i < r.producers.length := (List.getElem?_eq_some_iff.1 hp).1
  obtain ⟨w', out, hs⟩ : ∃ w' out, w.settle? = some (w', out) := by
    unfold Rewriting.settle?
    rw [hl]
    dsimp only
    rw [hx]
    cases x <;> exact ⟨_, _, rfl⟩
  intro h
  have hproducer : (r.produce i).producers[i]? = r.producers[i]? := by rw [h]
  unfold produce at hproducer
  rw [hp] at hproducer
  dsimp only at hproducer
  unfold produceRewriting at hproducer
  rw [hl] at hproducer
  dsimp only at hproducer
  rw [hs] at hproducer
  have hw : w' = w := by
    cases out <;> simp [become, emit, hlt] at hproducer <;> exact hproducer
  obtain ⟨-, first, hleft⟩ := settle?_left hs
  rw [hw] at hleft
  exact absurd (congrArg List.length hleft) (by simp)

/-- A stage whose step does nothing is resolved, waits for a manifest or for a request in flight. -/
theorem step_eq_self {c : Cache} (hc : c.Sound) {st : Stage} (hst : st.Stands c) {referrer : String}
    {known : Option (Option Value)} {found : Option Location} (hs : st.step referrer known c = (c, st, found)) :
    (∃ x, st = .done x) ∨ (∃ l, st = .range l ∧ known = none) ∨ c.inFlight ≠ [] := by
  cases st with
  | range l =>
    refine Or.inr (Or.inl ⟨l, rfl, ?_⟩)
    rcases known with _ | v
    · rfl
    · have hstage : Stage.withManifest referrer v l = .range l := (Prod.mk.inj (Prod.mk.inj hs).2).1
      have hweight := weight_withVersion referrer { l with version := (Manifest.range? v l.pkg).getD Location.defaultVersion }
      rw [Stage.withManifest] at hstage
      rw [hstage] at hweight
      exact absurd hweight (by simp [Stage.weight])
  | entry l w =>
    unfold Stage.step at hs
    dsimp only at hs
    split at hs
    · next hr =>
      obtain ⟨rfl, hst', -⟩ := by simpa using hs
      obtain rfl := hst'
      exact Or.inr (Or.inr (Cache.inFlight_of_stays hc hst hr))
    · have hstage := (Prod.mk.inj (Prod.mk.inj hs).2).1
      have hweight := weight_withPath referrer { l with path := Manifest.entry ‹_› }
      rw [hstage] at hweight
      exact absurd hweight (by simp [Stage.weight])
    · exact absurd (Prod.mk.inj (Prod.mk.inj hs).2).1 (by simp)
  | canonical w =>
    obtain ⟨l, hl⟩ := hst
    unfold Stage.step at hs
    dsimp only at hs
    split at hs
    · next hr =>
      obtain ⟨rfl, hst', -⟩ := by simpa using hs
      obtain rfl := hst'
      exact Or.inr (Or.inr (Cache.inFlight_of_stays hc hl hr))
    · exact absurd (Prod.mk.inj (Prod.mk.inj hs).2).1 (by simp [Stage.atContent])
    · exact absurd (Prod.mk.inj (Prod.mk.inj hs).2).1 (by simp)
  | content l w t =>
    unfold Stage.step at hs
    dsimp only at hs
    split at hs
    · next hr =>
      obtain ⟨rfl, hst', -⟩ := by simpa using hs
      obtain rfl := hst'
      exact Or.inr (Or.inr (Cache.inFlight_of_stays hc hst hr))
    · exact absurd (Prod.mk.inj (Prod.mk.inj hs).2).1 (by simp)
    · exact absurd (Prod.mk.inj (Prod.mk.inj hs).2).1 (by simp)
  | done x => exact Or.inl ⟨x, rfl⟩

/-- A specifier whose resolution does nothing is resolved, waits for the manifest of the project or for a request in
flight. -/
theorem of_resolve_eq (hs : r.Sound) {i k : Nat} {w : Rewriting} {m : ManifestSource} {o : Open}
    (hp : r.producers[i]? = some (.rewriting w m)) (hk : w.left[k]? = some o) (h : r.resolve i k = r) :
    (∃ x, o.stage = .done x) ∨ r.project = none ∨ r.cache.inFlight ≠ [] := by
  obtain ⟨hm, hleft⟩ := hs.stands _ (List.mem_of_getElem? hp)
  have hstands := hleft o (List.mem_of_getElem? hk)
  have hlt : i < r.producers.length := (List.getElem?_eq_some_iff.1 hp).1
  rcases hload : load r.cache o.stage.needsManifest m with ⟨c, m'⟩
  rcases hstep : o.stage.step w.file.name (r.manifest? m') c with ⟨c', st, found⟩
  -- nothing has changed, neither the cache nor the manifest source nor the stage
  obtain ⟨rfl, rfl, rfl⟩ : c' = r.cache ∧ m' = m ∧ st = o.stage := by
    have hcache := congrArg Run.cache h
    have hproducer := congrArg (fun r : Run => r.producers[i]?) h
    have hr : r.resolve i k = found.elim { r.become i (.rewriting { w with left := w.left.set k { o with stage := st } } m')
        with cache := c' } fun l => spawn { r.become i (.rewriting { w with left := w.left.set k { o with stage := st } } m')
        with cache := c' } (.dependency l) := by
      unfold resolve
      rw [hp]
      dsimp only
      rw [hk]
      dsimp only
      rw [hload]
      dsimp only
      rw [hstep]
    rw [hr] at hcache hproducer
    have hset : some (Producer.rewriting { w with left := w.left.set k { o with stage := st } } m') =
        some (Producer.rewriting w m) := by
      rw [← hp, ← hproducer]
      cases found <;> simp [become, spawn, hlt, List.getElem?_append]
    obtain ⟨hw, hm'⟩ := Producer.rewriting.inj (Option.some.inj hset)
    refine ⟨by cases found <;> exact hcache, hm', ?_⟩
    have hget := congrArg (fun w : Rewriting => w.left[k]?) hw
    dsimp only at hget
    have hklt : k < w.left.length := (List.getElem?_eq_some_iff.1 hk).1
    rw [hk, List.getElem?_set_self hklt] at hget
    exact congrArg Open.stage (Option.some.inj hget)
  rcases hneeded : o.stage.needsManifest with _ | _
  · rw [hneeded, load_of_not_needed] at hload
    obtain ⟨rfl, -⟩ := Prod.mk.inj hload
    rcases step_eq_self hs.cache hstands hstep with hdone | ⟨l, hl, -⟩ | hflight
    · exact Or.inl hdone
    · exact absurd hneeded (by simp [hl, Stage.needsManifest])
    · exact Or.inr (Or.inr hflight)
  · obtain ⟨rfl, -, -⟩ := step_of_needed hneeded hstep
    rw [hneeded] at hload
    rcases step_eq_self hs.cache hstands hstep with hdone | ⟨l, -, hknown⟩ | hflight
    · exact Or.inl hdone
    · right
      cases m' with
      | project => exact Or.inl hknown
      | known v => exact absurd hknown (by simp [manifest?])
      | loading w' =>
        obtain ⟨l', hl'⟩ := hm
        refine Or.inr (Cache.inFlight_of_stays (g := .manifest) hs.cache hl' ?_)
        unfold load at hload
        dsimp only at hload
        rw [if_pos rfl] at hload
        split at hload
        · next hr =>
          obtain ⟨rfl, hw⟩ := Prod.mk.inj hload
          rw [hr, ManifestSource.loading.inj hw]
        · exact absurd (Prod.mk.inj hload).2 (by simp)
    · exact Or.inr (Or.inr hflight)

/-- A build without requests in flight that no move changes is over. -/
theorem stuck_over (hs : r.Sound) (hproduce : ∀ i, r.produce i = r) (hresolve : ∀ i k, r.resolve i k = r)
    (htake : r.step .take = r) (hflight : r.cache.inFlight = []) : r.merge.isOver = true := by
  have hfetching : ∀ l w, .fetching l w ∈ r.producers → r.cache.resume .file w ≠ (r.cache, .waiting w) :=
    fun l w hp hr => Cache.inFlight_of_stays hs.cache (hs.stands _ hp) hr hflight
  -- the source of the project always goes on, so that the manifest of the project is known
  have hproject : r.project ≠ none := by
    intro hnone
    obtain ⟨items, fails, hmem⟩ := hs.project hnone
    obtain ⟨i, hi⟩ := List.mem_iff_getElem?.1 hmem
    rcases of_produce_eq hi (hproduce i) with h | ⟨l, w, h, -⟩ | ⟨w, m, h, -⟩
    · exact absurd h (by simp)
    · exact absurd h (by simp)
    · exact absurd h (by simp)
  have hended : ∀ p ∈ r.producers, p = .ended := by
    intro p hmem
    obtain ⟨i, hi⟩ := List.mem_iff_getElem?.1 hmem
    rcases of_produce_eq hi (hproduce i) with h | ⟨l, w, rfl, h⟩ | ⟨w, m, rfl, hleft⟩
    · exact h
    · exact absurd h (hfetching l w hmem)
    · obtain ⟨o, left, hl⟩ := List.exists_cons_of_ne_nil hleft
      rcases of_resolve_eq hs hi (k := 0) (by rw [hl]; rfl) (hresolve i 0) with ⟨x, hx⟩ | h | h
      · exact absurd (hproduce i) (produce_resolved hi hl hx)
      · exact absurd h hproject
      · exact absurd hflight h
  have hlive : r.live = 0 := by
    refine List.sum_eq_zero fun n hn => ?_
    obtain ⟨p, hp, rfl⟩ := List.mem_map.1 hn
    rw [hended p hp]
    rfl
  have hbalanced := hs.balanced
  rw [hlive] at hbalanced
  refine hbalanced.isOver ?_
  by_contra hq
  rcases ht : r.merge.take? with _ | ⟨e, q⟩
  · unfold Merge.take? at ht
    split at ht
    · next hnil => exact hq hnil
    · exact absurd ht (by simp)
    · exact absurd ht (by simp)
  · have hstep : r.step .take = { r with merge := q } := by
      unfold step
      dsimp only
      rw [ht]
    have hmerge := congrArg Run.merge (hstep.symm.trans htake)
    have hlen := congrArg List.length (Merge.take?_eq_some ht).1
    rw [← show q = r.merge from hmerge] at hlen
    exact absurd hlen (by simp)

/-! ## Schedules -/

/-- What the first moves of a schedule do. -/
def after (r : Run) (schedule : Nat → Move) : Nat → Run
  | 0 => r
  | n + 1 => (after r schedule n).step (schedule n)

/-- Every producer and every resolution goes on again and again, entries are taken again and again, and every request in
flight is answered some time. -/
structure Fair (r : Run) (schedule : Nat → Move) : Prop where
  /-- Producers go on. -/
  produce : ∀ n i, ∃ m ≥ n, schedule m = .produce i
  /-- Resolutions go on. -/
  resolve : ∀ n i k, ∃ m ≥ n, schedule m = .resolve i k
  /-- Entries are taken. -/
  take : ∀ n, ∃ m ≥ n, schedule m = .take
  /-- Requests are answered. -/
  answer : ∀ n j url, (j, url) ∈ (r.after schedule n).cache.inFlight → ∃ m ≥ n, ∃ a, schedule m = .answer j a

/-- The moves by their numbers; a request is answered by a failure. -/
def moveOf (code : Nat) : Move :=
  match code % 4 with
  | 0 => .produce (code / 4)
  | 1 => .resolve (code / 4).unpair.1 (code / 4).unpair.2
  | 2 => .take
  | _ => .answer (code / 4) (.error (.unexpected "closed"))

/-- A schedule in which every move comes again and again. -/
def everyMove (n : Nat) : Move := moveOf n.unpair.1

theorem everyMove_pair (code n : Nat) : everyMove (Nat.pair code n) = moveOf code := by
  rw [everyMove, Nat.unpair_pair]

theorem exists_everyMove_answer (n j : Nat) : ∃ m ≥ n, everyMove m = .answer j (.error (.unexpected "closed")) := by
  refine ⟨Nat.pair (4 * j + 3) n, Nat.right_le_pair _ _, ?_⟩
  rw [everyMove_pair, moveOf, show (4 * j + 3) % 4 = 3 by omega, show (4 * j + 3) / 4 = j by omega]
  rfl

theorem fair_everyMove (r : Run) : r.Fair everyMove where
  produce n i := by
    refine ⟨Nat.pair (4 * i) n, Nat.right_le_pair _ _, ?_⟩
    rw [everyMove_pair, moveOf, Nat.mul_mod_right, Nat.mul_div_cancel_left i (by omega)]
    rfl
  resolve n i k := by
    refine ⟨Nat.pair (4 * Nat.pair i k + 1) n, Nat.right_le_pair _ _, ?_⟩
    rw [everyMove_pair, moveOf, show (4 * Nat.pair i k + 1) % 4 = 1 by omega,
      show (4 * Nat.pair i k + 1) / 4 = Nat.pair i k by omega, Nat.unpair_pair]
    rfl
  take n := by
    refine ⟨Nat.pair 2 n, Nat.right_le_pair _ _, ?_⟩
    rw [everyMove_pair]
    rfl
  answer n j url _ := by
    obtain ⟨m, hm, hmove⟩ := exists_everyMove_answer n j
    exact ⟨m, hm, _, hmove⟩

variable {schedule : Nat → Move}

theorem after_eq_play (r : Run) (schedule : Nat → Move) (n : Nat) :
    r.after schedule n = r.play ((List.range n).map schedule) := by
  induction n with
  | zero => rfl
  | succ n ih =>
    rw [List.range_succ, List.map_append, play_append, ← ih]
    rfl

theorem Sound.after (h : r.Sound) (schedule : Nat → Move) (n : Nat) : (r.after schedule n).Sound := by
  rw [after_eq_play]
  exact h.play _

/-- From one moment to a later one, nothing changes or less is left to do. -/
theorem after_rank {W : File → Nat} (hW : Weighs W) (hs : r.Sound) {N : Nat}
    (hN : ∀ n, (r.after schedule n).handled.length ≤ N) (n m : Nat) :
    r.after schedule (n + m) = r.after schedule n ∨
      Below ((r.after schedule (n + m)).rank W N) ((r.after schedule n).rank W N) := by
  induction m with
  | zero => exact Or.inl rfl
  | succ m ih =>
    have hstep := step_rank hW (hs.after schedule (n + m)) (schedule (n + m)) (hN (n + m + 1))
    change r.after schedule (n + m + 1) = _ ∨ Below ((r.after schedule (n + m + 1)).rank W N) _ at hstep
    rw [← Nat.add_assoc]
    rcases hstep with hstep | hstep
    · rw [hstep]
      exact ih
    · rcases ih with ih | ih
      · rw [ih] at hstep
        exact Or.inr hstep
      · exact Or.inr (below_trans hstep ih)

/-- Behind a moment at which the stream is not over, less is left to do some time. -/
theorem Fair.later {W : File → Nat} (hfair : Fair r schedule) (hW : Weighs W) (hs : r.Sound) {N : Nat}
    (hN : ∀ n, (r.after schedule n).handled.length ≤ N) (n : Nat)
    (hover : (r.after schedule n).merge.isOver ≠ true) :
    ∃ m, Below ((r.after schedule m).rank W N) ((r.after schedule n).rank W N) := by
  by_contra hnot
  push Not at hnot
  -- then nothing ever changes behind it
  have hsame : ∀ m, n ≤ m → r.after schedule m = r.after schedule n := by
    intro m hm
    obtain ⟨d, rfl⟩ := Nat.exists_eq_add_of_le hm
    exact (after_rank hW hs hN n d).resolve_right (hnot _)
  have hstep : ∀ m, n ≤ m → (r.after schedule n).step (schedule m) = r.after schedule n := by
    intro m hm
    have hnext : r.after schedule (m + 1) = (r.after schedule m).step (schedule m) := rfl
    rw [hsame m hm, hsame (m + 1) (Nat.le_succ_of_le hm)] at hnext
    exact hnext.symm
  refine hover (stuck_over (hs.after schedule n) (fun i => ?_) (fun i k => ?_) ?_ ?_)
  · obtain ⟨m, hm, hi⟩ := hfair.produce n i
    have hmove := hstep m hm
    rw [hi] at hmove
    exact hmove
  · obtain ⟨m, hm, hi⟩ := hfair.resolve n i k
    have hmove := hstep m hm
    rw [hi] at hmove
    exact hmove
  · obtain ⟨m, hm, hi⟩ := hfair.take n
    have hmove := hstep m hm
    rw [hi] at hmove
    exact hmove
  · rw [List.eq_nil_iff_forall_not_mem]
    rintro ⟨j, url⟩ hj
    obtain ⟨m, hm, a, hi⟩ := hfair.answer n j url hj
    have hmove := hstep m hm
    rw [hi] at hmove
    have hpending := Cache.pending_complete hj a
    have hcache : (r.after schedule n).cache.complete j a = (r.after schedule n).cache := congrArg Run.cache hmove
    rw [hcache] at hpending
    exact absurd hpending (Nat.lt_irrefl _)

/-- The stream ends, if every producer and every resolution goes on and requests are answered, and if finitely many
dependencies are begun. -/
theorem Fair.ends (hfair : Fair r schedule) (hs : r.Sound) (hfinite : ∃ keys : List String, ∀ n,
    ∀ key ∈ (r.after schedule n).handled, key ∈ keys) : ∃ n, (r.after schedule n).merge.isOver = true := by
  obtain ⟨keys, hkeys⟩ := hfinite
  obtain ⟨W, hW⟩ := exists_weighs
  have hN : ∀ n, (r.after schedule n).handled.length ≤ keys.length := fun n =>
    (List.subperm_of_subset (hs.after schedule n).distinct (hkeys n)).length_le
  have hfrom : ∀ rank n, (r.after schedule n).rank W keys.length = rank →
      ∃ n, (r.after schedule n).merge.isOver = true := by
    intro rank
    induction rank using below_wf.induction with
    | _ rank ih =>
      rintro n rfl
      by_cases hover : (r.after schedule n).merge.isOver = true
      · exact ⟨n, hover⟩
      · obtain ⟨m, hm⟩ := hfair.later hW hs hN n hover
        exact ih _ hm m rfl
  exact hfrom _ 0 rfl

end BareImports.Build.Run
