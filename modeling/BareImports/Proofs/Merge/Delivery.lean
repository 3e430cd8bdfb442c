import BareImports.Proofs.Merge.Balance
import Mathlib.Data.List.Induction

/-!
# What a consumer gets from a merge

Producers do what they like in any order: they emit items, add further producers, and end, by an accident or not. The
consumer takes entries in between, until its round is over, and may then begin another one on the same merge.

* `Crowd` : a merge with the producers that run and what the consumer got in its round; `Crowd.Move` : the moves;
* `Crowd.step?`, `Crowd.play?` : what moves do, unless one of them is not possible;
* `Crowd.emitted i ms` : what producer `i` emits in some moves;
* `Crowd.Delivers` : what the consumer got, with what is in the queue, is what was emitted;
* `round_delivers` : what a round yields, when it is over, and in which state it leaves the merge.
-/

namespace BareImports.Merge

/-- Producers at work on a merge. They are known by number, in the order in which they were added. -/
structure Crowd (α : Type) where
  /-- The merge. -/
  merge : Merge α := {}
  /-- How many producers were ever added. -/
  count : Nat := 0
  /-- The producers that have not ended. -/
  running : List Nat := []
  /-- What the consumer got in its round. -/
  got : List α := []

namespace Crowd

/-- A move. -/
inductive Move (α : Type)
  /-- A producer is added, from outside or by a producer that runs. -/
  | join (host : Option Nat)
  /-- A producer emits an item. -/
  | emit (i : Nat) (a : α)
  /-- A producer ends. -/
  | stop (i : Nat)
  /-- A producer ends by an accident. -/
  | fail (i : Nat)
  /-- The consumer takes the oldest entry. -/
  | take
  /-- The round of the consumer is over. -/
  | finish
  deriving DecidableEq

variable {α : Type}

/-- The end of a producer. -/
def leave (c : Crowd α) (i : Nat) : Crowd α := { c with merge := c.merge.close, running := c.running.erase i }

/-- What a move does; nothing is possible for a producer that does not run, and a round goes on exactly as long as its
stream is not over. -/
def step? (c : Crowd α) : Move α → Option (Crowd α)
  | .join host =>
    if ∀ i ∈ host, i ∈ c.running then
      some { c with merge := c.merge.add, count := c.count + 1, running := c.running ++ [c.count] }
    else none
  | .emit i a => if i ∈ c.running then some { c with merge := c.merge.put a } else none
  | .stop i | .fail i => if i ∈ c.running then some (c.leave i) else none
  | .take => if c.merge.isOver then none
    else c.merge.take?.map fun (e, merge) => { c with merge, got := c.got ++ e.toList }
  | .finish => if c.merge.isOver then some { c with got := [] } else none

/-- What moves do in order. -/
def play? (c : Crowd α) (ms : List (Move α)) : Option (Crowd α) := ms.foldlM step? c

/-- What a producer emits in some moves. -/
def emitted (i : Nat) (ms : List (Move α)) : List α :=
  ms.filterMap fun | .emit j a => if j = i then some a else none | _ => none

/-- The same move, but that a producer ends without an accident. -/
def Move.calm : Move α → Move α
  | .fail i => .stop i
  | m => m

/-! ## All that a move does -/

/-- All that a move does. -/
inductive Does (c : Crowd α) : Move α → Crowd α → Prop
  /-- A producer is added. -/
  | join {host : Option Nat} (h : ∀ i ∈ host, i ∈ c.running) :
    Does c (.join host) { c with merge := c.merge.add, count := c.count + 1, running := c.running ++ [c.count] }
  /-- An item is put into the queue. -/
  | emit {i : Nat} {a : α} (h : i ∈ c.running) : Does c (.emit i a) { c with merge := c.merge.put a }
  /-- A producer ends. -/
  | leave {m : Move α} {i : Nat} (hm : m = .stop i ∨ m = .fail i) (h : i ∈ c.running) : Does c m (c.leave i)
  /-- An entry is taken. -/
  | take {e : Option α} {merge : Merge α} (h : c.merge.isOver = false) (ht : c.merge.take? = some (e, merge)) :
    Does c .take { c with merge, got := c.got ++ e.toList }
  /-- The round is over. -/
  | finish (h : c.merge.isOver = true) : Does c .finish { c with got := [] }

theorem does_of_step? {c d : Crowd α} {m : Move α} (h : c.step? m = some d) : c.Does m d := by
  cases m with
  | join host =>
    rw [step?] at h
    split at h
    · next hh =>
      obtain rfl := Option.some.inj h
      exact .join hh
    · exact absurd h (by simp)
  | emit i a =>
    rw [step?] at h
    split at h
    · next hi =>
      obtain rfl := Option.some.inj h
      exact .emit hi
    · exact absurd h (by simp)
  | stop i =>
    rw [step?] at h
    split at h
    · next hi =>
      obtain rfl := Option.some.inj h
      exact .leave (Or.inl rfl) hi
    · exact absurd h (by simp)
  | fail i =>
    rw [step?] at h
    split at h
    · next hi =>
      obtain rfl := Option.some.inj h
      exact .leave (Or.inr rfl) hi
    · exact absurd h (by simp)
  | take =>
    rw [step?] at h
    split at h
    · exact absurd h (by simp)
    · next ho =>
      obtain ⟨⟨e, merge⟩, ht, rfl⟩ := Option.map_eq_some_iff.1 h
      exact .take (by simpa using ho) ht
  | finish =>
    rw [step?] at h
    split at h
    · next ho =>
      obtain rfl := Option.some.inj h
      exact .finish ho
    · exact absurd h (by simp)

@[simp] theorem play?_nil (c : Crowd α) : c.play? [] = some c := rfl

theorem play?_cons (c : Crowd α) (m : Move α) (ms : List (Move α)) :
    c.play? (m :: ms) = (c.step? m).bind fun d => d.play? ms := rfl

theorem play?_append (c : Crowd α) (ms ms' : List (Move α)) :
    c.play? (ms ++ ms') = (c.play? ms).bind fun d => d.play? ms' := List.foldlM_append

/-- What each move keeps, all moves keep. -/
theorem play?_induction {P : List (Move α) → Crowd α → Prop} {c d : Crowd α} {ms : List (Move α)} (h : P [] c)
    (hd : c.play? ms = some d)
    (hstep : ∀ done m e e', m ∈ ms → P done e → e.Does m e' → P (done ++ [m]) e') : P ms d := by
  induction ms using List.reverseRecOn generalizing d with
  | nil =>
    obtain rfl := Option.some.inj hd
    exact h
  | append_singleton ms m ih =>
    rw [play?_append] at hd
    obtain ⟨e, he, hm⟩ := Option.bind_eq_some_iff.1 hd
    rw [play?_cons] at hm
    obtain ⟨e', he', hnil⟩ := Option.bind_eq_some_iff.1 hm
    obtain rfl := Option.some.inj hnil
    refine hstep ms m e e' (by simp) (ih he fun done m' x x' hm' => hstep done m' x x' ?_) (does_of_step? he')
    exact List.mem_append_left _ hm'

/-! ## What every move keeps -/

/-- The merge counts the producers that run, which are some of those that were added. -/
structure Orderly (c : Crowd α) : Prop where
  /-- The merge counts the producers that run. -/
  balanced : c.merge.Balanced c.running.length
  /-- No producer runs twice. -/
  distinct : c.running.Nodup
  /-- A producer that runs was added. -/
  added : ∀ i ∈ c.running, i < c.count

theorem orderly_empty : Orderly ({} : Crowd α) := ⟨balanced_empty, by simp, by simp⟩

theorem length_erase_succ {l : List Nat} {i : Nat} (h : i ∈ l) : (l.erase i).length + 1 = l.length := by
  have hlen := List.length_erase_of_mem h
  have hpos := List.length_pos_of_mem h
  omega

theorem Orderly.does {c d : Crowd α} {m : Move α} (h : c.Orderly) (hd : c.Does m d) : d.Orderly := by
  cases hd with
  | join =>
    refine ⟨?_, ?_, fun i hi => ?_⟩
    · simpa using h.balanced.add
    · rw [List.nodup_append]
      refine ⟨h.distinct, by simp, fun i hi j hj => ?_⟩
      rw [List.mem_singleton.1 hj]
      exact Nat.ne_of_lt (h.added i hi)
    · rcases List.mem_append.1 hi with hi | hi
      · exact Nat.lt_succ_of_lt (h.added i hi)
      · rw [List.mem_singleton.1 hi]
        exact Nat.lt_succ_self _
  | emit hi => exact ⟨h.balanced.put (Nat.ne_of_gt (List.length_pos_of_mem hi)) _, h.distinct, h.added⟩
  | @leave _ i _ hi =>
    refine ⟨?_, h.distinct.erase i, fun j hj => h.added j (List.mem_of_mem_erase hj)⟩
    have hbal := h.balanced
    rw [← length_erase_succ hi] at hbal
    exact hbal.close
  | take _ ht => exact ⟨h.balanced.take ht, h.distinct, h.added⟩
  | finish => exact ⟨h.balanced, h.distinct, h.added⟩

theorem Orderly.play {c d : Crowd α} {ms : List (Move α)} (h : c.Orderly) (hd : c.play? ms = some d) : d.Orderly :=
  play?_induction (P := fun _ c => c.Orderly) h hd fun _ _ _ _ _ he hdoes => he.does hdoes

/-- When the stream is over, no producer runs and nothing is in the queue. -/
theorem Orderly.over {c : Crowd α} (h : c.Orderly) (ho : c.merge.isOver = true) :
    c.running = [] ∧ c.merge.queue = [] ∧ c.merge.outstanding = 0 := by
  obtain ⟨hlen, hq, hout⟩ := h.balanced.over ho
  exact ⟨List.length_eq_zero_iff.1 hlen, hq, hout⟩

/-- Behind the last producer, taking what is in the queue ends the round. -/
theorem Orderly.drains {c : Crowd α} (h : c.Orderly) (hr : c.running = []) :
    ∃ d, c.play? (List.replicate c.merge.queue.length .take) = some d ∧ d.merge.isOver = true ∧ d.running = [] := by
  have hbal := h.balanced
  rw [hr, List.length_nil] at hbal
  generalize hn : c.merge.queue.length = n
  induction n generalizing c with
  | zero => exact ⟨c, rfl, hbal.isOver (List.length_eq_zero_iff.1 hn), hr⟩
  | succ n ih =>
    have hne : c.merge.queue ≠ [] := List.ne_nil_of_length_pos (by omega)
    have hover := hbal.not_isOver hne
    obtain ⟨e, merge, ht⟩ : ∃ e merge, c.merge.take? = some (e, merge) := by
      unfold take?
      split
      · next hq => exact absurd hq hne
      · exact ⟨_, _, rfl⟩
      · exact ⟨_, _, rfl⟩
    have hstep : c.step? .take = some { c with merge, got := c.got ++ e.toList } := by simp [step?, hover, ht]
    have hlen : merge.queue.length = n := by
      rw [(take?_eq_some ht).1, List.length_cons] at hn
      omega
    obtain ⟨d, hd, hrest⟩ := ih (h.does (.take hover ht)) hr (hbal.take ht) hlen
    refine ⟨d, ?_, hrest⟩
    rw [List.replicate_succ, play?_cons, hstep]
    exact hd

/-! ## One round -/

/-- The items of one producer among entries with the numbers of their producers. -/
def itemsOf (i : Nat) (es : List (Nat × Option α)) : List α := es.filterMap fun (j, e) => if j = i then e else none

/-- What the consumer got and what is in the queue came from producers that were added since there were `first`, and is
what these emitted in some moves, each item once and the items of one producer in its order. -/
def Delivers (first : Nat) (ms : List (Move α)) (d : Crowd α) : Prop :=
  ∃ taken queued : List (Nat × Option α), taken.filterMap (·.2) = d.got ∧ queued.map (·.2) = d.merge.queue ∧
    (∀ i, itemsOf i (taken ++ queued) = emitted i ms) ∧ ∀ e ∈ taken ++ queued, first ≤ e.1 ∧ e.1 < d.count

theorem itemsOf_append (i : Nat) (es es' : List (Nat × Option α)) :
    itemsOf i (es ++ es') = itemsOf i es ++ itemsOf i es' := List.filterMap_append

theorem emitted_append (i : Nat) (ms ms' : List (Move α)) : emitted i (ms ++ ms') = emitted i ms ++ emitted i ms' :=
  List.filterMap_append

/-- What is behind an entry that is added to the queue. -/
theorem Delivers.queue {first : Nat} {done : List (Move α)} {c d : Crowd α} {m : Move α} (h : Delivers first done c)
    (hgot : d.got = c.got) (hcount : d.count = c.count) {i : Nat} {e : Option α}
    (hqueue : d.merge.queue = c.merge.queue ++ [e]) (hi : first ≤ i ∧ i < c.count)
    (hm : ∀ j, emitted j [m] = if i = j then e.toList else []) : Delivers first (done ++ [m]) d := by
  obtain ⟨taken, queued, hg, hq, hitems, hrange⟩ := h
  refine ⟨taken, queued ++ [(i, e)], hg.trans hgot.symm, ?_, fun j => ?_, fun x hx => ?_⟩
  · rw [List.map_append, hq, hqueue]
    rfl
  · rw [← List.append_assoc, itemsOf_append, hitems, emitted_append, hm]
    unfold itemsOf
    by_cases hij : i = j
    · cases e <;> simp [hij]
    · simp [hij]
  · rw [hcount]
    rw [← List.append_assoc] at hx
    rcases List.mem_append.1 hx with hx | hx
    · exact hrange x hx
    · rw [List.mem_singleton.1 hx]
      exact hi

/-- What is behind a move that changes neither what the consumer got nor the queue. -/
theorem Delivers.keep {first : Nat} {done : List (Move α)} {c d : Crowd α} {m : Move α} (h : Delivers first done c)
    (hgot : d.got = c.got) (hqueue : d.merge.queue = c.merge.queue) (hcount : c.count ≤ d.count)
    (hm : ∀ j, emitted j [m] = []) : Delivers first (done ++ [m]) d := by
  obtain ⟨taken, queued, hg, hq, hitems, hrange⟩ := h
  refine ⟨taken, queued, hg.trans hgot.symm, hq.trans hqueue.symm, fun j => ?_, fun x hx => ?_⟩
  · rw [hitems, emitted_append, hm, List.append_nil]
  · obtain ⟨hlow, hhigh⟩ := hrange x hx
    exact ⟨hlow, Nat.lt_of_lt_of_le hhigh hcount⟩

theorem Delivers.does {first : Nat} {done : List (Move α)} {c d : Crowd α} {m : Move α} (h : Delivers first done c)
    (hrun : ∀ i ∈ c.running, first ≤ i ∧ i < c.count) (hd : c.Does m d) (hm : m ≠ .finish) :
    Delivers first (done ++ [m]) d := by
  cases hd with
  | join => exact h.keep rfl rfl (Nat.le_succ _) fun j => rfl
  | @emit i a hi =>
    refine h.queue rfl rfl rfl (hrun i hi) fun j => ?_
    by_cases hij : i = j
    · simp [emitted, hij]
    · simp [emitted, hij]
  | @leave _ i hmove hi =>
    refine h.queue (e := none) rfl rfl rfl (hrun i hi) fun j => ?_
    rcases hmove with rfl | rfl <;> simp [emitted]
  | @take e merge ho ht =>
    obtain ⟨taken, queued, hg, hq, hitems, hrange⟩ := h
    -- the entry goes from the front of the queue to the end of what was taken
    rw [(take?_eq_some ht).1] at hq
    obtain ⟨⟨i, e'⟩, rest, rfl, rfl, hrest⟩ := List.map_eq_cons_iff.1 hq
    refine ⟨taken ++ [(i, e')], rest, ?_, hrest, fun j => ?_, fun x hx => ?_⟩
    · rw [List.filterMap_append, hg]
      cases e' <;> simp
    · rw [List.append_assoc, List.singleton_append, hitems, emitted_append]
      simp [emitted]
    · rw [List.append_assoc, List.singleton_append] at hx
      exact hrange x hx
  | finish => exact absurd rfl hm

/-- What holds in a round that began when there were `first` producers. -/
structure Under (first : Nat) (ms : List (Move α)) (d : Crowd α) : Prop where
  /-- The merge counts the producers that run. -/
  orderly : d.Orderly
  /-- The producers that run were added in the round. -/
  since : ∀ i ∈ d.running, first ≤ i
  /-- Producers are only added. -/
  count : first ≤ d.count
  /-- What was emitted is delivered or will be. -/
  delivers : Delivers first ms d

theorem Under.does {first : Nat} {done : List (Move α)} {c d : Crowd α} {m : Move α} (h : Under first done c)
    (hd : c.Does m d) (hm : m ≠ .finish) : Under first (done ++ [m]) d where
  orderly := h.orderly.does hd
  since i hi := by
    cases hd with
    | join =>
      rcases List.mem_append.1 hi with hi | hi
      · exact h.since i hi
      · rw [List.mem_singleton.1 hi]
        exact h.count
    | emit => exact h.since i hi
    | leave => exact h.since i (List.mem_of_mem_erase hi)
    | take => exact h.since i hi
    | finish => exact h.since i hi
  count := by
    cases hd with
    | join => exact Nat.le_succ_of_le h.count
    | emit => exact h.count
    | leave => exact h.count
    | take => exact h.count
    | finish => exact h.count
  delivers := h.delivers.does (fun i hi => ⟨h.since i hi, h.orderly.added i hi⟩) hd hm

/-- A round begins without producers on an empty merge. -/
theorem clean_of_rounds {past : List (Move α)} {c : Crowd α} (hpast : play? {} past = some c)
    (hend : ∀ m ∈ past.getLast?, m = .finish) : c.running = [] ∧ c.merge = {} ∧ c.got = [] := by
  rcases List.eq_nil_or_concat past with rfl | ⟨before, m, rfl⟩
  · obtain rfl := Option.some.inj hpast
    exact ⟨rfl, rfl, rfl⟩
  · rw [List.concat_eq_append] at hpast hend
    obtain rfl := hend m (by simp)
    rw [play?_append] at hpast
    obtain ⟨e, he, hm⟩ := Option.bind_eq_some_iff.1 hpast
    rw [play?_cons] at hm
    obtain ⟨e', he', hnil⟩ := Option.bind_eq_some_iff.1 hm
    obtain rfl := Option.some.inj hnil
    cases does_of_step? he' with
    | leave hmove => rcases hmove with h | h <;> exact absurd h (by simp)
    | finish ho =>
      obtain ⟨hrun, hq, hout⟩ := (orderly_empty.play he).over ho
      refine ⟨hrun, ?_, rfl⟩
      rcases hmerge : e.merge with ⟨queue, outstanding⟩
      rw [hmerge] at hq hout
      exact congrArg₂ Merge.mk hq hout

theorem play?_calm (c : Crowd α) (ms : List (Move α)) : c.play? (ms.map Move.calm) = c.play? ms := by
  induction ms generalizing c with
  | nil => rfl
  | cons m ms ih =>
    have hstep : c.step? m.calm = c.step? m := by cases m <;> rfl
    rw [List.map_cons, play?_cons, play?_cons, hstep]
    simp only [ih]

/-- A producer that has ended emits nothing more. -/
theorem emitted_eq_nil {c d : Crowd α} {ms : List (Move α)} {i : Nat} (hi : i ∉ c.running) (hlt : i < c.count)
    (hd : c.play? ms = some d) : emitted i ms = [] := by
  refine (play?_induction (P := fun done e => emitted i done = [] ∧ i ∉ e.running ∧ i < e.count) ⟨rfl, hi, hlt⟩ hd
    fun done m e e' _ ⟨hnil, hrun, hcount⟩ hdoes => ?_).1
  rw [emitted_append, hnil, List.nil_append]
  cases hdoes with
  | join =>
    refine ⟨rfl, fun hmem => ?_, Nat.lt_succ_of_lt hcount⟩
    rcases List.mem_append.1 hmem with hmem | hmem
    · exact hrun hmem
    · exact absurd (List.mem_singleton.1 hmem) (Nat.ne_of_lt hcount)
  | @emit j a hj =>
    have hji : j ≠ i := fun hji => hrun (hji ▸ hj)
    exact ⟨by simp [emitted, hji], hrun, hcount⟩
  | leave hm =>
    refine ⟨?_, fun hmem => hrun (List.mem_of_mem_erase hmem), hcount⟩
    rcases hm with rfl | rfl <;> rfl
  | take => exact ⟨rfl, hrun, hcount⟩
  | finish => exact ⟨rfl, hrun, hcount⟩

/-- A producer that ends by an accident has emitted what it emitted before, and nothing else is different from what it
would be had it just ended. -/
theorem emitted_of_fail {c d : Crowd α} {before behind : List (Move α)} {i : Nat} (hc : c.Orderly)
    (hd : c.play? (before ++ .fail i :: behind) = some d) :
    emitted i (before ++ .fail i :: behind) = emitted i before := by
  rw [play?_append] at hd
  obtain ⟨e, he, hrest⟩ := Option.bind_eq_some_iff.1 hd
  rw [play?_cons] at hrest
  obtain ⟨e', he', hbehind⟩ := Option.bind_eq_some_iff.1 hrest
  have horderly := hc.play he
  obtain ⟨hi, rfl⟩ : i ∈ e.running ∧ e' = e.leave i := by
    cases does_of_step? he' with
    | leave hm hi =>
      obtain rfl : i = _ := by simpa using hm
      exact ⟨hi, rfl⟩
  have hnil := emitted_eq_nil (c := e.leave i) (horderly.distinct.not_mem_erase) (horderly.added i hi) hbehind
  rw [emitted_append, ← List.singleton_append, emitted_append, hnil]
  simp [emitted]

/-- A round of a consumer, behind any number of rounds on the same merge and with any moves of producers and consumer in
any order. It begins without producers on an empty merge. At each moment the consumer has got, apart from what is still
in the queue, what the producers that were added in the round emitted: each item once, and those of one producer in its
order. When it is over, all producers have ended and nothing is left in the merge. It does come to be over when all
producers have ended and what is in the queue is taken. A producer that ends by an accident counts for what it emitted
before, and all else is as if it had just ended. -/
theorem round_delivers (past ms : List (Move α)) (c d : Crowd α) (hpast : play? {} past = some c)
    (hend : ∀ m ∈ past.getLast?, m = .finish) (hms : .finish ∉ ms) (hd : c.play? ms = some d) :
    (c.running = [] ∧ c.merge = {} ∧ c.got = []) ∧ Delivers c.count ms d ∧
    (d.merge.isOver = true → d.running = [] ∧ d.merge = {} ∧
      ∃ taken : List (Nat × Option α), taken.filterMap (·.2) = d.got ∧ (∀ i, itemsOf i taken = emitted i ms) ∧
        ∀ e ∈ taken, c.count ≤ e.1 ∧ e.1 < d.count) ∧
    (d.running = [] → ∃ e, d.play? (List.replicate d.merge.queue.length .take) = some e ∧ e.merge.isOver = true) ∧
    (∀ before behind i, ms = before ++ .fail i :: behind → emitted i ms = emitted i before) ∧
    c.play? (ms.map Move.calm) = some d := by
  have hclean := clean_of_rounds hpast hend
  obtain ⟨hrun, hmerge, hgot⟩ := hclean
  have horderly : c.Orderly := orderly_empty.play hpast
  have hstart : Under c.count [] c := by
    refine ⟨horderly, by simp [hrun], Nat.le_refl _, [], [], by simp [hgot], by simp [hmerge], fun i => rfl, by simp⟩
  have hunder : Under c.count ms d :=
    play?_induction hstart hd fun done m e e' hm he hdoes => he.does hdoes fun heq => hms (heq ▸ hm)
  refine ⟨⟨hrun, hmerge, hgot⟩, hunder.delivers, fun ho => ?_, fun hr => ?_, fun before behind i hfail => ?_, ?_⟩
  · obtain ⟨hrun', hq, hout⟩ := hunder.orderly.over ho
    refine ⟨hrun', congrArg₂ Merge.mk hq hout, ?_⟩
    obtain ⟨taken, queued, hg, hqueued, hitems, hrange⟩ := hunder.delivers
    obtain rfl : queued = [] := List.map_eq_nil_iff.1 (hqueued.trans hq)
    rw [List.append_nil] at hrange
    exact ⟨taken, hg, fun i => by rw [← hitems i, List.append_nil], hrange⟩
  · obtain ⟨e, he, ho, -⟩ := hunder.orderly.drains hr
    exact ⟨e, he, ho⟩
  · subst hfail
    exact emitted_of_fail horderly hd
  · rw [play?_calm, hd]

/-- A second round on one merge: a producer adds another one, which fails, and goes on behind it. -/
theorem round_delivers_nested :
    (∃ c : Crowd Nat, play? {} [.join none, .emit 0 7, .stop 0, .take, .take, .finish] = some c ∧
      ∃ d, c.play? [.join none, .emit 1 1, .join (some 1), .emit 2 2, .take, .fail 2, .emit 1 3, .stop 1, .take, .take,
        .take, .take] = some d ∧ d.got = [1, 2, 3] ∧ d.running = [] ∧ d.merge = {}) :=
  ⟨_, rfl, _, rfl, rfl,
    ((round_delivers [.join none, .emit 0 7, .stop 0, .take, .take, .finish] [.join none, .emit 1 1, .join (some 1),
      .emit 2 2, .take, .fail 2, .emit 1 3, .stop 1, .take, .take, .take, .take] _ _ rfl (by simp) (by simp) rfl).2.2.1
      rfl).imp_right And.left⟩

end Crowd

end BareImports.Merge
