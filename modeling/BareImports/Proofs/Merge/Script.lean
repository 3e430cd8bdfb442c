import BareImports.Merge.Script
import BareImports.Proofs.Merge.Delivery

/-!
# What a round of scripted producers yields

* `Action.items` : what a script emits before it ends;
* `Rounds.Follows` : a state of the rounds is one that producers and consumer can come to by some moves, and each
  producer has emitted what is not left of its script;
* `Rounds.play_delivers` : a round yields what its producers emit, and leaves an empty merge.
-/

namespace BareImports.Merge

/-- What a script emits before it ends. -/
def Action.items : List Action → List Value
  | [] | .fail :: _ => []
  | .emit v :: rest => v :: items rest
  | .spawn _ :: rest | .wait _ :: rest => items rest

/-! ## Draining -/

/-- Draining is taking some entries. -/
theorem exists_take_eq_drain {α : Type} (c : Crowd α) :
    ∃ n, c.play? (List.replicate n .take) = some { c with merge := c.merge.drain.2, got := c.got ++ c.merge.drain.1 } := by
  obtain ⟨⟨q, outstanding⟩, count, running, got⟩ := c
  unfold drain
  dsimp only
  induction q generalizing outstanding got with
  | nil => exact ⟨0, by simp [drain.go]⟩
  | cons e q ih =>
    rcases Nat.eq_zero_or_pos outstanding with rfl | hpos
    · exact ⟨0, by simp [drain.go]⟩
    · have hne : (outstanding == 0) = false := by simpa using Nat.ne_of_gt hpos
      cases e with
      | none =>
        obtain ⟨n, hn⟩ := ih got (outstanding - 1)
        refine ⟨n + 1, ?_⟩
        rw [List.replicate_succ, Crowd.play?_cons]
        simpa [Crowd.step?, isOver, hne, take?, drain.go] using hn
      | some a =>
        obtain ⟨n, hn⟩ := ih (got ++ [a]) outstanding
        refine ⟨n + 1, ?_⟩
        rw [List.replicate_succ, Crowd.play?_cons]
        simpa [Crowd.step?, isOver, hne, take?, drain.go] using hn

namespace Rounds

open Crowd (emitted emitted_append)

/-- The script of a name. -/
def scriptOf (scripts : List (String × List Action)) (name : String) : List Action := (scripts.lookup name).getD []

/-- What a producer with some actions to come emits, with its name. -/
def yields (p : Running) : List (String × Value) := (Action.items p.rest).map (p.name, ·)

/-- A state of the rounds, with producers that wait for their turn, is one that some moves lead to. -/
structure Follows (scripts : List (String × List Action)) (r : Rounds) (waiting : List Running) (ms : List (Crowd.Move (String × Value)))
    (c : Crowd (String × Value)) (who : List (Nat × Running)) (got : List (String × Value)) : Prop where
  /-- It has the same scripts. -/
  table : r.scripts = scripts
  /-- The moves lead to it. -/
  reached : Crowd.play? {} ms = some c
  /-- They are all of one round. -/
  going : .finish ∉ ms
  /-- It has the same merge. -/
  merge : c.merge = r.merge
  /-- The consumer got this. -/
  got : c.got = got
  /-- The producers that run have numbers. -/
  named : who.map (·.2) = waiting ++ r.running
  /-- These are the producers that run. -/
  running : (who.map (·.1)).Perm c.running
  /-- What a producer has emitted and what it will emit is what its script emits. -/
  rest : ∀ x ∈ who, emitted x.1 ms ++ yields x.2 = yields ⟨x.2.name, scriptOf scripts x.2.name⟩
  /-- A producer that has ended has emitted what its script emits. -/
  ended : ∀ i < c.count, i ∉ c.running → ∃ name, emitted i ms = yields ⟨name, scriptOf scripts name⟩
  /-- Nobody else has emitted anything. -/
  fresh : ∀ i, c.count ≤ i → emitted i ms = []

variable {scripts : List (String × List Action)} {r : Rounds} {waiting : List Running} {ms : List (Crowd.Move (String × Value))} {c : Crowd (String × Value)}
  {who : List (Nat × Running)} {got : List (String × Value)}

/-- One more move. -/
theorem Follows.reached_append (h : Follows scripts r waiting ms c who got) {m : Crowd.Move (String × Value)}
    {d : Crowd (String × Value)} (hm : c.step? m = some d) : Crowd.play? {} (ms ++ [m]) = some d := by
  rw [Crowd.play?_append, h.reached]
  simpa [Crowd.play?_cons] using hm

theorem emitted_other {i j : Nat} {a : String × Value} (h : i ≠ j) :
    emitted j (ms ++ [.emit i a]) = emitted j ms := by
  rw [emitted_append]
  simp [emitted, h]

theorem emitted_quiet {i : Nat} {m : Crowd.Move (String × Value)} (h : ∀ j a, m ≠ .emit j a) :
    emitted i (ms ++ [m]) = emitted i ms := by
  rw [emitted_append]
  cases m with
  | emit j a => exact absurd rfl (h j a)
  | _ => simp [emitted]

/-- A producer is added. -/
theorem Follows.join (h : Follows scripts r waiting ms c who got) {host : Option Nat} (hhost : ∀ i ∈ host, i ∈ c.running)
    (name : String) : ∃ d, Follows scripts (r.add name) waiting (ms ++ [.join host]) d
      (who ++ [(c.count, ⟨name, scriptOf scripts name⟩)]) got := by
  have hstep : c.step? (.join host) = some
      { c with merge := c.merge.add, count := c.count + 1, running := c.running ++ [c.count] } := if_pos hhost
  have hquiet (i : Nat) : emitted i (ms ++ [.join host]) = emitted i ms := emitted_quiet (by simp)
  refine ⟨_, h.table, h.reached_append hstep, ?_, ?_, h.got, ?_, ?_, fun x hx => ?_, fun i hi hrun => ?_, fun i hi => ?_⟩
  · simpa using h.going
  · exact congrArg Merge.add h.merge
  · rw [List.map_append, h.named]
    simp [add, scriptOf, h.table]
  · rw [List.map_append]
    exact h.running.append_right _
  · rw [hquiet]
    rcases List.mem_append.1 hx with hx | hx
    · exact h.rest x hx
    · rw [List.mem_singleton.1 hx, h.fresh c.count (Nat.le_refl _)]
      rfl
  · rw [hquiet]
    have hold : i ∉ c.running := fun hi => hrun (List.mem_append_left _ hi)
    have hne : i ≠ c.count := fun heq => hrun (by simp [heq])
    exact h.ended i (by dsimp only at hi; omega) hold
  · rw [hquiet]
    exact h.fresh i (by dsimp only at hi; omega)

/-- A producer that waited goes behind the others. -/
theorem Follows.back {p : Running} {i : Nat} {who : List (Nat × Running)}
    (h : Follows scripts r (p :: waiting) ms c ((i, p) :: who) got) {q : Running} (hname : q.name = p.name)
    (hq : yields q = yields p) : Follows scripts { r with running := r.running ++ [q] } waiting ms c (who ++ [(i, q)]) got := by
  have hnamed : who.map (·.2) = waiting ++ r.running := List.cons_inj_right _ |>.1 h.named
  refine ⟨h.table, h.reached, h.going, h.merge, h.got, ?_, ?_, fun x hx => ?_, h.ended, h.fresh⟩
  · rw [List.map_append, hnamed, List.append_assoc]
    rfl
  · rw [List.map_append]
    exact (List.perm_append_singleton _ _).trans h.running
  · rcases List.mem_append.1 hx with hx | hx
    · exact h.rest x (List.mem_cons_of_mem _ hx)
    · rw [List.mem_singleton.1 hx, hq, hname]
      exact h.rest (i, p) List.mem_cons_self

/-- A producer ends. -/
theorem Follows.leave {p : Running} {i : Nat} {who : List (Nat × Running)} {m : Crowd.Move (String × Value)}
    (h : Follows scripts r (p :: waiting) ms c ((i, p) :: who) got) (hm : m = .stop i ∨ m = .fail i) (hp : yields p = [])
    (log : List Log.Entry) :
    Follows scripts { r with merge := r.merge.close, log } waiting (ms ++ [m]) (c.leave i) who got := by
  have hnamed : who.map (·.2) = waiting ++ r.running := List.cons_inj_right _ |>.1 h.named
  have hi : i ∈ c.running := h.running.subset (by simp)
  have hstep : c.step? m = some (c.leave i) := by rcases hm with rfl | rfl <;> exact if_pos hi
  have hquiet (j : Nat) : emitted j (ms ++ [m]) = emitted j ms :=
    emitted_quiet (by rcases hm with rfl | rfl <;> simp)
  refine ⟨h.table, h.reached_append hstep, ?_, congrArg Merge.close h.merge, h.got, hnamed, ?_, fun x hx => ?_, fun j hj hrun => ?_,
    fun j hj => ?_⟩
  · rcases hm with rfl | rfl <;> simpa using h.going
  · have hperm := h.running.erase i
    rw [List.map_cons, List.erase_cons_head] at hperm
    exact hperm
  · rw [hquiet]
    exact h.rest x (List.mem_cons_of_mem _ hx)
  · rw [hquiet]
    by_cases hji : j = i
    · have hrest := h.rest (i, p) List.mem_cons_self
      rw [hp, List.append_nil] at hrest
      exact ⟨p.name, hji ▸ hrest⟩
    · exact h.ended j hj fun hmem => hrun ((List.mem_erase_of_ne hji).2 hmem)
  · rw [hquiet]
    exact h.fresh j hj

/-- A producer emits an item. -/
theorem Follows.emit {name : String} {v : Value} {rest : List Action} {i : Nat} {who : List (Nat × Running)}
    (h : Follows scripts r (⟨name, .emit v :: rest⟩ :: waiting) ms c ((i, ⟨name, .emit v :: rest⟩) :: who) got) :
    Follows scripts { r with merge := r.merge.put (name, v), running := r.running ++ [⟨name, rest⟩] } waiting
      (ms ++ [.emit i (name, v)]) { c with merge := c.merge.put (name, v) } (who ++ [(i, ⟨name, rest⟩)]) got := by
  have hnamed : who.map (·.2) = waiting ++ r.running := List.cons_inj_right _ |>.1 h.named
  have hi : i ∈ c.running := h.running.subset (by simp)
  have hstep : c.step? (.emit i (name, v)) = some { c with merge := c.merge.put (name, v) } := if_pos hi
  have hdistinct : (who.map (·.1)).Nodup ∧ ∀ x ∈ who, i ≠ x.1 := by
    have hnodup := h.running.nodup_iff.2 (Crowd.orderly_empty.play h.reached).distinct
    rw [List.map_cons, List.nodup_cons] at hnodup
    exact ⟨hnodup.2, fun x hx heq => hnodup.1 (List.mem_map.2 ⟨x, hx, heq.symm⟩)⟩
  refine ⟨h.table, h.reached_append hstep, ?_, congrArg (Merge.put · _) h.merge, h.got, ?_, ?_, fun x hx => ?_, fun j hj hrun => ?_,
    fun j hj => ?_⟩
  · simpa using h.going
  · rw [List.map_append, hnamed, List.append_assoc]
    rfl
  · rw [List.map_append]
    exact (List.perm_append_singleton _ _).trans h.running
  · rcases List.mem_append.1 hx with hx | hx
    · rw [emitted_other (hdistinct.2 x hx)]
      exact h.rest x (List.mem_cons_of_mem _ hx)
    · have hrest := h.rest _ List.mem_cons_self
      have hone : emitted i [.emit i (name, v)] = [(name, v)] := by simp [emitted]
      rw [List.mem_singleton.1 hx, emitted_append, List.append_assoc, hone]
      exact hrest
  · have hji : i ≠ j := fun heq => hrun (heq ▸ hi)
    rw [emitted_other hji]
    exact h.ended j hj hrun
  · have hlt := (Crowd.orderly_empty.play h.reached).added i hi
    rw [emitted_other (by dsimp only at hj; omega)]
    exact h.fresh j hj

/-- One action of the producer whose turn it is. -/
theorem Follows.step {p : Running} (h : Follows scripts r (p :: waiting) ms c who got) :
    ∃ ms' c' who', Follows scripts (r.step p) waiting ms' c' who' got := by
  obtain ⟨⟨i, p'⟩, who, rfl, rfl, -⟩ := List.map_eq_cons_iff.1 h.named
  have hi : i ∈ c.running := h.running.subset (by simp)
  rcases p' with ⟨name, _ | ⟨a, rest⟩⟩
  · exact ⟨_, _, _, h.leave (Or.inl rfl) rfl r.log⟩
  · cases a with
    | emit v => exact ⟨_, _, _, h.emit⟩
    | spawn other =>
      have hhost : ∀ j ∈ some i, j ∈ c.running := by simpa using hi
      obtain ⟨d, hd⟩ := h.join hhost other
      exact ⟨_, _, _, hd.back (q := ⟨name, rest⟩) rfl rfl⟩
    | fail => exact ⟨_, _, _, h.leave (Or.inr rfl) rfl _⟩
    | wait n =>
      cases n with
      | zero => exact ⟨_, _, _, h.back (q := ⟨name, rest⟩) rfl rfl⟩
      | succ n => exact ⟨_, _, _, h.back (q := ⟨name, .wait n :: rest⟩) rfl rfl⟩

theorem Follows.sweep (h : Follows scripts r [] ms c who got) : ∃ ms' c' who', Follows scripts r.sweep [] ms' c' who' got := by
  have hturns : ∀ (waiting : List Running) (r : Rounds) (ms c who got), Follows scripts r waiting ms c who got →
      ∃ ms' c' who', Follows scripts (waiting.foldl Rounds.step r) [] ms' c' who' got := by
    intro waiting
    induction waiting with
    | nil => exact fun r ms c who got h => ⟨ms, c, who, h⟩
    | cons p waiting ih =>
      intro r ms c who got h
      obtain ⟨ms', c', who', h'⟩ := h.step
      exact ih _ _ _ _ _ h'
  refine hturns r.running { r with running := [] } ms c who got ?_
  exact ⟨h.table, h.reached, h.going, h.merge, h.got, by simpa using h.named, h.running, h.rest, h.ended, h.fresh⟩

/-- The consumer takes what is there. -/
theorem Follows.drain (h : Follows scripts r waiting ms c who got) : ∃ ms' c',
    Follows scripts { r with merge := r.merge.drain.2 } waiting ms' c' who (got ++ r.merge.drain.1) := by
  obtain ⟨n, hn⟩ := exists_take_eq_drain c
  rw [h.merge, h.got] at hn
  have hquiet (i : Nat) : emitted i (ms ++ List.replicate n .take) = emitted i ms := by
    have hnil : emitted i (List.replicate n (.take : Crowd.Move (String × Value))) = [] := by
      rw [List.eq_nil_iff_forall_not_mem]
      intro a ha
      obtain ⟨m, hm, heq⟩ := List.mem_filterMap.1 ha
      rw [List.eq_of_mem_replicate hm] at heq
      exact absurd heq (by simp)
    rw [emitted_append, hnil, List.append_nil]
  have hreached := Crowd.play?_append {} ms (List.replicate n .take)
  rw [h.reached, Option.bind_some, hn] at hreached
  refine ⟨_, { c with merge := r.merge.drain.2, got := got ++ r.merge.drain.1 }, h.table, hreached, ?_, rfl, rfl, h.named, h.running, fun x hx => ?_, fun i hi hrun => ?_,
    fun i hi => ?_⟩
  · rw [List.mem_append, not_or]
    exact ⟨h.going, fun hmem => absurd (List.eq_of_mem_replicate hmem) (by simp)⟩
  · rw [hquiet]
    exact h.rest x hx
  · rw [hquiet]
    exact h.ended i hi hrun
  · rw [hquiet]
    exact h.fresh i hi

theorem Follows.read (fuel : Nat) (h : Follows scripts r [] ms c who got) : ∃ ms' c' who',
    Follows scripts (Rounds.read fuel r).2 [] ms' c' who' (got ++ (Rounds.read fuel r).1) := by
  induction fuel generalizing r ms c who got with
  | zero => exact ⟨ms, c, who, by simpa [Rounds.read] using h⟩
  | succ fuel ih =>
    obtain ⟨ms', c', h'⟩ := h.drain
    unfold Rounds.read
    dsimp only
    split
    · exact ⟨_, _, _, h'⟩
    · obtain ⟨ms₁, c₁, who₁, h₁⟩ := h'.sweep
      obtain ⟨ms₂, c₂, who₂, h₂⟩ := ih h₁
      exact ⟨ms₂, c₂, who₂, by simpa using h₂⟩

theorem Follows.addAll (names : List String) (h : Follows scripts r waiting ms c who got) : ∃ ms' c' who',
    Follows scripts (names.foldl add r) waiting ms' c' who' got := by
  induction names generalizing r ms c who with
  | nil => exact ⟨ms, c, who, h⟩
  | cons name names ih =>
    have hhost : ∀ j ∈ (none : Option Nat), j ∈ c.running := by simp
    obtain ⟨d, hd⟩ := h.join hhost name
    exact ih hd

/-- A round on an empty merge that comes to its end has run some scripts and yields what these emit, each item once and
the items of one run in its order. It leaves no producer and an empty merge. -/
theorem play_delivers (r : Rounds) (names : List String) (hmerge : r.merge = {}) (hrun : r.running = [])
    (hover : (r.play names).2.merge.isOver = true) :
    (r.play names).2.merge = {} ∧ (r.play names).2.running = [] ∧
    ∃ (runs : List String) (taken : List (Nat × Option (String × Value))),
      taken.filterMap (·.2) = (r.play names).1 ∧ (∀ e ∈ taken, e.1 < runs.length) ∧
      ∀ (i : Nat) (hi : i < runs.length),
        Crowd.itemsOf i taken = yields ⟨runs[i], scriptOf r.scripts runs[i]⟩ := by
  have hstart : Follows r.scripts r [] [] {} [] [] :=
    ⟨rfl, rfl, by simp, hmerge.symm, rfl, hrun.symm, .nil, by simp, by simp, by simp [emitted]⟩
  obtain ⟨ms₁, c₁, who₁, h₁⟩ := hstart.addAll names
  obtain ⟨ms, c, who, h⟩ := h₁.read sweepLimit
  change Follows r.scripts (r.play names).2 [] ms c who (r.play names).1 at h
  obtain ⟨-, -, hend, -, -, -⟩ := Crowd.round_delivers [] ms {} c rfl (by simp) h.going h.reached
  rw [h.merge] at hend
  obtain ⟨hnobody, hempty, taken, hgot, hitems, hrange⟩ := hend hover
  refine ⟨h.merge ▸ hempty, ?_, ?_⟩
  · have hwho : who = [] := by simpa [hnobody] using h.running.length_eq
    simpa [hwho] using h.named.symm
  · have hnames : ∀ i : Fin c.count, ∃ name, emitted i ms = yields ⟨name, scriptOf r.scripts name⟩ :=
      fun i => h.ended i i.2 (by simp [hnobody])
    choose name hname using hnames
    refine ⟨List.ofFn name, taken, hgot.trans h.got, fun e he => ?_, fun i hi => ?_⟩
    · rw [List.length_ofFn]
      exact (hrange e he).2
    · rw [List.length_ofFn] at hi
      rw [hitems, List.getElem_ofFn]
      exact hname ⟨i, hi⟩

end Rounds

end BareImports.Merge
