import BareImports.Cdn.Session
import BareImports.Proofs.Cdn.Cache

/-!
# What holds of a session

* `Session.Sound s` : the cache is sound and every call stands somewhere that its location accounts for;
* `Sound.step`, `sound_play` : it holds after any moves in any order;
* `extends_play` : what the cache knows it goes on to know;
* `step_cases` : all that a move does to the downloads.
-/

namespace BareImports.Cdn.Session

open Cache

/-- The cache is sound, and every call stands somewhere that its location accounts for. -/
structure Sound (s : Session) : Prop where
  /-- The cache is sound. -/
  cache : s.cache.Sound
  /-- Every call stands somewhere that its location accounts for. -/
  stands : ∀ slot ∈ s.slots, s.cache.Stands slot.call.location slot.status

theorem Sound.empty (url : String) : Sound (.empty url) := ⟨.empty url, by simp [Session.empty]⟩

/-! ## One move -/

/-- All that a move does. -/
inductive Does (s : Session) : Move → Session → Prop
  /-- A call is made. -/
  | call (c : Call) : Does s (.call c) { s with slots := s.slots ++ [⟨c, .waiting (.turn c.location)⟩] }
  /-- A call that waits goes on. -/
  | go {k : Nat} {c : Call} {w : Wait} {o : Cache × Status c.goal} (hk : s.slots[k]? = some ⟨c, .waiting w⟩)
      (ho : s.cache.Goes c.location o) : Does s (.go k) ⟨o.1, s.slots.set k ⟨c, o.2⟩⟩
  /-- There is no such call, or it has its result. -/
  | rest {k : Nat} : Does s (.go k) s
  /-- A request is answered. -/
  | answer (n : Nat) (a : Answer) : Does s (.answer n a) { s with cache := s.cache.complete n a }

theorem step_cases {s : Session} (h : s.Sound) (m : Move) : Does s m (s.step m) := by
  cases m with
  | call c => exact .call c
  | answer n a => exact .answer n a
  | go k =>
    unfold step
    dsimp only
    split
    · next c w hk => exact .go hk (resume_goes h.cache (h.stands _ (List.mem_of_getElem? hk)))
    · exact .rest

theorem Does.extends {s s' : Session} {m : Move} (h : Does s m s') : Extends s.cache s'.cache := by
  cases h with
  | call c => exact .refl _
  | go hk ho => exact ho.extends
  | rest => exact .refl _
  | answer n a => exact .complete

theorem Does.sound {s s' : Session} {m : Move} (h : Does s m s') (hs : s.Sound) : s'.Sound := by
  cases h with
  | call c =>
    refine ⟨hs.cache, fun slot hslot => ?_⟩
    rcases List.mem_append.1 hslot with hslot | hslot
    · exact hs.stands slot hslot
    · rw [List.mem_singleton.1 hslot]
      exact Expects.turn
  | @go k c w o hk ho =>
    refine ⟨ho.sound hs.cache, fun slot hslot => ?_⟩
    rcases List.mem_or_eq_of_mem_set hslot with hslot | rfl
    · exact (hs.stands slot hslot).mono ho.extends
    · exact ho.stands
  | rest => exact hs
  | answer n a => exact ⟨hs.cache.complete, fun slot hslot => (hs.stands slot hslot).mono .complete⟩

theorem Sound.step {s : Session} (h : s.Sound) (m : Move) : (s.step m).Sound := (step_cases h m).sound h

/-! ## Many moves -/

@[simp] theorem play_nil (s : Session) : s.play [] = s := rfl

@[simp] theorem play_cons (s : Session) (m : Move) (moves : List Move) :
    s.play (m :: moves) = (s.step m).play moves := rfl

theorem play_append (s : Session) (moves moves' : List Move) :
    s.play (moves ++ moves') = (s.play moves).play moves' := by
  unfold play
  rw [List.foldl_append]

/-- What each move keeps, all moves keep. -/
theorem play_induction {P : Session → Prop} {s : Session} {moves : List Move} (hs : s.Sound) (h : P s)
    (hstep : ∀ s m, m ∈ moves → s.Sound → P s → P (s.step m)) : P (s.play moves) := by
  induction moves generalizing s with
  | nil => exact h
  | cons m moves ih =>
    rw [play_cons]
    exact ih (hs.step m) (hstep s m (by simp) hs h) fun s m' hm' => hstep s m' (by simp [hm'])

theorem Sound.play {s : Session} (h : s.Sound) (moves : List Move) : (s.play moves).Sound :=
  play_induction h h fun _ m _ _ h => h.step m

theorem sound_play (url : String) (moves : List Move) : ((empty url).play moves).Sound := (Sound.empty url).play moves

theorem Sound.extends_play {s : Session} (h : s.Sound) (moves : List Move) : Extends s.cache (s.play moves).cache :=
  play_induction (P := fun t => Extends s.cache t.cache) h (.refl _)
    fun _ m _ ht he => he.trans (step_cases ht m).extends

theorem base_play (url : String) (moves : List Move) : ((empty url).play moves).cache.base = withFinalSlash url :=
  ((Sound.empty url).extends_play moves).base

end BareImports.Cdn.Session
