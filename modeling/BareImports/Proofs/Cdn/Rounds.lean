import BareImports.Proofs.Cdn.Progress
import Mathlib.Algebra.BigOperators.Group.List.Basic
import Mathlib.Algebra.GroupWithZero.Nat
import Mathlib.Data.Prod.Lex

/-!
# Calls come to an end

* `Session.labour`, `Session.openness` : what is left to do, and how much of it can be done at once;
* `Session.rest_or_lt` : a call that goes on does nothing or leaves less to do;
* `Session.answersOf` : the answers of one round, `answerAll_eq`;
* `Session.Sound.exists_run_isDone` : enough rounds give every call its result.
-/

namespace BareImports.Cdn

theorem sum_map_set {α β : Type} [AddCommMonoid β] (F : α → β) {l : List α} {i : Nat} {a : α} (b : α)
    (h : l[i]? = some a) : ((l.set i b).map F).sum + F a = (l.map F).sum + F b := by
  induction l generalizing i with
  | nil => simp at h
  | cons x l ih =>
    cases i with
    | zero =>
      obtain rfl : x = a := by simpa using h
      rw [List.set_cons_zero, List.map_cons, List.sum_cons, List.map_cons, List.sum_cons]
      ac_rfl
    | succ i =>
      have hi := ih (by simpa using h)
      rw [List.set_cons_succ, List.map_cons, List.sum_cons, List.map_cons, List.sum_cons, add_assoc, hi, add_assoc]

theorem set_eq_self {α : Type} {l : List α} {i : Nat} {a : α} (h : l[i]? = some a) : l.set i a = l := by
  obtain ⟨hlt, rfl⟩ := List.getElem?_eq_some_iff.1 h
  exact List.set_getElem_self hlt

/-! ## What is left to do -/

/-- What is left to do for a call: twice over as long as it has still to find the download that answers it. -/
def Slot.labour (slot : Slot) : Nat :=
  match slot.status with
  | .done _ => 0
  | .waiting w => 2 * w.early + 1

/-- Whether a call can go on. -/
def Slot.openness (c : Cache) (slot : Slot) : Nat :=
  match slot.status with
  | .done _ => 0
  | .waiting w => c.ready w

namespace Session

open Cache

/-- What is left to do for the calls and the requests in flight. -/
def labour (s : Session) : Nat := (s.slots.map Slot.labour).sum + s.cache.pending

/-- How many calls can go on. -/
def openness (s : Session) : Nat := (s.slots.map (Slot.openness s.cache)).sum

/-- What is left to do, and how many calls can go on with it. -/
def measure (s : Session) : Nat ×ₗ Nat := toLex (s.labour, s.openness)

theorem measure_lt {s s' : Session} : s'.measure < s.measure ↔
    s'.labour < s.labour ∨ s'.labour = s.labour ∧ s'.openness < s.openness := Prod.Lex.toLex_lt_toLex

/-- A call that goes on does nothing, or it leaves less to do. -/
theorem rest_or_lt {s : Session} (hs : s.Sound) (k : Nat) :
    s.step (.go k) = s ∨ (s.step (.go k)).measure < s.measure := by
  unfold step
  dsimp only
  split
  swap
  · exact Or.inl rfl
  next call w hk =>
  have hadv := resume_advances (g := call.goal) hs.cache w
  revert hadv
  generalize s.cache.resume call.goal w = o
  intro hadv
  have hlabour := fun y => sum_map_set Slot.labour y hk
  have hopen := fun y => sum_map_set (Slot.openness s.cache) y hk
  cases hadv with
  | done x =>
    right
    rw [measure_lt]
    have hl := hlabour ⟨call, .done x⟩
    simp only [Slot.labour] at hl
    left
    simp only [labour]
    omega
  | @finds c' w' h =>
    right
    rw [measure_lt]
    have hl := hlabour ⟨call, .waiting w'⟩
    simp only [Slot.labour] at hl
    left
    simp only [labour]
    omega
  | @turns w' he hr =>
    right
    rw [measure_lt]
    have hl := hlabour ⟨call, .waiting w'⟩
    have ho := hopen ⟨call, .waiting w'⟩
    simp only [Slot.labour] at hl
    simp only [Slot.openness] at ho
    right
    simp only [labour, openness]
    omega
  | stays h =>
    left
    show (⟨s.cache, s.slots.set k ⟨call, .waiting w⟩⟩ : Session) = s
    rw [set_eq_self hk]

/-! ## One round -/

/-- Calls that go on in order all do nothing, or they leave less to do. -/
theorem rest_or_lt_goes (ks : List Nat) : ∀ {s : Session}, s.Sound →
    (s.play (ks.map .go) = s ∧ ∀ k ∈ ks, s.step (.go k) = s) ∨ (s.play (ks.map .go)).measure < s.measure := by
  induction ks with
  | nil => exact fun _ => Or.inl ⟨rfl, by simp⟩
  | cons k ks ih =>
    intro s hs
    rw [List.map_cons, play_cons]
    rcases rest_or_lt hs k with hk | hk
    · rw [hk]
      rcases ih hs with ⟨hplay, hks⟩ | hlt
      · refine Or.inl ⟨hplay, fun j hj => ?_⟩
        rcases List.mem_cons.1 hj with rfl | hj
        · exact hk
        · exact hks j hj
      · exact Or.inr hlt
    · right
      rcases ih (hs.step (.go k)) with ⟨hplay, -⟩ | hlt
      · rw [hplay]
        exact hk
      · exact hlt.trans hk

/-- The answers to all requests in flight. -/
def answersOf (fetch : String → Answer) (s : Session) : List Move :=
  s.cache.inFlight.map fun (n, url) => .answer n (fetch url)

theorem answerAll_eq (fetch : String → Answer) (s : Session) :
    answerAll (m := Id) fetch s = s.play (s.answersOf fetch) := by
  unfold answerAll play answersOf
  rw [List.foldl_map]
  generalize s.cache.inFlight = flights
  show List.foldlM (m := Id) _ s flights = _
  induction flights generalizing s with
  | nil => rfl
  | cons e flights ih => exact ih (s.step (.answer e.1 (fetch e.2)))

/-- The answer to a request in flight leaves less to do. -/
theorem labour_answer_lt {s : Session} {n : Nat} {url : String} (h : (n, url) ∈ s.cache.inFlight) (a : Answer) :
    (s.step (.answer n a)).labour < s.labour := by
  have hlt := pending_complete h a
  show (s.slots.map Slot.labour).sum + (s.cache.complete n a).pending < (s.slots.map Slot.labour).sum + s.cache.pending
  omega

/-- An answer does nothing, or it leaves less to do. -/
theorem rest_or_lt_answer (s : Session) (n : Nat) (a : Answer) :
    s.step (.answer n a) = s ∨ (s.step (.answer n a)).labour < s.labour := by
  by_cases h : ∃ url, (n, url) ∈ s.cache.inFlight
  · obtain ⟨url, h⟩ := h
    exact Or.inr (labour_answer_lt h a)
  · left
    have hself : s.cache.complete n a = s.cache :=
      complete_eq_self fun d hd ho => h ⟨_, mem_inFlight.2 ⟨d, hd, ho, rfl⟩⟩
    show { s with cache := s.cache.complete n a } = s
    rw [hself]

theorem labour_answer_le (s : Session) (n : Nat) (a : Answer) : (s.step (.answer n a)).labour ≤ s.labour := by
  rcases s.rest_or_lt_answer n a with h | h
  · rw [h]
  · exact h.le

theorem labour_answers_le (flights : List (Nat × Answer)) : ∀ s : Session,
    (s.play (flights.map fun e => .answer e.1 e.2)).labour ≤ s.labour := by
  induction flights with
  | nil => exact fun _ => Nat.le_refl _
  | cons e flights ih =>
    intro s
    rw [List.map_cons, play_cons]
    exact (ih _).trans (s.labour_answer_le e.1 e.2)

/-- The answers to all requests in flight leave less to do, unless there are none. -/
theorem measure_answers_lt (fetch : String → Answer) {s : Session} (h : s.cache.inFlight ≠ []) :
    (s.play (s.answersOf fetch)).measure < s.measure := by
  rw [measure_lt]
  left
  unfold answersOf
  obtain ⟨⟨n, url⟩, flights, hcons⟩ := List.exists_cons_of_ne_nil h
  have hmem : (n, url) ∈ s.cache.inFlight := by
    rw [hcons]
    exact List.mem_cons_self
  have hfirst := labour_answer_lt hmem (fetch url)
  have hrest := labour_answers_le (flights.map fun e => (e.1, fetch e.2)) (s.step (.answer n (fetch url)))
  rw [List.map_map] at hrest
  rw [hcons, List.map_cons, play_cons]
  exact Nat.lt_of_le_of_lt hrest hfirst

/-! ## Enough rounds -/

theorem isDone_iff {s : Session} : s.isDone = true ↔ ∀ slot ∈ s.slots, ∃ x, slot.result? = some x := by
  unfold isDone
  simp only [List.all_eq_true, Option.isSome_iff_exists]

/-- If no call goes on although one has no result, a request is in flight. -/
theorem Sound.inFlight_of_rest {s : Session} (hs : s.Sound) (hdone : s.isDone = false)
    (hrest : ∀ k ∈ List.range s.slots.length, s.step (.go k) = s) : s.cache.inFlight ≠ [] := by
  have hex : ∃ slot ∈ s.slots, slot.result? = none := by
    by_contra hnone
    have htrue : s.isDone = true := isDone_iff.2 fun slot hslot =>
      Option.ne_none_iff_exists'.1 fun h => hnone ⟨slot, hslot, h⟩
    rw [hdone] at htrue
    exact absurd htrue (by simp)
  obtain ⟨⟨call, status⟩, hslot, hres⟩ := hex
  obtain ⟨k, hlt, hget⟩ := List.mem_iff_getElem.1 hslot
  have hk : s.slots[k]? = some ⟨call, status⟩ := by rw [List.getElem?_eq_getElem hlt, hget]
  cases status with
  | done r => exact absurd hres (by simp [Slot.result?])
  | waiting w =>
    have hstep := hrest k (List.mem_range.2 hlt)
    simp only [Session.step, hk] at hstep
    have hcache : (s.cache.resume call.goal w).1 = s.cache := congrArg Session.cache hstep
    have hslots : s.slots.set k ⟨call, (s.cache.resume call.goal w).2⟩ = s.slots := congrArg Session.slots hstep
    have hsame : (⟨call, (s.cache.resume call.goal w).2⟩ : Slot) = ⟨call, .waiting w⟩ := by
      have hat := congrArg (fun l => l[k]?) hslots
      simp only [List.getElem?_set_self hlt, hk] at hat
      exact Option.some.inj hat
    have hstatus : (s.cache.resume call.goal w).2 = .waiting w := by
      simpa using hsame
    exact inFlight_of_stays hs.cache (hs.stands _ hslot) (Prod.ext hcache hstatus)

theorem run_succ (fetch : String → Answer) (n : Nat) (s : Session) : run (m := Id) fetch (n + 1) s =
    if s.sweep.isDone then s.sweep else run (m := Id) fetch n (s.sweep.play (s.sweep.answersOf fetch)) := by
  rw [← answerAll_eq]
  show (if s.sweep.isDone = true then s.sweep else _) = _
  rfl

/-- What calls and rounds of answers keep holds once enough rounds have given every call its result. -/
theorem Sound.exists_run_isDone (fetch : String → Answer) {P : Session → Prop}
    (hgo : ∀ s k, s.Sound → P s → P (s.step (.go k)))
    (hanswers : ∀ s, s.Sound → P s → P (s.play (s.answersOf fetch))) {s : Session} (hs : s.Sound) (h : P s) :
    ∃ n, (run (m := Id) fetch n s).isDone = true ∧ P (run (m := Id) fetch n s) := by
  -- by induction on what is left to do: a sweep leaves less, or else a request is in flight and its answer does
  induction hm : s.measure using WellFoundedLT.induction generalizing s with
  | ind μ ih =>
    have hsweep : s.sweep.Sound := hs.play _
    have hkeep : P s.sweep := by
      refine play_induction hs h fun t m hmem ht hP => ?_
      obtain ⟨k, -, rfl⟩ := List.mem_map.1 hmem
      exact hgo t k ht hP
    cases hdone : s.sweep.isDone with
    | true =>
      refine ⟨1, ?_⟩
      rw [run_succ, if_pos hdone]
      exact ⟨hdone, hkeep⟩
    | false =>
      have hlt : (s.sweep.play (s.sweep.answersOf fetch)).measure < μ := by
        have hle : s.sweep.measure ≤ μ ∧ (s.sweep.measure = μ → s.sweep.cache.inFlight ≠ []) := by
          rcases rest_or_lt_goes (List.range s.slots.length) hs with ⟨hplay, hrest⟩ | hlt
          · have hsame : s.sweep = s := hplay
            rw [hsame] at hdone ⊢
            exact ⟨hm.le, fun _ => hs.inFlight_of_rest hdone hrest⟩
          · rw [hm] at hlt
            exact ⟨hlt.le, fun heq => absurd heq hlt.ne⟩
        by_cases hflight : s.sweep.cache.inFlight = []
        · have hnone : s.sweep.answersOf fetch = [] := by
            unfold answersOf
            rw [hflight]
            rfl
          rw [hnone]
          exact lt_of_le_of_ne hle.1 fun heq => hle.2 heq hflight
        · exact (measure_answers_lt fetch hflight).trans_le hle.1
      obtain ⟨n, hn⟩ := ih _ hlt (hsweep.play _) (hanswers _ hsweep hkeep) rfl
      refine ⟨n + 1, ?_⟩
      rw [run_succ, if_neg (by simp [hdone])]
      exact hn

end Session

end BareImports.Cdn
