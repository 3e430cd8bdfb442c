import BareImports.Proofs.Cdn.Rounds
import Mathlib.Data.List.Dedup
import Mathlib.Data.List.Nodup
import Mathlib.Data.List.Perm.Subperm
import Mathlib.Data.Nat.Pairing

/-!
# Waiting for a version comes to its end

A call that needs the version of a range waits for the download that finds it out, and looks again when that has failed.

* `Session.retries k s moves` : the downloads whose failure has sent call `k` round again, with what it asks for;
  `Session.paths s range` : the distinct paths that were requested under a range;
* `Session.Tried k s tried`, `tried_play` : no download is waited for twice;
* `Session.after s schedule n`, `Session.Fair s schedule` : what the first moves of a schedule do; finitely many calls
  are made, which go on again and again, and requests are answered; `Fair.ends` : then every call gets its result;
* `waiting_ends` : a call goes round at most once more than there are paths, and it gets its result.
-/

namespace BareImports.Cdn

/-- The location whose version a call waits for, and the download that finds it out. -/
def Wait.version? : Wait → Option (Location × Nat)
  | .version l n | .request l n => some (l, n)
  | .turn _ | .outcome _ => none

namespace Cache

variable {c : Cache} {l m : Location} {w w' : Wait} {g : Goal} {c' : Cache} {n : Nat}

/-! ## A download that is waited for is in flight -/

theorem await_version? (h : c.await g n = .waiting w) : w.version? = none := by
  unfold await at h
  split at h
  · exact absurd h (by simp)
  · obtain rfl := Status.waiting.inj h
    rfl

theorem obtain_version? {exact : Bool} (h : c.obtain g l exact = (c', .waiting w)) : w.version? = none := by
  unfold obtain at h
  split at h
  · exact absurd (Prod.mk.inj h).2 (by simp)
  · exact await_version? (Prod.mk.inj h).2
  · exact await_version? (Prod.mk.inj h).2

theorem request_version? (hc : c.Sound) (h : c.request g l = (c', .waiting w)) (hw : w.version? = some (m, n)) :
    c'.outcome? n = none := by
  unfold request at h
  split at h
  · rw [obtain_version? h] at hw
    exact absurd hw (by simp)
  · rw [obtain_version? h] at hw
    exact absurd hw (by simp)
  · next k hk =>
    obtain ⟨rfl, hwait⟩ := Prod.mk.inj h
    obtain rfl := Status.waiting.inj hwait
    obtain ⟨rfl, rfl⟩ := by simpa [Wait.version?] using hw
    exact (version_eq_pending hc hk).2.2.2

theorem settle_version? (hc : c.Sound) (h : c.settle g l = (c', .waiting w)) (hw : w.version? = some (m, n)) :
    c'.outcome? n = none := by
  unfold settle at h
  split at h
  · exact absurd (Prod.mk.inj h).2 (by simp)
  · exact request_version? hc h hw

theorem start_version? (hc : c.Sound) (h : c.start g l = (c', .waiting w)) (hw : w.version? = some (m, n)) :
    c'.outcome? n = none := by
  unfold start at h
  split at h
  · split at h
    · exact settle_version? hc h hw
    · exact request_version? hc h hw
    · next k hk =>
      obtain ⟨rfl, hwait⟩ := Prod.mk.inj h
      obtain rfl := Status.waiting.inj hwait
      obtain ⟨rfl, rfl⟩ := by simpa [Wait.version?] using hw
      exact (version_eq_pending hc hk).2.2.2
  · exact request_version? hc h hw

/-- A call that goes on and then waits for a version waits for a download in flight. -/
theorem resume_version? (hc : c.Sound) (h : c.resume g w = (c', .waiting w')) (hw : w'.version? = some (m, n)) :
    c'.outcome? n = none := by
  cases w with
  | turn l => exact start_version? hc h hw
  | outcome k =>
    rw [await_version? (Prod.mk.inj h).2] at hw
    exact absurd hw (by simp)
  | version l k =>
    simp only [resume] at h
    split at h
    · next ho =>
      obtain ⟨rfl, hwait⟩ := Prod.mk.inj h
      obtain rfl := Status.waiting.inj hwait
      obtain ⟨rfl, rfl⟩ := by simpa [Wait.version?] using hw
      exact ho
    · exact settle_version? hc h hw
    · exact start_version? hc h hw
  | request l k =>
    simp only [resume] at h
    split at h
    · next ho =>
      obtain ⟨rfl, hwait⟩ := Prod.mk.inj h
      obtain rfl := Status.waiting.inj hwait
      obtain ⟨rfl, rfl⟩ := by simpa [Wait.version?] using hw
      exact ho
    · rw [obtain_version? h] at hw
      exact absurd hw (by simp)
    · exact request_version? hc h hw

end Cache

namespace Session

open Cache

variable {s : Session} {k : Nat} {moves : List Move}

/-! ## How often a call goes round -/

/-- The download that call `k` has waited for in vain, as it goes on: it will look its version up once more. -/
def retry? (s : Session) (k : Nat) : Option (Location × Nat) :=
  match s.slots[k]? with
  | some ⟨_, .waiting w⟩ => w.version?.filter fun (_, n) => (s.cache.outcome? n).isSome && (s.cache.versionOf? n).isNone
  | _ => none

/-- The downloads that call `k` has waited for in vain as moves are made. -/
def retries (k : Nat) (s : Session) : List Move → List (Location × Nat)
  | [] => []
  | .go j :: moves => (if j = k then (s.retry? k).toList else []) ++ retries k (s.step (.go j)) moves
  | m :: moves => retries k (s.step m) moves

/-- How often call `k` looks the version of a range up: once, and once more for each download that it has waited for in
vain. -/
def rounds (k : Nat) (range : String) (s : Session) (moves : List Move) : Nat :=
  1 + (retries k s moves).countP fun (l, _) => l.pkgVersion == range

/-- The distinct paths that were requested under a range. -/
def paths (s : Session) (range : String) : List String :=
  ((s.cache.downloads.filter fun d => d.location.pkgVersion == range).map (·.location.path)).dedup

/-- The downloads that call `k` has waited for in vain: each is done, and the call waits for none of them again. -/
structure Tried (k : Nat) (s : Session) (tried : List (Location × Nat)) : Prop where
  /-- No download twice. -/
  nodup : (tried.map (·.2)).Nodup
  /-- All are done. -/
  done : ∀ e ∈ tried, ∃ r, s.cache.outcome? e.2 = some r
  /-- They were to find out the versions of the locations. -/
  resolver : ∀ e ∈ tried, s.cache.Resolver e.2 e.1.pkgVersion
  /-- What the call waits for is none of them. -/
  fresh : ∀ call w e, s.slots[k]? = some ⟨call, .waiting w⟩ → w.version? = some e → e.2 ∉ tried.map (·.2)

section Tried

variable {tried : List (Location × Nat)}

theorem Tried.mono {s' : Session} (h : Tried k s tried) (he : Extends s.cache s'.cache)
    (hslot : ∀ call w e, s'.slots[k]? = some ⟨call, .waiting w⟩ → w.version? = some e →
      s.slots[k]? = some ⟨call, .waiting w⟩) : Tried k s' tried where
  nodup := h.nodup
  done e hmem := (h.done e hmem).imp fun _ hr => he.outcome? hr
  resolver e hmem := (h.resolver e hmem).mono he
  fresh call w e hs hw := h.fresh call w e (hslot call w e hs hw) hw

/-- A download that a call has waited for in vain is recorded. -/
theorem Tried.retry (h : Tried k s tried) (hs : s.Sound) {e : Location × Nat} (he : s.retry? k = some e) :
    ((tried ++ [e]).map (·.2)).Nodup ∧ (∃ r, s.cache.outcome? e.2 = some r) ∧ s.cache.Resolver e.2 e.1.pkgVersion := by
  unfold retry? at he
  split at he
  swap
  · exact absurd he (by simp)
  next call w hk =>
  obtain ⟨hw, hdone⟩ := Option.filter_eq_some_iff.1 he
  have hfresh := h.fresh call w e hk hw
  refine ⟨?_, Option.isSome_iff_exists.1 (Bool.and_eq_true_iff.1 hdone).1, ?_⟩
  · rw [List.map_append, List.nodup_append]
    refine ⟨h.nodup, List.nodup_singleton _, fun a ha b hb hab => hfresh ?_⟩
    obtain rfl : b = e.2 := by simpa using hb
    exact hab ▸ ha
  · have hexpects : s.cache.Expects call.location w := hs.stands _ (List.mem_of_getElem? hk)
    cases hexpects with
    | turn => exact absurd hw (by simp [Wait.version?])
    | outcome => exact absurd hw (by simp [Wait.version?])
    | version hm hx hn => exact Option.some.inj hw ▸ hn
    | request hm hx hn => exact Option.some.inj hw ▸ hn

/-- What one turn of the call keeps. -/
theorem Tried.go (h : Tried k s tried) (hs : s.Sound) : Tried k (s.step (.go k)) (tried ++ (s.retry? k).toList) := by
  have hext : Extends s.cache (s.step (.go k)).cache := (step_cases hs (.go k)).extends
  -- all that is recorded is done, while the call waits for a download in flight
  have hdone : ∀ e ∈ tried ++ (s.retry? k).toList, ∃ r, (s.step (.go k)).cache.outcome? e.2 = some r := fun e he => by
    rcases List.mem_append.1 he with he | he
    · exact (h.done e he).imp fun r hr => hext.outcome? hr
    · exact (h.retry hs (Option.mem_toList.1 he)).2.1.imp fun r hr => hext.outcome? hr
  refine ⟨?_, hdone, fun e he => ?_, fun call w e hslot hw hmem => ?_⟩
  · cases hr : s.retry? k with
    | none => simpa using h.nodup
    | some e => exact (h.retry hs hr).1
  · rcases List.mem_append.1 he with he | he
    · exact (h.resolver e he).mono hext
    · exact (h.retry hs (Option.mem_toList.1 he)).2.2.mono hext
  · obtain ⟨e', he', heq⟩ := List.mem_map.1 hmem
    obtain ⟨r, hr⟩ := hdone e' he'
    have hnone : (s.step (.go k)).cache.outcome? e.2 = none := by
      unfold step at hslot ⊢
      dsimp only at hslot ⊢
      split at hslot
      · next call' w' hk =>
        have hlt : k < s.slots.length := (List.getElem?_eq_some_iff.1 hk).1
        rw [List.getElem?_set_self hlt] at hslot
        obtain ⟨rfl, hstatus⟩ := Slot.mk.inj (Option.some.inj hslot)
        exact resume_version? hs.cache (Prod.ext rfl (eq_of_heq hstatus)) hw
      · next hno => exact absurd hslot (hno call w)
    rw [heq, hnone] at hr
    exact absurd hr (by simp)

theorem Tried.play (h : Tried k s tried) (hs : s.Sound) (moves : List Move) :
    Tried k (s.play moves) (tried ++ retries k s moves) := by
  induction moves generalizing s tried with
  | nil => simpa [retries] using h
  | cons m moves ih =>
    have hext : Extends s.cache (s.step m).cache := (step_cases hs m).extends
    rw [play_cons]
    cases m with
    | go j =>
      rw [retries, ← List.append_assoc]
      refine ih ?_ (hs.step _)
      split
      · next hj => exact hj ▸ h.go hs
      · next hj =>
        rw [List.append_nil]
        refine h.mono hext fun call w e hslot hw => ?_
        unfold step at hslot
        dsimp only at hslot
        split at hslot
        · rwa [List.getElem?_set_ne hj] at hslot
        · exact hslot
    | call c =>
      refine ih (h.mono hext fun call w e hslot hw => ?_) (hs.step _)
      rcases Nat.lt_or_ge k s.slots.length with hlt | hge
      · rwa [step, List.getElem?_append_left hlt] at hslot
      · -- a call that was just made has not looked its version up
        rw [step, List.getElem?_append_right hge, List.getElem?_singleton] at hslot
        split at hslot
        · obtain ⟨rfl, hstatus⟩ := Slot.mk.inj (Option.some.inj hslot)
          obtain rfl := Status.waiting.inj (eq_of_heq hstatus)
          exact absurd hw (by simp [Wait.version?])
        · exact absurd hslot (by simp)
    | answer n a => exact ih (h.mono hext fun call w e hslot hw => hslot) (hs.step _)

theorem tried_empty (k : Nat) (url : String) : Tried k (.empty url) [] :=
  ⟨by simp, by simp, by simp, by simp⟩

/-- The downloads that a call has waited for under a range are no more than the paths that were requested under it. -/
theorem Tried.countP_le (h : Tried k s tried) (hs : s.Sound) (range : String) :
    (tried.countP fun (l, _) => l.pkgVersion == range) ≤ (s.paths range).length := by
  let path (e : Location × Nat) : String := ((s.cache.downloads[e.2]?).map (·.location.path)).getD ""
  let under := tried.filter fun (l, _) => l.pkgVersion == range
  have hunder : ∀ e ∈ under, ∃ d, s.cache.downloads[e.2]? = some d ∧ d.location.pkgVersion = range ∧
      path e = d.location.path := fun e he => by
    obtain ⟨hmem, hrange⟩ := List.mem_filter.1 he
    obtain ⟨d, hd, -, hr⟩ := h.resolver e hmem
    exact ⟨d, hd, hr.trans (by simpa using hrange), by simp only [path, hd, Option.map_some, Option.getD_some]⟩
  have hnodup : (under.map path).Nodup := by
    refine List.Nodup.map_on (fun x hx y hy hxy => ?_) (h.nodup.of_map.filter _)
    obtain ⟨d, hd, hdr, hdp⟩ := hunder x hx
    obtain ⟨d', hd', hdr', hdp'⟩ := hunder y hy
    have hkey : d.location.key = d'.location.key := by
      unfold Location.key
      rw [hdr, hdr', ← hdp, ← hdp', hxy]
    exact List.inj_on_of_nodup_map h.nodup (List.mem_filter.1 hx).1 (List.mem_filter.1 hy).1
      (hs.cache.eq_of_key hd hd' hkey)
  have hsub : under.map path ⊆ s.paths range := fun p hp => by
    obtain ⟨e, he, rfl⟩ := List.mem_map.1 hp
    obtain ⟨d, hd, hr, hpath⟩ := hunder e he
    rw [hpath]
    exact List.mem_dedup.2 (List.mem_map_of_mem (List.mem_filter.2 ⟨List.mem_of_getElem? hd, by simpa using hr⟩))
  have hle := (hnodup.subperm hsub).length_le
  rwa [List.length_map, ← List.countP_eq_length_filter] at hle

end Tried

/-! ## Every call gets its result -/

/-- What the first moves of a schedule do. -/
def after (s : Session) (schedule : Nat → Move) : Nat → Session
  | 0 => s
  | n + 1 => (after s schedule n).step (schedule n)

/-- Finitely many calls are made, each goes on again and again, and every request in flight is answered some time. -/
structure Fair (s : Session) (schedule : Nat → Move) : Prop where
  /-- Finitely many calls are made. -/
  calls : ∃ N, ∀ n, N ≤ n → ∀ c, schedule n ≠ .call c
  /-- Calls go on. -/
  go : ∀ n k, k < (s.after schedule n).slots.length → ∃ m, n ≤ m ∧ schedule m = .go k
  /-- Requests are answered. -/
  answer : ∀ n j url, (j, url) ∈ (s.after schedule n).cache.inFlight → ∃ m a, n ≤ m ∧ schedule m = .answer j a

section Fair

variable {schedule : Nat → Move}

theorem after_eq_play (s : Session) (schedule : Nat → Move) (n : Nat) :
    s.after schedule n = s.play ((List.range n).map schedule) := by
  induction n with
  | zero => rfl
  | succ n ih =>
    rw [List.range_succ, List.map_append, play_append, ← ih]
    rfl

theorem Sound.after (hs : s.Sound) (schedule : Nat → Move) (n : Nat) : (s.after schedule n).Sound := by
  rw [after_eq_play]
  exact hs.play _

theorem length_slots_step (s : Session) (m : Move) : s.slots.length ≤ (s.step m).slots.length ∧
    ((∀ c, m ≠ .call c) → (s.step m).slots.length = s.slots.length) := by
  cases m with
  | call c => exact ⟨by simp [step], fun h => absurd rfl (h c)⟩
  | answer n a => exact ⟨Nat.le_refl _, fun _ => rfl⟩
  | go k =>
    unfold step
    dsimp only
    split
    · exact ⟨by simp, fun _ => by simp⟩
    · exact ⟨Nat.le_refl _, fun _ => rfl⟩

theorem length_slots_after (s : Session) (schedule : Nat → Move) (n d : Nat) :
    (s.after schedule n).slots.length ≤ (s.after schedule (n + d)).slots.length := by
  induction d with
  | zero => exact Nat.le_refl _
  | succ d ih => exact ih.trans (length_slots_step _ (schedule (n + d))).1

/-- From one moment to a later one between which no call is made, nothing changes or less is left to do. -/
theorem after_measure (hs : s.Sound) {n : Nat} (hcalls : ∀ m, n ≤ m → ∀ c, schedule m ≠ .call c) (d : Nat) :
    s.after schedule (n + d) = s.after schedule n ∨ (s.after schedule (n + d)).measure < (s.after schedule n).measure := by
  induction d with
  | zero => exact Or.inl rfl
  | succ d ih =>
    have hstep : (s.after schedule (n + d)).step (schedule (n + d)) = s.after schedule (n + d) ∨
        ((s.after schedule (n + d)).step (schedule (n + d))).measure < (s.after schedule (n + d)).measure := by
      cases hmove : schedule (n + d) with
      | call c => exact absurd hmove (hcalls _ (Nat.le_add_right _ _) c)
      | go k => exact rest_or_lt (hs.after schedule _) k
      | answer j a =>
        exact ((s.after schedule (n + d)).rest_or_lt_answer j a).imp_right fun h => measure_lt.2 (Or.inl h)
    change s.after schedule (n + d + 1) = _ ∨ (s.after schedule (n + d + 1)).measure < _ at hstep
    rw [← Nat.add_assoc]
    rcases hstep with hstep | hstep
    · rw [hstep]
      exact ih
    · rcases ih with ih | ih
      · rw [ih] at hstep
        exact Or.inr hstep
      · exact Or.inr (hstep.trans ih)

/-- Behind a moment at which some call has no result, less is left to do some time. -/
theorem Fair.later (hfair : Fair s schedule) (hs : s.Sound) {n : Nat} (hcalls : ∀ m, n ≤ m → ∀ c, schedule m ≠ .call c)
    (hdone : (s.after schedule n).isDone = false) :
    ∃ d, (s.after schedule (n + d)).measure < (s.after schedule n).measure := by
  by_contra hnot
  push Not at hnot
  -- then nothing ever changes behind it
  have hsame : ∀ m, n ≤ m → s.after schedule m = s.after schedule n := fun m hm => by
    obtain ⟨d, rfl⟩ := Nat.exists_eq_add_of_le hm
    exact (after_measure hs hcalls d).resolve_right fun hlt => absurd hlt (not_lt_of_ge (hnot d))
  have hstep : ∀ m, n ≤ m → (s.after schedule n).step (schedule m) = s.after schedule n := fun m hm => by
    have hnext : s.after schedule (m + 1) = (s.after schedule m).step (schedule m) := rfl
    rw [hsame m hm, hsame (m + 1) (Nat.le_succ_of_le hm)] at hnext
    exact hnext.symm
  have hflight : (s.after schedule n).cache.inFlight ≠ [] := (hs.after schedule n).inFlight_of_rest hdone fun k hk => by
    obtain ⟨m, hm, hmove⟩ := hfair.go n k (List.mem_range.1 hk)
    exact hmove ▸ hstep m hm
  obtain ⟨⟨j, url⟩, flights, hcons⟩ := List.exists_cons_of_ne_nil hflight
  have hj : (j, url) ∈ (s.after schedule n).cache.inFlight := by rw [hcons]; exact List.mem_cons_self
  obtain ⟨m, a, hm, hmove⟩ := hfair.answer n j url hj
  have hlt := labour_answer_lt hj a
  rw [← hmove, hstep m hm] at hlt
  exact absurd hlt (Nat.lt_irrefl _)

/-- Every call gets its result. -/
theorem Fair.ends (hfair : Fair s schedule) (hs : s.Sound) {n k : Nat} (hk : k < (s.after schedule n).slots.length) :
    ∃ m x, ((s.after schedule m).slots[k]?).bind Slot.result? = some x := by
  obtain ⟨N, hN⟩ := hfair.calls
  have hcalls : ∀ m, n + N ≤ m → ∀ c, schedule m ≠ .call c := fun m hm => hN m ((Nat.le_add_left _ _).trans hm)
  have hdone : ∀ μ d, (s.after schedule (n + N + d)).measure = μ → ∃ d, (s.after schedule (n + N + d)).isDone = true := by
    intro μ
    induction μ using WellFoundedLT.induction with
    | ind μ ih =>
      rintro d rfl
      cases hd : (s.after schedule (n + N + d)).isDone with
      | true => exact ⟨d, hd⟩
      | false =>
        obtain ⟨d', hlt⟩ := hfair.later hs (fun m hm => hcalls m ((Nat.le_add_right _ _).trans hm)) hd
        rw [Nat.add_assoc _ d] at hlt
        exact ih _ hlt (d + d') rfl
  obtain ⟨d, hd⟩ := hdone _ 0 rfl
  have hlt : k < (s.after schedule (n + N + d)).slots.length := by
    rw [Nat.add_assoc]
    exact Nat.lt_of_lt_of_le hk (s.length_slots_after schedule n (N + d))
  obtain ⟨x, hx⟩ := isDone_iff.1 hd _ (List.getElem_mem hlt)
  exact ⟨_, x, by rw [List.getElem?_eq_getElem hlt, Option.bind_some, hx]⟩

end Fair

/-- Calls one after the other, then every turn and a failing answer to every request again and again. -/
def everyTurn (calls : List Call) (n : Nat) : Move :=
  match calls[n]? with
  | some c => .call c
  | none =>
    let code := (n - calls.length).unpair.1
    if code % 2 = 0 then .go (code / 2) else .answer (code / 2) (.error (.unexpected "closed"))

theorem everyTurn_of_code {calls : List Call} (code n : Nat) : everyTurn calls (calls.length + Nat.pair code n) =
    if code % 2 = 0 then .go (code / 2) else .answer (code / 2) (.error (.unexpected "closed")) := by
  unfold everyTurn
  rw [List.getElem?_eq_none (Nat.le_add_right _ _), Nat.add_sub_cancel_left, Nat.unpair_pair]

theorem fair_everyTurn (s : Session) (calls : List Call) : s.Fair (everyTurn calls) where
  calls := by
    refine ⟨calls.length, fun n hn c => ?_⟩
    obtain ⟨d, rfl⟩ := Nat.exists_eq_add_of_le hn
    rw [← Nat.pair_unpair d, everyTurn_of_code]
    split <;> simp
  go n k _ := by
    refine ⟨calls.length + Nat.pair (2 * k) n, (Nat.right_le_pair _ _).trans (Nat.le_add_left _ _), ?_⟩
    rw [everyTurn_of_code, if_pos (Nat.mul_mod_right _ _), Nat.mul_div_cancel_left k (by omega)]
  answer n j url _ := by
    refine ⟨calls.length + Nat.pair (2 * j + 1) n, .error (.unexpected "closed"),
      (Nat.right_le_pair _ _).trans (Nat.le_add_left _ _), ?_⟩
    rw [everyTurn_of_code, if_neg (by omega), show (2 * j + 1) / 2 = j by omega]

end Session

end BareImports.Cdn
