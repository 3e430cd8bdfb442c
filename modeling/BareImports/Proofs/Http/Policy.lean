import BareImports.Http.Fetcher
import Mathlib.Data.List.Basic

/-!
# Requests are repeated as configured

* `Outcome.isRetried` : an attempt that is made again unless it is the last one; `Outcome.conclusion`, what the last one
  makes of its request;
* `Line.outcome l i` : what attempt `i` from now on comes to; `Line.Did`, what a number of attempts did to a line;
* `Line.Made` : attempts that failed, each with its delay, and one more; `Line.Ends`, how a request ends;
* `Line.attempts_ends` : so do the attempts that are left, by induction on their number;
* `Fetcher.get_ends` : so does a request of a fetcher; `failed_gets`, the failures are counted over all of them;
* `Fetcher.gets_policy` : the policy as a whole.
-/

namespace BareImports.Http

/-- Whether an attempt is made again unless it is the last one: without a response, or with that of a server error. -/
def Outcome.isRetried : Outcome → Bool
  | response status .. => 500 ≤ status
  | timeout | refused _ => true
  | accident _ => false

/-- Why an attempt has no response in the end. -/
def Outcome.reason? : Outcome → Option String
  | timeout => some "timeout"
  | refused message => some (if message.isEmpty then "ClientError" else message)
  | response .. | accident _ => none

/-- What a request comes to whose last attempt, the `n`-th, comes to this. -/
def Outcome.conclusion (url : String) (n : Nat) : Outcome → Conclusion
  | response status final body charset contentType =>
    .answered ⟨status, final.getD url, Charset.decode body charset, contentType⟩
  | timeout => .exhausted n "timeout"
  | refused message => .exhausted n (if message.isEmpty then "ClientError" else message)
  | accident text => .accident text

namespace Line

/-- What attempt `i` from now on comes to. -/
def outcome (l : Line) (i : Nat) : Outcome := l.script.getD i (.accident "")

/-- What `n` attempts with some delays did to a line. -/
structure Did (url : String) (n : Nat) (delays : List Seconds) (l l' : Line) : Prop where
  /-- The attempts are recorded. -/
  calls : l'.calls = l.calls ++ List.replicate n url
  /-- So are the delays. -/
  delays : l'.delays = l.delays ++ delays
  /-- Their outcomes are used up. -/
  script : l'.script = l.script.drop n

section Did

variable {url : String} {n m : Nat} {ds es : List Seconds} {l l' l'' : Line}

theorem Did.trans (h : Did url n ds l l') (h' : Did url m es l' l'') : Did url (n + m) (ds ++ es) l l'' where
  calls := by rw [h'.calls, h.calls, List.append_assoc, List.replicate_append_replicate]
  delays := by rw [h'.delays, h.delays, List.append_assoc]
  script := by rw [h'.script, h.script, List.drop_drop]

theorem Did.outcome (h : Did url n ds l l') (i : Nat) : l'.outcome i = l.outcome (n + i) := by
  unfold Line.outcome
  rw [h.script, List.getD_eq_getElem?_getD, List.getD_eq_getElem?_getD, List.getElem?_drop]

theorem Did.note (h : Did url n ds l l') (e : Log.Entry) : Did url n ds l (l'.note e) := ⟨h.calls, h.delays, h.script⟩

theorem Did.pause (h : Did url n ds l l') (d : Seconds) : Did url n (ds ++ [d]) l (l'.pause d) where
  calls := h.calls
  delays := by
    show l'.delays ++ [d] = _
    rw [h.delays, List.append_assoc]
  script := h.script

theorem fst_take (l : Line) (url : String) : (l.take url).1 = l.outcome 0 := by
  unfold take outcome
  dsimp only
  split
  · next h => rw [h]; rfl
  · next h => rw [h]; rfl

theorem did_take (l : Line) (url : String) : Did url 1 [] l (l.take url).2 := by
  unfold take
  dsimp only
  split
  · next h => exact ⟨rfl, by simp, by rw [h]; rfl⟩
  · next h => exact ⟨rfl, by simp, by rw [h]; rfl⟩

end Did

/-! ## The attempts of a request -/

/-- After `done` failed attempts of a request, `k` more failed, each followed by its delay, and one more was made. -/
structure Made (url : String) (delay : Seconds) (done k : Nat) (l l' : Line) : Prop where
  /-- These attempts failed. -/
  failed : ∀ i < k, (l.outcome i).isRetried = true
  /-- Their delays can be computed. -/
  delays : ∀ i < k, delay.canDouble (done + i) = true
  /-- This is what they did. -/
  did : Did url (k + 1) ((List.range k).map fun i => delay.doubled (done + i)) l l'

/-- How a request ends that has `left` attempts left after `done` failed ones. -/
inductive Ends (url : String) (delay : Seconds) (done left : Nat) (l : Line) : Conclusion × Line → Prop
  /-- With the first outcome that is final, or that of the last attempt. -/
  | last {k : Nat} {l' : Line} (made : Made url delay done k l l') (hk : k < left)
    (hlast : k + 1 = left ∨ (l.outcome k).isRetried = false) :
    Ends url delay done left l ((l.outcome k).conclusion url (done + left), l')
  /-- With a failed attempt before the last one whose delay cannot be computed. -/
  | stuck {k : Nat} {l' : Line} (made : Made url delay done k l l') (hk : k + 1 < left)
    (hfailed : (l.outcome k).isRetried = true) (hstuck : delay.canDouble (done + k) = false) :
    Ends url delay done left l (.stuck, l')

section Attempts

variable {url target : String} {delay : Seconds} {done left k n : Nat} {l l' l'' : Line} {r : Conclusion × Line} {o : Outcome}
  {isLast : Bool}

theorem Did.made (h : Did url 1 [] l l') : Made url delay done 0 l l' where
  failed := by simp
  delays := by simp
  did := h

/-- A failed attempt with its delay comes in front of others. -/
theorem Made.cons (hfailed : (l.outcome 0).isRetried = true) (hdelay : delay.canDouble done = true)
    (hdid : Did url 1 [delay.doubled done] l l') (h : Made url delay (done + 1) k l' l'') :
    Made url delay done (k + 1) l l'' where
  failed := by
    rintro (_ | i) hi
    · exact hfailed
    · rw [Nat.add_comm i, ← hdid.outcome]
      exact h.failed i (by omega)
  delays := by
    rintro (_ | i) hi
    · exact hdelay
    · rw [show done + (i + 1) = done + 1 + i by omega]
      exact h.delays i (by omega)
  did := by
    have hboth := hdid.trans h.did
    have hdelays : (List.range (k + 1)).map (fun i => delay.doubled (done + i)) =
        [delay.doubled done] ++ (List.range k).map fun i => delay.doubled (done + 1 + i) := by
      rw [List.range_succ_eq_map, List.map_cons, List.map_map]
      refine congrArg _ (List.map_congr_left fun i _ => ?_)
      exact congrArg delay.doubled (by omega)
    rwa [hdelays, show k + 1 + 1 = 1 + (k + 1) by omega]

theorem Ends.cons (hfailed : (l.outcome 0).isRetried = true) (hdelay : delay.canDouble done = true)
    (hdid : Did url 1 [delay.doubled done] l l') (h : Ends url delay (done + 1) left l' r) :
    Ends url delay done (left + 1) l r := by
  cases h with
  | last made hk hlast =>
    rw [hdid.outcome, Nat.add_comm 1] at hlast ⊢
    rw [show done + 1 + left = done + (left + 1) by omega]
    exact .last (made.cons hfailed hdelay hdid) (by omega) (hlast.imp_left fun h => by omega)
  | @stuck k _ made hk hlast hstuck =>
    rw [hdid.outcome, Nat.add_comm 1] at hlast
    refine .stuck (made.cons hfailed hdelay hdid) (by omega) hlast ?_
    rwa [show done + (k + 1) = done + 1 + k by omega]

/-- Only the outcomes to come and what is recorded count. -/
theorem Ends.congr (hscript : l'.script = l.script) (hcalls : l'.calls = l.calls) (hdelays : l'.delays = l.delays)
    (h : Ends url delay done left l' r) : Ends url delay done left l r := by
  have houtcome : ∀ i, l'.outcome i = l.outcome i := fun i => by
    unfold Line.outcome
    rw [hscript]
  have hmade : ∀ {k l''}, Made url delay done k l' l'' → Made url delay done k l l'' := fun {k l''} h =>
    ⟨fun i hi => houtcome i ▸ h.failed i hi, h.delays, ⟨hcalls ▸ h.did.calls, hdelays ▸ h.did.delays, hscript ▸ h.did.script⟩⟩
  cases h with
  | last made hk hlast =>
    rw [houtcome] at hlast ⊢
    exact .last (hmade made) hk hlast
  | stuck made hk hfailed hstuck => exact .stuck (hmade made) hk (houtcome _ ▸ hfailed) hstuck

/-- What an outcome means: a failed attempt is one that is made again, or the last one without a response. -/
theorem judge_cases (url : String) (isLast : Bool) (o : Outcome) (n : Nat) :
    (∃ reason, judge url isLast o = .failed reason ∧ o.isRetried = true ∧
      (isLast = true → o.conclusion url n = .exhausted n reason)) ∨
    ((isLast = true ∨ o.isRetried = false) ∧
      ((∃ r, judge url isLast o = .answered r ∧ o.conclusion url n = .answered r) ∨
        ∃ text, judge url isLast o = .accident text ∧ o.conclusion url n = .accident text)) := by
  cases o with
  | response status final body charset contentType =>
    unfold judge
    by_cases hserver : 500 ≤ status
    · cases isLast with
      | false =>
        exact Or.inl ⟨"HTTP " ++ toString status, by simp [hserver], by simpa [Outcome.isRetried] using hserver, by simp⟩
      | true => exact Or.inr ⟨Or.inl rfl, Or.inl ⟨_, by simp, rfl⟩⟩
    · refine Or.inr ⟨Or.inr (by simpa [Outcome.isRetried] using hserver), Or.inl ⟨_, ?_, rfl⟩⟩
      simp [hserver]
  | timeout => exact Or.inl ⟨_, rfl, rfl, fun _ => rfl⟩
  | refused message => exact Or.inl ⟨_, rfl, rfl, fun _ => rfl⟩
  | accident text => exact Or.inr ⟨Or.inr rfl, Or.inr ⟨_, rfl, rfl⟩⟩

/-- The attempts that are left end the request: by induction on their number. -/
theorem attempts_ends (hleft : 0 < left) (reason : String) :
    Ends url delay done left l (attempts url target delay left done reason l) := by
  induction left generalizing done reason l with
  | zero => omega
  | succ left ih =>
    have htake := did_take (l.note (attemptEntry target (done + 1))) url
    have ho : ((l.note (attemptEntry target (done + 1))).take url).1 = l.outcome 0 := fst_take _ url
    unfold attempts
    generalize (l.note (attemptEntry target (done + 1))).take url = taken at htake ho
    obtain ⟨o, l₁⟩ := taken
    obtain rfl : o = l.outcome 0 := ho
    dsimp only
    have hdid : Did url 1 [] l { l₁ with log := l₁.log ++ outcomeEntries (l.outcome 0) } :=
      ⟨htake.calls, htake.delays, htake.script⟩
    generalize { l₁ with log := l₁.log ++ outcomeEntries (l.outcome 0) } = l₂ at hdid
    rcases judge_cases url (left == 0) (l.outcome 0) (done + (left + 1)) with
      ⟨reason, hjudge, hretried, hlast⟩ | ⟨hlast, ⟨r, hjudge, hc⟩ | ⟨text, hjudge, hc⟩⟩ <;> rw [hjudge] <;> dsimp only
    · have hfailed := hdid.note (failureEntry target reason (done + 1))
      generalize l₂.note (failureEntry target reason (done + 1)) = l₃ at hfailed
      split
      · next hzero =>
        obtain rfl : left = 0 := by simpa using hzero
        unfold attempts
        rw [← hlast rfl]
        exact .last (hfailed.note _).made (by omega) (Or.inl rfl)
      · next hmore =>
        have hpos : 0 < left := Nat.pos_of_ne_zero (by simpa using hmore)
        split
        · next hdelay => exact .cons hretried hdelay (hfailed.pause _) (ih hpos reason)
        · next hdelay => exact .stuck hfailed.made (by omega) hretried (by simpa using hdelay)
    · rw [← hc]
      exact .last (hdid.note _).made (Nat.succ_pos left) (hlast.imp_left (by simp))
    · rw [← hc]
      exact .last hdid.made (Nat.succ_pos left) (hlast.imp_left (by simp))

end Attempts

end Line

/-! ## Requests of a fetcher -/

theorem Outcome.conclusion_of_reason {o : Outcome} {reason : String} (h : o.reason? = some reason) (url : String) (n : Nat) :
    o.conclusion url n = .exhausted n reason ∧ o.isRetried = true := by
  cases o with
  | response | accident => exact absurd h (by simp [reason?])
  | timeout | refused => exact ⟨by rw [← Option.some.inj h]; rfl, rfl⟩

/-- No outcome is a delay that cannot be computed. -/
theorem Outcome.answer_conclusion_ne (o : Outcome) (url : String) (n : Nat) :
    (o.conclusion url n).answer ≠ .error .numberTooGreat := by
  cases o <;> simp [conclusion, Conclusion.answer]

theorem Outcome.isFailed_conclusion (o : Outcome) (url : String) (n : Nat) :
    (o.conclusion url n).isFailed = o.reason?.isSome := by
  cases o <;> rfl

namespace Fetcher

/-- How often a fetcher attempts a request: at least once. -/
def attempts (f : Fetcher) : Nat := (max 1 f.retries).toNat

/-- Requests, one after the other. -/
def gets (f : Fetcher) : List String → Line → List Cdn.Answer × Fetcher × Line
  | [], l => ([], f, l)
  | url :: urls, l =>
    let (a, f, l) := f.get url l
    let (as, f, l) := f.gets urls l
    (a :: as, f, l)

/-- Whether an answer is that of a request that failed at its last attempt. -/
def gaveUp : Cdn.Answer → Bool
  | .error (.refused ..) => true
  | _ => false

section Get

variable {f : Fetcher} {url : String} {l : Line}

theorem attempts_pos (f : Fetcher) : 0 < f.attempts := by
  unfold attempts
  omega

theorem start_line (f : Fetcher) (l : Line) : (f.start l).2.script = l.script ∧ (f.start l).2.calls = l.calls ∧
    (f.start l).2.delays = l.delays := by
  unfold start
  split <;> exact ⟨rfl, rfl, rfl⟩

theorem start_settings (f : Fetcher) (l : Line) : (f.start l).1.retries = f.retries ∧ (f.start l).1.delay = f.delay ∧
    (f.start l).1.failed = f.failed := by
  unfold start
  split <;> exact ⟨rfl, rfl, rfl⟩

/-- A request ends as its attempts do, and counts as failed if they were used up. -/
theorem get_ends (f : Fetcher) (url : String) (l : Line) : ∃ c, Line.Ends url f.delay 0 f.attempts l (c, (f.get url l).2.2) ∧
    (f.get url l).1 = c.answer ∧ (f.get url l).2.1.failed = f.failed + if c.isFailed then 1 else 0 := by
  obtain ⟨hscript, hcalls, hdelays⟩ := start_line f l
  obtain ⟨hretries, hdelay, hfailed⟩ := start_settings f l
  unfold get Line.request
  generalize f.start l = started at *
  obtain ⟨f₁, l₁⟩ := started
  dsimp only at *
  rw [hretries, hdelay, hfailed]
  exact ⟨_, (Line.attempts_ends f.attempts_pos "").congr hscript hcalls hdelays, rfl, rfl⟩

theorem gaveUp_answer {c : Conclusion} : gaveUp c.answer = c.isFailed := by
  cases c <;> rfl

theorem get_keeps (f : Fetcher) (url : String) (l : Line) : (f.get url l).2.1.retries = f.retries ∧
    (f.get url l).2.1.delay = f.delay := ⟨(start_settings f l).1, (start_settings f l).2.1⟩

theorem canDouble_eq_false {d : Seconds} {i : Nat} : d.canDouble i = false ↔ (∃ x, d = .real x) ∧ 1024 ≤ i := by
  cases d <;> simp [Seconds.canDouble]

/-- A failed attempt before the last one has a delay that cannot be computed: the delays are floating-point numbers, and
the first 1025 attempts fail. -/
structure Overflows (f : Fetcher) (l : Line) : Prop where
  /-- The delays are floating-point numbers. -/
  real : ∃ x, f.delay = .real x
  /-- More attempts are configured. -/
  attempts : 1025 < f.attempts
  /-- The first ones fail. -/
  failed : ∀ i ≤ 1024, (l.outcome i).isRetried = true

/-- The policy: a request is attempted until an outcome is final or the attempts are used up, with a delay behind each
failed attempt that doubles each time. -/
structure Follows (f : Fetcher) (url : String) (l : Line) (a : Cdn.Answer) (l' : Line) : Prop where
  /-- What the last attempt comes to is what the request comes to. -/
  exists_last : ∃ k < f.attempts, (∀ i < k, (l.outcome i).isRetried = true) ∧
    (k + 1 = f.attempts ∨ (l.outcome k).isRetried = false) ∧ a = ((l.outcome k).conclusion url f.attempts).answer ∧
    l'.calls = l.calls ++ List.replicate (k + 1) url ∧ l'.delays = l.delays ++ (List.range k).map f.delay.doubled ∧
    l'.script = l.script.drop (k + 1)
  /-- It is given up if the last one that is configured has no response. -/
  gaveUp_iff : (∃ status body, a = .error (.refused status body)) ↔
    (∀ i, i + 1 < f.attempts → (l.outcome i).isRetried = true) ∧ ∃ reason, (l.outcome (f.attempts - 1)).reason? = some reason
  /-- The number of attempts and the last failure are named then. -/
  error_eq : (∀ i, i + 1 < f.attempts → (l.outcome i).isRetried = true) →
    ∀ reason, (l.outcome (f.attempts - 1)).reason? = some reason →
      a = .error (.refused 0 ("Request failed after " ++ toString f.attempts ++ " attempts: " ++ reason))

/-- If all attempts before the one that is configured as the last failed, that one is made. -/
theorem eq_last {k n : Nat} (hk : k < n) (hlast : k + 1 = n ∨ (l.outcome k).isRetried = false)
    (hretried : ∀ i, i + 1 < n → (l.outcome i).isRetried = true) : k = n - 1 := by
  by_contra hne
  have hfinal := hlast.resolve_left (by omega)
  rw [hretried k (by omega)] at hfinal
  exact absurd hfinal (by simp)

/-- Attempts up to a final one follow the policy. -/
theorem Follows.of_made {k : Nat} {l' : Line} (made : Line.Made url f.delay 0 k l l') (hk : k < f.attempts)
    (hlast : k + 1 = f.attempts ∨ (l.outcome k).isRetried = false) :
    f.Follows url l ((l.outcome k).conclusion url f.attempts).answer l' where
  exists_last := ⟨k, hk, made.failed, hlast, rfl, made.did.calls, by simpa using made.did.delays, made.did.script⟩
  gaveUp_iff := by
    constructor
    · rintro ⟨status, body, hbody⟩
      have hgave : ((l.outcome k).conclusion url f.attempts).isFailed = true := by
        rw [← gaveUp_answer, hbody]
        rfl
      rw [Outcome.isFailed_conclusion, Option.isSome_iff_exists] at hgave
      obtain ⟨reason, hreason⟩ := hgave
      have hretried := ((l.outcome k).conclusion_of_reason hreason url f.attempts).2
      have hk' := hlast.resolve_right (by simp [hretried])
      obtain rfl : k = f.attempts - 1 := by omega
      exact ⟨fun i hi => made.failed i (by omega), reason, hreason⟩
    · rintro ⟨hretried, reason, hreason⟩
      obtain rfl := eq_last hk hlast hretried
      rw [(Outcome.conclusion_of_reason hreason url f.attempts).1]
      exact ⟨_, _, rfl⟩
  error_eq := by
    intro hretried reason hreason
    obtain rfl := eq_last hk hlast hretried
    rw [(Outcome.conclusion_of_reason hreason url f.attempts).1]
    rfl

theorem get_follows (h : ¬ f.Overflows l) : f.Follows url l (f.get url l).1 (f.get url l).2.2 := by
  obtain ⟨c, hends, hanswer, -⟩ := get_ends f url l
  rw [hanswer]
  generalize (f.get url l).2.2 = l' at hends
  cases hends with
  | @stuck k _ made hk hfailed hstuck =>
    -- all attempts up to this one failed, and this is not before the 1025th
    obtain ⟨hreal, hge⟩ := canDouble_eq_false.1 hstuck
    refine absurd ⟨hreal, by omega, fun i hi => ?_⟩ h
    rcases Nat.lt_or_eq_of_le (show i ≤ k by omega) with hi | rfl
    · exact made.failed i hi
    · exact hfailed
  | last made hk hlast =>
    rw [Nat.zero_add]
    exact .of_made made hk hlast

/-- What a request does otherwise. -/
theorem get_overflows (h : f.Overflows l) : (f.get url l).1 = .error .numberTooGreat ∧
    (f.get url l).2.2.calls = l.calls ++ List.replicate 1025 url ∧
    (f.get url l).2.2.delays = l.delays ++ (List.range 1024).map f.delay.doubled := by
  obtain ⟨c, hends, hanswer, -⟩ := get_ends f url l
  rw [hanswer]
  generalize (f.get url l).2.2 = l' at hends
  have hattempts := h.attempts
  -- the delay behind the 1025th attempt is the first one that cannot be computed
  have hshort : ∀ {k l'}, Line.Made url f.delay 0 k l l' → k ≤ 1024 := fun {k l'} made => by
    by_contra hlong
    have hcan := made.delays 1024 (by omega)
    rw [Nat.zero_add, canDouble_eq_false.2 ⟨h.real, Nat.le_refl _⟩] at hcan
    exact absurd hcan (by simp)
  cases hends with
  | @last k _ made hk hlast =>
    have hle := hshort made
    have hfinal := hlast.resolve_left (by omega)
    rw [h.failed k hle] at hfinal
    exact absurd hfinal (by simp)
  | @stuck k _ made hk hfailed hstuck =>
    obtain rfl : k = 1024 := Nat.le_antisymm (hshort made) (by simpa using (canDouble_eq_false.1 hstuck).2)
    exact ⟨rfl, made.did.calls, by simpa using made.did.delays⟩

/-- The requests that failed at their last attempt are counted. -/
theorem failed_gets (f : Fetcher) (urls : List String) (l : Line) :
    (f.gets urls l).2.1.failed = f.failed + (f.gets urls l).1.countP gaveUp := by
  induction urls generalizing f l with
  | nil => rfl
  | cons url urls ih =>
    obtain ⟨c, -, hanswer, hfailed⟩ := get_ends f url l
    show ((f.get url l).2.1.gets urls (f.get url l).2.2).2.1.failed = f.failed +
      ((f.get url l).1 :: ((f.get url l).2.1.gets urls (f.get url l).2.2).1).countP gaveUp
    rw [ih, hfailed, hanswer, List.countP_cons, gaveUp_answer]
    omega

end Get

/-- A request follows the policy exactly if no delay is too great to be computed, which ends it otherwise; it leaves the
settings as they are, and after any number of requests those are counted that were given up. -/
theorem gets_policy (f : Fetcher) (url : String) (urls : List String) (l : Line) :
    (f.Follows url l (f.get url l).1 (f.get url l).2.2 ↔ ¬ f.Overflows l) ∧
    (f.Overflows l → (f.get url l).1 = .error .numberTooGreat ∧
      (f.get url l).2.2.calls = l.calls ++ List.replicate 1025 url ∧
      (f.get url l).2.2.delays = l.delays ++ (List.range 1024).map f.delay.doubled) ∧
    ((f.get url l).2.1.retries = f.retries ∧ (f.get url l).2.1.delay = f.delay) ∧
    (f.failed = 0 → (f.gets urls l).2.1.failed = (f.gets urls l).1.countP gaveUp) := by
  refine ⟨⟨fun hfollows hover => ?_, get_follows⟩, get_overflows, get_keeps f url l, fun hnone => ?_⟩
  · obtain ⟨k, -, -, -, hanswer, -⟩ := hfollows.exists_last
    rw [(get_overflows hover).1] at hanswer
    exact Outcome.answer_conclusion_ne _ _ _ hanswer.symm
  · rw [failed_gets, hnone, Nat.zero_add]

/-- A server error and then no response. -/
def busy : Line := { script := [.response 503 none [] none none, .timeout] }

/-- No response at all. -/
def silent : Line := { script := List.replicate 1026 .timeout }

theorem overflows_silent : ({ retries := 1026, delay := .real 0 } : Fetcher).Overflows silent where
  real := ⟨0, rfl⟩
  attempts := by decide
  failed := fun i hi => by
    have htimeout : silent.outcome i = .timeout := by
      unfold Line.outcome silent
      rw [List.getD_eq_getElem?_getD, List.getElem?_replicate_of_lt (by omega)]
      rfl
    rw [htimeout]
    rfl

/-- Two attempts are given up; of 1026 with delays of no time the last one is not made. -/
theorem gets_policy_twice :
    (get { retries := 2, delay := .whole 1 } "https://a.example/x" busy).1 =
      .error (.refused 0 "Request failed after 2 attempts: timeout") ∧
    (get { retries := 1026, delay := .real 0 } "https://a.example/x" silent).1 = .error .numberTooGreat ∧
    (gets { retries := 2, delay := .whole 1 } ["https://a.example/x"] busy).2.1.failed =
      (gets { retries := 2, delay := .whole 1 } ["https://a.example/x"] busy).1.countP gaveUp := by
  have htwo : ¬ ({ retries := 2, delay := .whole 1 } : Fetcher).Overflows busy := by
    rintro ⟨⟨x, hx⟩, -, -⟩
    exact absurd hx (by simp)
  have hfollows := (gets_policy { retries := 2, delay := .whole 1 } "https://a.example/x" [] busy).1.2 htwo
  refine ⟨hfollows.error_eq (fun i hi => ?_) "timeout" rfl,
    ((gets_policy { retries := 1026, delay := .real 0 } "https://a.example/x" [] silent).2.1 overflows_silent).1,
    (gets_policy _ "https://a.example/x" _ busy).2.2.2 rfl⟩
  obtain rfl : i = 0 := by
    have hfirst : i + 1 < 2 := hi
    omega
  rfl

end Fetcher

end BareImports.Http
