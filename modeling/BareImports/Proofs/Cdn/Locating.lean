import BareImports.Proofs.Cdn.Transparency

/-!
# What a call for a canonical location comes to

* `judged S d` : what the answer of a site makes of a download; `finalLocation S l`, the location that the final URL names;
* `Settles S` : the location that a final URL names is its own final location; `settles_serving`, if the rows say so;
* `Cache.Reads S c` : every outcome is what the site's answer makes of the download; kept by every move;
* `Session.Prompt slot` : a call for an exact location with an extension has that location as its result at once;
* `exists_rounds` : enough rounds of answers are further moves after which every call has its result.
-/

namespace BareImports.Cdn

open Build (Site)
open Location

/-- What the answer of a site makes of a download: the final URL has to be readable if it finds a version out. -/
def judged (S : Site) (d : Download) : Except Failure Fetched :=
  (S.fetch d.location).bind fun f => if d.resolves then (readUrl S.base f.url).map fun _ => f else .ok f

/-- The location that the final URL of a location names. -/
def finalLocation (S : Site) (l : Location) : Except Failure Location := Goal.location.finish S.base (S.fetch l)

/-- The location that a final URL names is its own final location. -/
def Settles (S : Site) : Prop := ∀ l k, finalLocation S l = .ok k → finalLocation S k = .ok k

theorem readUrl_eq_ok {base url : String} {l : Location} : readUrl base url = .ok l ↔ parseUrl? base url = some l := by
  unfold readUrl
  constructor
  · intro h
    split at h
    · next k hk => rw [hk, Except.ok.inj h]
    · exact absurd h (by simp)
  · intro h
    rw [h]

section Judged

variable {S : Site} {l m : Location}

theorem fetch_of_key (h : l.key = m.key) : S.fetch l = S.fetch m := by
  rw [fetch_eq_get, fetch_eq_get, h]

theorem finalLocation_of_key (h : l.key = m.key) : finalLocation S l = finalLocation S m := by
  unfold finalLocation
  rw [fetch_of_key h]

theorem finalLocation_eq_ok : finalLocation S l = .ok m ↔ ∃ f, S.fetch l = .ok f ∧ parseUrl? S.base f.url = some m := by
  unfold finalLocation
  rcases S.fetch l with e | f
  · refine ⟨fun h => absurd h (by simp [Goal.finish, Except.bind]), ?_⟩
    rintro ⟨f, hf, -⟩
    exact absurd hf (by simp)
  · show readUrl S.base f.url = .ok m ↔ _
    rw [readUrl_eq_ok]
    refine ⟨fun h => ⟨f, rfl, h⟩, ?_⟩
    rintro ⟨f', hf, h⟩
    rwa [Except.ok.inj hf]

/-- Whether the locations that the final URLs of some rows name are their own final locations. -/
def settledRows (rows : List (Location × Response)) : Bool := rows.all fun row =>
  match parseUrl? "https://c/" row.2.fetched.url with
  | some k => decide (finalLocation (serving rows) k = .ok k)
  | none => true

theorem settles_serving {rows : List (Location × Response)} (h : settledRows rows = true) : Settles (serving rows) := by
  intro l k hk
  obtain ⟨f, hf, hread⟩ := finalLocation_eq_ok.1 hk
  obtain ⟨row, hrow, rfl⟩ := of_fetch_serving hf
  have hrow := List.all_eq_true.1 h row hrow
  rw [show parseUrl? "https://c/" row.2.fetched.url = some k from hread] at hrow
  exact of_decide_eq_true hrow

theorem judged_eq_ok {d : Download} {f : Fetched} (h : judged S d = .ok f) : S.fetch d.location = .ok f := by
  unfold judged at h
  rcases hf : S.fetch d.location with e | f'
  · rw [hf] at h
    exact absurd h (by simp [Except.bind])
  · rw [hf] at h
    have hread : (if d.resolves then (readUrl S.base f'.url).map fun _ => f' else .ok f') = .ok f := h
    split at hread
    · rcases hl : readUrl S.base f'.url with e | k
      · rw [hl] at hread
        exact absurd hread (by simp [Except.map])
      · rw [hl] at hread
        exact hread
    · exact hread

/-- For a call for a location it makes no difference whether the download finds a version out. -/
theorem finish_judged (d : Download) : Goal.location.finish S.base (judged S d) = finalLocation S d.location := by
  unfold judged finalLocation
  rcases S.fetch d.location with e | f
  · rfl
  · show Goal.location.finish S.base (if d.resolves then (readUrl S.base f.url).map fun _ => f else .ok f) =
      readUrl S.base f.url
    split
    · rcases hl : readUrl S.base f.url with e | k
      · rfl
      · exact hl
    · rfl

end Judged

namespace Cache

variable {S : Site} {c : Cache} {l m : Location}

theorem judge_site (hb : c.base = S.base) (d : Download) : c.judge d (S.cdn (c.urlOf d)) = judged S d := by
  have hurl : c.urlOf d = S.base ++ d.location.key := by rw [Cache.urlOf, hb]
  unfold judged
  rw [fetch_eq_get, hurl, Site.get]
  unfold Cache.judge
  rcases S.cdn (S.base ++ d.location.key) with e | r
  · rfl
  · dsimp only
    by_cases hs : (r.status != 200) = true
    · rw [if_pos hs, if_pos hs]
      rfl
    · rw [if_neg hs, if_neg hs, hb]
      rfl

/-- Every outcome of a download is what the answer of the site makes of it. -/
structure Reads (S : Site) (c : Cache) : Prop where
  /-- The cache is one in front of the site. -/
  base : c.base = S.base
  /-- The outcome of a download is what the site's answer makes of it. -/
  outcome : ∀ (n : Nat) (d : Download) (r : Except Failure Fetched), c.downloads[n]? = some d → d.outcome = some r →
    r = judged S d

theorem Reads.empty {url : String} (h : S.base = withFinalSlash url) : Reads S (.empty url) where
  base := h.symm
  outcome := by simp [Cache.empty]

theorem Reads.outcome? (h : c.Reads S) {n : Nat} {f : Fetched} (hf : c.outcome? n = some (.ok f)) :
    ∃ d, c.downloads[n]? = some d ∧ S.fetch d.location = .ok f := by
  obtain ⟨d, hd, ho⟩ := Option.bind_eq_some_iff.1 hf
  exact ⟨d, hd, judged_eq_ok (h.outcome n d _ hd ho).symm⟩

theorem Reads.goes (h : c.Reads S) {g : Goal} {o : Cache × Status g} (ho : c.Goes l o) : o.1.Reads S := by
  rcases ho.started with he | ⟨k, exact, he, -⟩
  · rw [he]
    exact h
  · rw [he]
    refine ⟨h.base, fun n d r hd hr => ?_⟩
    rw [getElem?_startDownload] at hd
    split at hd
    · rw [← Option.some.inj hd] at hr
      exact absurd hr (by simp)
    · exact h.outcome n d r hd hr

theorem Reads.complete (h : c.Reads S) {n : Nat} {a : Answer} (ha : ∀ url, (n, url) ∈ c.inFlight → a = S.cdn url) :
    (c.complete n a).Reads S := by
  by_cases hfl : ∃ d, c.downloads[n]? = some d ∧ d.outcome = none
  swap
  · rw [complete_eq_self fun d hd ho => hfl ⟨d, hd, ho⟩]
    exact h
  obtain ⟨d, hd, ho⟩ := hfl
  obtain rfl := ha (c.urlOf d) (mem_inFlight.2 ⟨d, hd, ho, rfl⟩)
  refine ⟨base_complete.trans h.base, fun k e r he hr => ?_⟩
  rw [getElem?_complete hd ho] at he
  split at he
  · obtain rfl := Option.some.inj he
    exact (Option.some.inj hr).symm.trans (judge_site h.base d)
  · exact h.outcome k e r he hr

/-- What is served for the key of a location finishes as the site's file does, or it is a file whose final URL has that
key. -/
theorem Reads.served (h : c.Reads S) (hs : c.Sound) {r : Except Failure Fetched} (hr : c.Served m.key r) :
    Goal.location.finish S.base r = finalLocation S m ∨
      ∃ k j, finalLocation S j = .ok k ∧ k.key = m.key ∧ Goal.location.finish S.base r = .ok k := by
  rcases hr with ⟨n, d, hd, hk, ho⟩ | ⟨f, hf, rfl⟩
  · left
    rw [h.outcome n d r hd ho, finish_judged, finalLocation_of_key hk]
  · right
    obtain ⟨⟨k, hk, hkey⟩, n, hn⟩ := hs.known _ f hf
    obtain ⟨d, -, hfetch⟩ := h.outcome? hn
    rw [h.base] at hk
    exact ⟨k, d.location, finalLocation_eq_ok.2 ⟨f, hfetch, hk⟩, hkey, readUrl_eq_ok.2 hk⟩

/-- An exact location leads nowhere else. -/
theorem Reaches.eq_of_isExact (hx : Version.isExact l.version = true) (h : c.Reaches l m) : m = l := by
  induction h with
  | refl => rfl
  | tail _ hr ih =>
    subst ih
    cases hr with
    | exact _ => rfl
    | pinned hno _ _ => exact absurd hx (by simp [hno])

theorem version_of_isExact (hx : Version.isExact l.version = true) : c.version l = .exact l := by
  unfold Cache.version
  rw [if_pos hx]

theorem immediate?_of_extension (hl : FileName.extension l.path.toList ≠ []) : Goal.location.immediate? l = some l := by
  unfold Goal.immediate?
  simp [hl]

theorem immediate?_eq_some {a : Goal.Result .location} (h : Goal.location.immediate? l = some a) :
    FileName.extension l.path.toList ≠ [] ∧ a = l := by
  have hif : (if FileName.extension l.path.toList != [] then some l else none) = some a := h
  split at hif
  · next hl => exact ⟨by simpa using hl, (Option.some.inj hif).symm⟩
  · exact absurd hif (by simp)

/-- A call for an exact location with an extension is answered at once. -/
theorem resume_of_extension (hx : Version.isExact l.version = true) (hl : FileName.extension l.path.toList ≠ []) :
    c.resume .location (.turn l) = (c, .done (.ok l)) := by
  show c.start .location l = _
  unfold Cache.start
  rw [if_pos (by rfl), version_of_isExact hx]
  show c.settle .location l = _
  unfold Cache.settle
  rw [immediate?_of_extension hl]

end Cache

namespace Session

open Cache

variable {S : Site} {s : Session}

/-! ## Moves -/

theorem AnsweredBy.append {moves later : List Move} (h : AnsweredBy S s moves)
    (h' : AnsweredBy S (s.play moves) later) : AnsweredBy S s (moves ++ later) := by
  induction moves generalizing s with
  | nil => exact h'
  | cons m moves ih => exact ⟨h.1, ih h.2 h'⟩

/-- The cache goes on to read the site. -/
theorem Reads.play (h : s.cache.Reads S) (moves : List Move) (hs : s.Sound) (hanswers : AnsweredBy S s moves) :
    (s.play moves).cache.Reads S := by
  induction moves generalizing s with
  | nil => exact h
  | cons m moves ih =>
    refine ih ?_ (hs.step m) hanswers.2
    have hdoes := step_cases hs m
    generalize s.step m = s' at hdoes ⊢
    cases hdoes with
    | call c => exact h
    | go hk ho => exact h.goes ho
    | rest => exact h
    | answer n a => exact h.complete fun url => hanswers.1 n a url rfl

theorem reads_play {url : String} (hb : S.base = withFinalSlash url) {moves : List Move}
    (hanswers : AnsweredBy S (.empty url) moves) : ((empty url).play moves).cache.Reads S :=
  Reads.play (.empty hb) moves (.empty url) hanswers

/-- A call for an exact location with an extension waits for its first turn, or has that location as its result. -/
def Prompt (slot : Slot) : Prop :=
  ∀ l, slot.call = ⟨.location, l⟩ → Version.isExact l.version = true → FileName.extension l.path.toList ≠ [] →
    slot = ⟨⟨.location, l⟩, .waiting (.turn l)⟩ ∨ slot = ⟨⟨.location, l⟩, .done (.ok l)⟩

theorem prompt_step (h : ∀ slot ∈ s.slots, Prompt slot) (m : Move) : ∀ slot ∈ (s.step m).slots, Prompt slot := by
  cases m with
  | call c =>
    intro slot hslot
    rcases List.mem_append.1 hslot with hslot | hslot
    · exact h slot hslot
    · rw [List.mem_singleton.1 hslot]
      rintro l rfl - -
      exact Or.inl rfl
  | answer n a => exact h
  | go k =>
    unfold step
    dsimp only
    split
    · next call w hk =>
      intro slot hslot
      rcases List.mem_or_eq_of_mem_set hslot with hslot | rfl
      · exact h slot hslot
      · rintro l hcall hx hl
        have hbefore := h _ (List.mem_of_getElem? hk) l hcall hx hl
        obtain rfl : call = ⟨.location, l⟩ := hcall
        rcases hbefore with hbefore | hbefore
        · obtain rfl : w = .turn l := by simpa using hbefore
          right
          rw [resume_of_extension hx hl]
        · exact absurd hbefore (by simp)
    · exact h

theorem prompt_play (url : String) (moves : List Move) : ∀ slot ∈ ((empty url).play moves).slots, Prompt slot :=
  play_induction (P := fun s => ∀ slot ∈ s.slots, Prompt slot) (.empty url) (by simp [Session.empty])
    fun _ m _ _ h => prompt_step h m

/-- Enough rounds of answers are further moves, none of them a call, after which every call has its result. -/
theorem exists_rounds (S : Site) (hs : s.Sound) : ∃ n later, run (m := Id) S.cdn n s = s.play later ∧
    AnsweredBy S s later ∧ (∀ c, .call c ∉ later) ∧ (s.play later).isDone = true := by
  obtain ⟨n, hdone, later, hlater, hanswers, hcalls⟩ := Sound.exists_run_isDone S.cdn
    (P := fun t => ∃ later, t = s.play later ∧ AnsweredBy S s later ∧ ∀ c, .call c ∉ later)
    (fun t k _ ht => by
      obtain ⟨later, rfl, hanswers, hcalls⟩ := ht
      refine ⟨later ++ [.go k], ?_, hanswers.append ⟨nofun, trivial⟩, by simpa using hcalls⟩
      exact (play_append s later [.go k]).symm)
    (fun t ht hp => by
      obtain ⟨later, rfl, hanswers, hcalls⟩ := hp
      refine ⟨later ++ (s.play later).answersOf S.cdn, (play_append s later _).symm,
        hanswers.append (answeredBy_answersOf ht), fun c hc => ?_⟩
      exact (List.mem_append.1 hc).elim (hcalls c) (call_not_mem_answersOf S.cdn _ c))
    hs ⟨[], rfl, trivial, by simp⟩
  rw [hlater] at hdone
  exact ⟨n, later, hlater, hanswers, hcalls, hdone⟩

end Session

end BareImports.Cdn
