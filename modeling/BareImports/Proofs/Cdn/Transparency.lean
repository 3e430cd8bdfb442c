import BareImports.Proofs.Cdn.Pinning
import BareImports.Proofs.Cdn.Rounds
import BareImports.Proofs.Cdn.Serving

/-!
# A file does not depend on what was asked for before

* `Canonical S` : final URLs name exact versions that are served with the same file; `canonical_serving`, if the rows say so;
* `ServedAs S pkg range v`, `Steady S l` : a range is served like the one version that its files name;
* `Session.AnsweredBy S s moves` : the requests in flight are answered as the site answers them;
* `Cache.Mirrors S c` : what the downloads have come to is what the site has; kept by every move;
* `fetch_transparent` : a call for a file has the result that it has on an empty cache.
-/

namespace BareImports.Cdn

open Build (Site)
open Location

/-! ## Sites -/

/-- The final URL of a file names an exact version, which is served with the same file. -/
def Canonical (S : Site) : Prop :=
  ∀ l f, S.fetch l = .ok f → ∃ k, parseUrl? S.base f.url = some k ∧ Version.isExact k.version = true ∧
    (S.fetch k).map (·.file) = .ok f.file

/-- Whether the final URLs of some rows name exact versions, which have the same files. -/
def canonicalRows (rows : List (Location × Response)) : Bool := rows.all fun row =>
  match parseUrl? "https://c/" row.2.fetched.url with
  | some k => Version.isExact k.version && decide (((serving rows).fetch k).map (·.file) = .ok row.2.fetched.file)
  | none => false

theorem canonical_serving {rows : List (Location × Response)} (h : canonicalRows rows = true) :
    Canonical (serving rows) := by
  intro l f hf
  obtain ⟨row, hrow, rfl⟩ := of_fetch_serving hf
  have hrow := List.all_eq_true.1 h row hrow
  split at hrow
  · next k hk =>
    obtain ⟨hx, hfile⟩ := Bool.and_eq_true_iff.1 hrow
    exact ⟨k, hk, hx, of_decide_eq_true hfile⟩
  · exact absurd hrow (by simp)

/-- A range is served like an exact version, which is the one that the final URLs of its files name. -/
structure ServedAs (S : Site) (pkg range v : String) : Prop where
  /-- The version is exact. -/
  exact : Version.isExact v = true
  /-- Every path is served like that of the version. -/
  fetch : ∀ path, S.fetch ⟨pkg, range, path⟩ = S.fetch ⟨pkg, v, path⟩
  /-- The final URLs of its files name the version. -/
  names : ∀ path f k, S.fetch ⟨pkg, range, path⟩ = .ok f → parseUrl? S.base f.url = some k → k.version = v

/-- The version of a location is exact, or its range is served like an exact version. -/
def Steady (S : Site) (l : Location) : Prop :=
  Version.isExact l.version = false → ∃ v, ServedAs S l.pkg l.version v

/-- What is asked for a path depends on the joint text of a package and a range. -/
theorem fetch_of_pkgVersion {S : Site} {l m : Location} (h : l.pkgVersion = m.pkgVersion) :
    S.fetch l = S.fetch { m with path := l.path } := by
  have hkey : l.key = ({ m with path := l.path } : Location).key := by
    have hsame : ({ m with path := l.path } : Location).pkgVersion = m.pkgVersion := rfl
    unfold key
    rw [h, hsame]
  rw [fetch_eq_get, fetch_eq_get, hkey]

namespace Cache

variable {S : Site} {c : Cache} {l m : Location}

/-- What the answer of a site makes of a download is what the site has, if its final URL names a file. -/
theorem judge_cdn (hb : c.base = S.base) {d : Download}
    (h : ∀ f, S.fetch d.location = .ok f → ∃ k, parseUrl? S.base f.url = some k) :
    c.judge d (S.cdn (c.urlOf d)) = S.fetch d.location := by
  have hurl : c.urlOf d = S.base ++ d.location.key := by rw [Cache.urlOf, hb]
  have hfetch : S.fetch d.location = S.get (c.urlOf d) := by rw [hurl]; rfl
  rw [hfetch]
  unfold Site.get Cache.judge
  rcases ha : S.cdn (c.urlOf d) with e | r
  · rfl
  · dsimp only
    by_cases hs : (r.status != 200) = true
    · rw [if_pos hs, if_pos hs]
    · rw [if_neg hs, if_neg hs]
      split
      · have hok : S.fetch d.location = .ok r.fetched := by
          rw [hfetch, Site.get, ha]
          exact if_neg hs
        obtain ⟨k, hk⟩ := h _ hok
        have hread : readUrl c.base r.url = .ok k := by
          rw [readUrl, hb, show parseUrl? S.base r.url = _ from hk]
        rw [hread]
        rfl
      · rfl

/-! ## Caches in front of a site -/

/-- What the downloads of a cache have come to is what the site has. -/
structure Mirrors (S : Site) (c : Cache) : Prop where
  /-- The cache is one in front of the site. -/
  base : c.base = S.base
  /-- The cache is sound. -/
  sound : c.Sound
  /-- What a download has come to is what the site has. -/
  outcome : ∀ (n : Nat) (d : Download) (r : Except Failure Fetched), c.downloads[n]? = some d → d.outcome = some r →
    r = S.fetch d.location

theorem Mirrors.empty {url : String} (h : S.base = withFinalSlash url) : Mirrors S (.empty url) where
  base := h.symm
  sound := .empty url
  outcome := by simp [Cache.empty]

theorem Mirrors.outcome? (h : c.Mirrors S) {n : Nat} {f : Fetched} (hf : c.outcome? n = some (.ok f)) :
    ∃ d, c.downloads[n]? = some d ∧ S.fetch d.location = .ok f := by
  obtain ⟨d, hd, ho⟩ := Option.bind_eq_some_iff.1 hf
  exact ⟨d, hd, (h.outcome n d _ hd ho).symm⟩

/-- A location is served like the one under the version that is known for it. -/
theorem Mirrors.of_resolves (h : c.Mirrors S) (hl : Steady S l) (hr : c.Resolves l m) :
    Steady S m ∧ S.fetch m = S.fetch l := by
  cases hr with
  | exact he => exact ⟨hl, rfl⟩
  | @pinned n v hx hn hv =>
    obtain ⟨d, hd, -, hrange⟩ := hn
    obtain ⟨f, k, hf, hk, rfl⟩ := versionOf?_eq_some hv
    obtain ⟨d', hd', hfetch⟩ := h.outcome? hf
    rw [hd] at hd'
    obtain rfl := Option.some.inj hd'
    obtain ⟨v, hserved⟩ := hl hx
    have hnames : k.version = v := by
      rw [h.base] at hk
      rw [fetch_of_pkgVersion hrange] at hfetch
      exact hserved.names _ f k hfetch hk
    subst hnames
    refine ⟨fun hx' => ?_, (hserved.fetch l.path).symm⟩
    rw [hserved.exact] at hx'
    exact absurd hx' (by simp)

theorem Mirrors.of_reaches (h : c.Mirrors S) (hl : Steady S l) (hr : c.Reaches l m) :
    Steady S m ∧ S.fetch m = S.fetch l := by
  induction hr with
  | refl => exact ⟨hl, rfl⟩
  | tail _ hr ih =>
    obtain ⟨hsteady, hfetch⟩ := ih
    obtain ⟨hsteady', hfetch'⟩ := h.of_resolves hsteady hr
    exact ⟨hsteady', hfetch'.trans hfetch⟩

/-- The file that is served for a key is the one that the site has there. -/
theorem Mirrors.served (h : c.Mirrors S) (hS : Canonical S) {r : Except Failure Fetched} (hr : c.Served m.key r) :
    r.map (·.file) = (S.fetch m).map (·.file) := by
  rcases hr with ⟨n, d, hd, hk, ho⟩ | ⟨f, hf, rfl⟩
  · rw [h.outcome n d r hd ho, fetch_eq_get, fetch_eq_get, hk]
  · -- the file was remembered under the location that its final URL names
    obtain ⟨⟨k, hk, hkey⟩, n, hn⟩ := h.sound.known _ f hf
    obtain ⟨d, -, hfetch⟩ := h.outcome? hn
    obtain ⟨k', hk', -, hsame⟩ := hS _ f hfetch
    rw [h.base, hk'] at hk
    obtain rfl := Option.some.inj hk
    have hm : S.fetch m = S.fetch k' := by rw [fetch_eq_get, fetch_eq_get, hkey]
    rw [hm, hsame]
    rfl

/-- A call for a file has the result that its location has on the site. -/
theorem Mirrors.answers (h : c.Mirrors S) (hS : Canonical S) (hl : Steady S l)
    {r : Except Failure (Goal.Result .file)} (hr : c.Answers l .file r) : r = (S.fetch l).map (·.file) := by
  cases hr with
  | served hm hr =>
    have hfile := h.served hS hr
    rw [(h.of_reaches hl hm).2] at hfile
    exact hfile
  | immediate _ _ ha => exact absurd ha (by simp [Goal.immediate?])

theorem Mirrors.goes (h : c.Mirrors S) {g : Goal} {o : Cache × Status g} (ho : c.Goes l o) : o.1.Mirrors S := by
  have hsound := ho.sound h.sound
  rcases ho.started with he | ⟨k, exact, he, -⟩
  · rw [he]
    exact h
  · rw [he] at hsound ⊢
    refine ⟨h.base, hsound, fun n d r hd hr => ?_⟩
    rw [getElem?_startDownload] at hd
    split at hd
    · rw [← Option.some.inj hd] at hr
      exact absurd hr (by simp)
    · exact h.outcome n d r hd hr

theorem Mirrors.complete (h : c.Mirrors S) (hS : Canonical S) {n : Nat} {a : Answer}
    (ha : ∀ url, (n, url) ∈ c.inFlight → a = S.cdn url) : (c.complete n a).Mirrors S := by
  by_cases hfl : ∃ d, c.downloads[n]? = some d ∧ d.outcome = none
  swap
  · rw [complete_eq_self fun d hd ho => hfl ⟨d, hd, ho⟩]
    exact h
  obtain ⟨d, hd, ho⟩ := hfl
  obtain rfl := ha (c.urlOf d) (mem_inFlight.2 ⟨d, hd, ho, rfl⟩)
  refine ⟨base_complete.trans h.base, h.sound.complete, fun k e r he hr => ?_⟩
  rw [getElem?_complete hd ho] at he
  split at he
  · rw [← Option.some.inj he] at hr ⊢
    rw [← Option.some.inj hr]
    apply judge_cdn h.base
    intro f hf
    obtain ⟨k, hk, -⟩ := hS _ f hf
    exact ⟨k, hk⟩
  · exact h.outcome k e r he hr

/-- A request keeps its URL as long as it is in flight. -/
theorem Extends.inFlight {c' : Cache} (h : Extends c c') {n : Nat} {url url' : String} (hn : (n, url) ∈ c.inFlight)
    (hn' : (n, url') ∈ c'.inFlight) : url' = url := by
  obtain ⟨d, hd, -, rfl⟩ := mem_inFlight.1 hn
  obtain ⟨d', hd', -, rfl⟩ := mem_inFlight.1 hn'
  obtain ⟨d'', hd'', hl, -⟩ := h.downloads n d hd
  rw [hd'] at hd''
  obtain rfl := Option.some.inj hd''
  rw [urlOf, urlOf, h.base, hl]

end Cache

namespace Session

open Cache

variable {S : Site}

/-! ## Histories -/

/-- The requests in flight are answered as the site answers them. -/
def AnsweredBy (S : Site) : Session → List Move → Prop
  | _, [] => True
  | s, m :: moves => (∀ n a url, m = .answer n a → (n, url) ∈ s.cache.inFlight → a = S.cdn url) ∧
      AnsweredBy S (s.step m) moves

/-- The cache mirrors the site, and the calls ask for steady locations. -/
structure Mirrors (S : Site) (s : Session) : Prop where
  /-- The cache mirrors the site. -/
  cache : s.cache.Mirrors S
  /-- The calls ask for steady locations. -/
  steady : ∀ slot ∈ s.slots, Steady S slot.call.location

/-- A move keeps a session a mirror: a call for a steady location, a turn, or an answer of the site. -/
theorem Mirrors.step {s : Session} (h : s.Mirrors S) (hs : s.Sound) (hS : Canonical S) {m : Move}
    (hcall : ∀ c, m = .call c → Steady S c.location)
    (hanswer : ∀ n a url, m = .answer n a → (n, url) ∈ s.cache.inFlight → a = S.cdn url) : (s.step m).Mirrors S := by
  have hdoes := step_cases hs m
  generalize s.step m = s' at hdoes ⊢
  cases hdoes with
  | call c =>
    refine ⟨h.cache, fun slot hslot => ?_⟩
    rcases List.mem_append.1 hslot with hslot | hslot
    · exact h.steady slot hslot
    · rw [List.mem_singleton.1 hslot]
      exact hcall c rfl
  | @go k c w o hk ho =>
    refine ⟨h.cache.goes ho, fun slot hslot => ?_⟩
    rcases List.mem_or_eq_of_mem_set hslot with hslot | rfl
    · exact h.steady slot hslot
    · exact h.steady ⟨c, .waiting w⟩ (List.mem_of_getElem? hk)
  | rest => exact h
  | answer n a => exact ⟨h.cache.complete hS fun url => hanswer n a url rfl, h.steady⟩

theorem Mirrors.play {s : Session} (h : s.Mirrors S) (hS : Canonical S) (moves : List Move) (hs : s.Sound)
    (hcalls : ∀ c, .call c ∈ moves → Steady S c.location) (hanswers : AnsweredBy S s moves) :
    (s.play moves).Mirrors S := by
  induction moves generalizing s with
  | nil => exact h
  | cons m moves ih =>
    have hfirst := h.step hs hS (fun c hc => hcalls c (by simp [hc])) hanswers.1
    exact ih hfirst (hs.step m) (fun c hc => hcalls c (List.mem_cons_of_mem _ hc)) hanswers.2

theorem Mirrors.answers {s : Session} (h : s.Mirrors S) (hs : s.Sound) (hS : Canonical S) {slot : Slot}
    (hslot : slot ∈ s.slots) {l : Location} (hcall : slot.call = ⟨.file, l⟩) {x : Reply} (hx : slot.result? = some x) :
    x = ⟨.file, (S.fetch l).map (·.file)⟩ := by
  obtain ⟨call, status⟩ := slot
  obtain rfl : call = ⟨.file, l⟩ := hcall
  have hsteady := h.steady _ hslot
  have hstands := hs.stands _ hslot
  cases status with
  | waiting w => exact absurd hx (by simp [Slot.result?])
  | done r =>
    have hr : r = (S.fetch l).map (·.file) := h.cache.answers hS hsteady hstands
    rw [← Option.some.inj hx, hr]

/-! ## Rounds -/

/-- A round of answers gives each request in flight the answer of the site. -/
theorem answeredBy_answersOf {s : Session} (hs : s.Sound) : AnsweredBy S s (s.answersOf S.cdn) := by
  suffices h : ∀ (flights : List (Nat × String)) (t : Session), t.Sound → Extends s.cache t.cache →
      (∀ e ∈ flights, e ∈ s.cache.inFlight) →
      AnsweredBy S t (flights.map fun e => .answer e.1 (S.cdn e.2)) from
    h _ s hs (.refl _) fun _ he => he
  intro flights
  induction flights with
  | nil => exact fun _ _ _ _ => trivial
  | cons e flights ih =>
    intro t ht hext hmem
    have hgrows : Extends t.cache (t.step (.answer e.1 (S.cdn e.2))).cache := (step_cases ht _).extends
    refine ⟨fun n a url hm hurl => ?_, ih _ (ht.step _) (hext.trans hgrows) fun e' he' => hmem e' (by simp [he'])⟩
    obtain ⟨rfl, rfl⟩ := Move.answer.inj hm
    rw [hext.inFlight (hmem e List.mem_cons_self) hurl]

theorem calls_step {s : Session} {m : Move} (h : ∀ c, m ≠ .call c) :
    (s.step m).slots.map Slot.call = s.slots.map Slot.call := by
  cases m with
  | call c => exact absurd rfl (h c)
  | answer n a => rfl
  | go k =>
    unfold step
    dsimp only
    split
    · next call w hk =>
      dsimp only
      rw [List.map_set]
      conv_rhs => rw [← set_eq_self hk, List.map_set]
    · rfl

theorem calls_play (moves : List Move) : ∀ {s : Session}, (∀ c, .call c ∉ moves) →
    (s.play moves).slots.map Slot.call = s.slots.map Slot.call := by
  induction moves with
  | nil => exact fun _ => rfl
  | cons m moves ih =>
    intro s h
    have hm : ∀ c, m ≠ .call c := by
      rintro c rfl
      exact h c List.mem_cons_self
    rw [play_cons, ih fun c hc => h c (List.mem_cons_of_mem m hc), calls_step hm]

theorem call_not_mem_answersOf (fetch : String → Answer) (s : Session) (c : Call) : .call c ∉ s.answersOf fetch := by
  unfold answersOf
  simp

/-- On an empty cache a request starts the download of its location. -/
theorem request_empty (url : String) (g : Goal) (l : Location) : (Cache.empty url).request g l =
    ((Cache.empty url).startDownload l (Version.isExact l.version), .waiting (.outcome 0)) := by
  have hversion : (Cache.empty url).version l = if Version.isExact l.version then .exact l else .unknown := rfl
  unfold Cache.request
  rw [hversion]
  by_cases hx : Version.isExact l.version = true
  · rw [if_pos hx, hx]
    rfl
  · rw [if_neg hx, Bool.eq_false_iff.2 hx]
    rfl

/-- A session with one call, which waits. -/
def asking (c : Cache) (g : Goal) (l : Location) (w : Wait) : Session := ⟨c, [⟨⟨g, l⟩, .waiting w⟩]⟩

theorem sweep_asking (c : Cache) (g : Goal) (l : Location) (w : Wait) :
    (asking c g l w).sweep = ⟨(c.resume g w).1, [⟨⟨g, l⟩, (c.resume g w).2⟩]⟩ := rfl

/-- A call that is the only one on an empty cache and makes a request has the result that the answer gives it. -/
theorem gather_request (S : Site) (url : String) {g : Goal} {l : Location}
    (hturn : (Cache.empty url).resume g (.turn l) = (Cache.empty url).request g l) :
    (gather (m := Id) S.cdn (.empty url) [⟨g, l⟩]).2 =
      let c := (Cache.empty url).startDownload l (Version.isExact l.version)
      let d : Download := ⟨l, !Version.isExact l.version, none⟩
      [⟨g, g.finish c.base (c.judge d (S.cdn (c.urlOf d)))⟩] := by
  let c := (Cache.empty url).startDownload l (Version.isExact l.version)
  let d : Download := ⟨l, !Version.isExact l.version, none⟩
  let answered := c.complete 0 (S.cdn (c.urlOf d))
  let r := g.finish c.base (c.judge d (S.cdn (c.urlOf d)))
  have hd : c.downloads[0]? = some d := rfl
  have hawait : answered.await g 0 = .done r := by
    have hout : answered.outcome? 0 = some (c.judge d (S.cdn (c.urlOf d))) := by
      unfold Cache.outcome?
      rw [getElem?_complete hd rfl, if_pos rfl]
      rfl
    unfold Cache.await
    rw [hout, show answered.base = c.base from base_complete]
  -- the first sweep starts the download, the second one takes its outcome
  have hfirst : (asking (.empty url) g l (.turn l)).sweep = asking c g l (.outcome 0) := by
    rw [sweep_asking, hturn, request_empty]
    rfl
  have hplay : (asking c g l (.outcome 0)).play ((asking c g l (.outcome 0)).answersOf S.cdn) =
    asking answered g l (.outcome 0) := rfl
  have hsecond : (asking answered g l (.outcome 0)).sweep = ⟨answered, [⟨⟨g, l⟩, .done r⟩]⟩ := by
    rw [sweep_asking]
    show (⟨answered, [⟨⟨g, l⟩, answered.await g 0⟩]⟩ : Session) = _
    rw [hawait]
  have hrun : run (m := Id) S.cdn 8 (asking (.empty url) g l (.turn l)) = ⟨answered, [⟨⟨g, l⟩, .done r⟩]⟩ := by
    have hwaits : (asking c g l (.outcome 0)).isDone = false := rfl
    rw [run_succ, hfirst, hwaits, if_neg (by simp), hplay, run_succ, hsecond]
    rfl
  show (run (m := Id) S.cdn 8 (asking (.empty url) g l (.turn l))).slots.filterMap Slot.result? = _
  rw [hrun]
  rfl

/-- A call for a file that is the only one on an empty cache has the result that its location has on the site. -/
theorem gather_fetch (hS : Canonical S) {url : String} (hb : S.base = withFinalSlash url) (l : Location) :
    (gather (m := Id) S.cdn (.empty url) [⟨.file, l⟩]).2 = [⟨.file, (S.fetch l).map (·.file)⟩] := by
  let c := (Cache.empty url).startDownload l (Version.isExact l.version)
  let d : Download := ⟨l, !Version.isExact l.version, none⟩
  have hjudge : c.judge d (S.cdn (c.urlOf d)) = S.fetch l :=
    judge_cdn hb.symm fun f hf => (hS l f hf).imp fun k hk => hk.1
  rw [gather_request S url (g := .file) rfl]
  show [(⟨.file, Goal.file.finish c.base (c.judge d (S.cdn (c.urlOf d)))⟩ : Reply)] = _
  rw [hjudge]
  rfl

/-- Let final URLs name exact versions that are served with the same file, and let every range that is asked for be
served like one exact version, which its final URLs name. Whatever calls were made, in whatever order they went on and
were answered, a call for a file that has a result has the one that it has on an empty cache; and every such call comes
to that result. -/
theorem fetch_transparent (S : Site) (url : String) (moves : List Move) (l : Location)
    (hb : S.base = withFinalSlash url) (hS : Canonical S) (hanswers : AnsweredBy S (.empty url) moves)
    (hcalls : ∀ c, .call c ∈ moves → Steady S c.location) (hl : Steady S l) :
    ∃ r : Except Failure File, (gather (m := Id) S.cdn (.empty url) [⟨.file, l⟩]).2 = [⟨.file, r⟩] ∧
      (∀ slot ∈ ((empty url).play moves).slots, slot.call = ⟨.file, l⟩ →
        ∀ x, slot.result? = some x → x = ⟨.file, r⟩) ∧
      ∃ n, let s := run (m := Id) S.cdn n (((empty url).play moves).step (.call ⟨.file, l⟩))
        s.slots.map Slot.call = ((empty url).play moves).slots.map Slot.call ++ [⟨.file, l⟩] ∧
        ∀ slot ∈ s.slots, slot.call = ⟨.file, l⟩ → slot.result? = some ⟨.file, r⟩ := by
  have hsound := sound_play url moves
  have hmirrors : ((empty url).play moves).Mirrors S := by
    have hempty : (Session.empty url).Mirrors S := ⟨.empty hb, by simp [Session.empty]⟩
    exact hempty.play hS moves (.empty url) hcalls hanswers
  refine ⟨_, gather_fetch hS hb l, fun slot hslot hcall x hx => hmirrors.answers hsound hS hslot hcall hx, ?_⟩
  let calls := ((empty url).play moves).slots.map Slot.call ++ [⟨.file, l⟩]
  -- rounds keep the mirror and make no calls
  obtain ⟨n, hdone, ⟨hmirror, hs⟩, hkeep⟩ := Sound.exists_run_isDone S.cdn
    (P := fun s => (s.Mirrors S ∧ s.Sound) ∧ s.slots.map Slot.call = calls)
    (fun s k hs h => by
      obtain ⟨⟨hm, -⟩, hk⟩ := h
      refine ⟨⟨hm.step hs hS (fun _ h => by cases h) (fun _ _ _ h => by cases h), hs.step _⟩, ?_⟩
      rw [calls_step (fun _ h => by cases h), hk])
    (fun s hs h => by
      obtain ⟨⟨hm, -⟩, hk⟩ := h
      have hnone : ∀ c, .call c ∉ s.answersOf S.cdn := call_not_mem_answersOf S.cdn s
      refine ⟨⟨hm.play hS _ hs (fun c hc => absurd hc (hnone c)) (answeredBy_answersOf hs), hs.play _⟩, ?_⟩
      rw [calls_play _ hnone, hk])
    (hsound.step (.call ⟨.file, l⟩))
    ⟨⟨hmirrors.step hsound hS (fun c hc => by cases hc; exact hl) (fun _ _ _ h => by cases h), hsound.step _⟩,
      List.map_append⟩
  refine ⟨n, hkeep, fun slot hslot hcall => ?_⟩
  obtain ⟨x, hx⟩ := isDone_iff.1 hdone slot hslot
  rw [hx, hmirror.answers hs hS hslot hcall hx]

/-- Range `1` leads to version `1.0.0`, which has one script. -/
def ranged : Site := serving
  [(⟨"a", "1", "x.js"⟩, ⟨200, "https://c/a@1.0.0/x.js", "A", none⟩),
    (⟨"a", "1.0.0", "x.js"⟩, ⟨200, "https://c/a@1.0.0/x.js", "A", none⟩)]

theorem canonical_ranged : Canonical ranged := canonical_serving (by decide +kernel)

theorem servedAs_ranged : ServedAs ranged "a" "1" "1.0.0" where
  exact := by decide +kernel
  fetch path := by
    have ha : IsPackage "a" := by decide
    have hone : ∀ p : String, (⟨"a", "1", p⟩ : Location).Shaped := fun _ => ⟨ha, by simp⟩
    have hexact : ∀ p : String, (⟨"a", "1.0.0", p⟩ : Location).Shaped := fun _ => ⟨ha, by simp⟩
    rw [fetch_eq_get, fetch_eq_get, Site.get, Site.get]
    unfold ranged
    rw [show (serving _).base = "https://c/" from rfl, cdn_serving, cdn_serving]
    simp only [List.find?_cons, key_beq (hone _) (hone _), key_beq (hexact _) (hone _), key_beq (hone _) (hexact _),
      key_beq (hexact _) (hexact _)]
    generalize decide (dropFinalSlash _ = dropFinalSlash ('/' :: dropLeadingSlash path.toList)) = same
    cases same <;> rfl
  names path f k h hk := by
    obtain ⟨row, hrow, rfl⟩ := of_fetch_serving h
    have hurl : row.2.fetched.url = "https://c/a@1.0.0/x.js" := by
      simp only [List.mem_cons, List.not_mem_nil, or_false] at hrow
      rcases hrow with rfl | rfl <;> rfl
    have hread : parseUrl? "https://c/" "https://c/a@1.0.0/x.js" = some ⟨"a", "1.0.0", "x.js"⟩ := by decide +kernel
    rw [hurl, show ranged.base = "https://c/" from rfl, hread] at hk
    rw [← Option.some.inj hk]

section Moves

variable {s : Session} {moves : List Move}

theorem answeredBy_call {c : Call} (h : AnsweredBy S (s.step (.call c)) moves) : AnsweredBy S s (.call c :: moves) :=
  ⟨nofun, h⟩

theorem answeredBy_go {k : Nat} (h : AnsweredBy S (s.step (.go k)) moves) : AnsweredBy S s (.go k :: moves) :=
  ⟨nofun, h⟩

theorem answeredBy_answer {n : Nat} {url : String} (hurl : (s.cache.inFlight.all fun e => e.1 != n || e.2 == url) = true)
    (h : AnsweredBy S (s.step (.answer n (S.cdn url))) moves) :
    AnsweredBy S s (.answer n (S.cdn url) :: moves) := by
  refine ⟨fun n' a url' hm hmem => ?_, h⟩
  obtain ⟨rfl, rfl⟩ := Move.answer.inj hm
  have hat := List.all_eq_true.1 hurl _ hmem
  simp only [bne_self_eq_false, Bool.false_or, beq_iff_eq] at hat
  rw [hat]

end Moves

/-- A call for the range, one for a manifest that is missing, and one for the file under the version that the range has
led to. -/
def rangedMoves : List Move :=
  [.call ⟨.file, ⟨"a", "1", "x.js"⟩⟩, .go 0, .answer 0 (ranged.cdn "https://c/a@1/x.js"),
    .call ⟨.manifest, ⟨"a", "1", "package.json"⟩⟩, .go 1, .answer 1 (ranged.cdn "https://c/a@1.0.0/package.json"),
    .call ⟨.file, ⟨"a", "1.0.0", "x.js"⟩⟩, .go 2]

theorem answeredBy_rangedMoves : AnsweredBy ranged (.empty "https://c") rangedMoves :=
  answeredBy_call <| answeredBy_go <| answeredBy_answer (by decide +kernel) <|
    answeredBy_call <| answeredBy_go <| answeredBy_answer (by decide +kernel) <|
    answeredBy_call <| answeredBy_go trivial

/-- The file of the range and that of its version are the same after a manifest has failed. -/
theorem fetch_transparent_ranged : AnsweredBy ranged (.empty "https://c") rangedMoves ∧
    ∃ r : Except Failure File, (gather (m := Id) ranged.cdn (.empty "https://c") [⟨.file, ⟨"a", "1.0.0", "x.js"⟩⟩]).2 =
        [⟨.file, r⟩] ∧
      ∃ slot ∈ ((empty "https://c").play rangedMoves).slots, slot.result? = some ⟨.file, r⟩ := by
  refine ⟨answeredBy_rangedMoves, ?_⟩
  have hcalls : ∀ c, .call c ∈ rangedMoves → Steady ranged c.location := by
    intro c hc hx
    have hrange : c.location.pkg = "a" ∧ (c.location.version = "1" ∨ c.location.version = "1.0.0") := by
      simp only [rangedMoves, List.mem_cons, Move.call.injEq, reduceCtorEq, List.not_mem_nil, or_false, false_or] at hc
      rcases hc with rfl | rfl | rfl <;> simp
    obtain ⟨hpkg, hv | hv⟩ := hrange
    · rw [hpkg, hv]
      exact ⟨_, servedAs_ranged⟩
    · rw [hv] at hx
      exact absurd hx (by decide +kernel)
  obtain ⟨r, hr, hslots, -⟩ := fetch_transparent ranged "https://c" rangedMoves ⟨"a", "1.0.0", "x.js"⟩ (by decide +kernel)
    canonical_ranged answeredBy_rangedMoves hcalls fun hx => absurd hx (by decide +kernel)
  refine ⟨r, hr, ?_⟩
  have hdone : ((((empty "https://c").play rangedMoves).slots[2]?).bind Slot.result?).isSome = true := by decide +kernel
  obtain ⟨x, hx⟩ := Option.isSome_iff_exists.1 hdone
  obtain ⟨slot, hslot, hres⟩ := Option.bind_eq_some_iff.1 hx
  have hcall : slot.call = ⟨.file, ⟨"a", "1.0.0", "x.js"⟩⟩ := by
    have hat : (((empty "https://c").play rangedMoves).slots[2]?).map Slot.call =
      some ⟨.file, ⟨"a", "1.0.0", "x.js"⟩⟩ := rfl
    rw [hslot] at hat
    exact Option.some.inj hat
  have hmem := List.mem_of_getElem? hslot
  exact ⟨slot, hmem, by rw [hres, hslots slot hmem hcall x hres]⟩

/-- Range `1` is served like version `1.0.0`, whose script leads to version `2.0.0`. -/
def moved : Site := serving
  [(⟨"a", "1", "x.js"⟩, ⟨200, "https://c/a@2.0.0/x.js", "A", none⟩),
    (⟨"a", "1.0.0", "x.js"⟩, ⟨200, "https://c/a@2.0.0/x.js", "A", none⟩),
    (⟨"a", "2.0.0", "x.js"⟩, ⟨200, "https://c/a@2.0.0/x.js", "A", none⟩),
    (⟨"a", "2.0.0", "y.js"⟩, ⟨200, "https://c/a@2.0.0/y.js", "B", none⟩)]

theorem canonical_moved : Canonical moved := canonical_serving (by decide +kernel)

/-- Every range is answered like an exact version: `1` like `1.0.0`, and of all others nothing is there. -/
theorem cdn_moved {pkg range : String} (hpkg : IsPackage pkg) (hrange : '/' ∉ range.toList)
    (hx : Version.isExact range = false) : ∃ v, Version.isExact v = true ∧ ∀ path,
      moved.cdn (moved.base ++ (⟨pkg, range, path⟩ : Location).key) =
        moved.cdn (moved.base ++ (⟨pkg, v, path⟩ : Location).key) := by
  unfold moved
  rw [show (serving _).base = "https://c/" from rfl]
  refine serving_ranges (fun row hrow => ?_) (v := "1.0.0") (w := "9.0.0") (by decide +kernel) (by decide +kernel)
    (by decide +kernel) (by decide +kernel) hpkg hrange hx
  simp only [List.mem_cons, List.not_mem_nil, or_false] at hrow
  rcases hrow with rfl | rfl | rfl | rfl <;> exact ⟨by decide, by decide⟩

/-- A call for one script, which leads to version `2.0.0`, and a call for another one. -/
def movedMoves : List Move :=
  [.call ⟨.file, ⟨"a", "1", "x.js"⟩⟩, .go 0, .answer 0 (moved.cdn "https://c/a@1/x.js"),
    .call ⟨.file, ⟨"a", "1", "y.js"⟩⟩, .go 1, .answer 1 (moved.cdn "https://c/a@2.0.0/y.js"), .go 1]

/-- It is not enough that every range is answered like some exact version: a call for another file of the range is
answered at the version that final URLs name, and that may have the file although the range has not. -/
theorem moved_not_transparent :
    (∀ pkg range : String, IsPackage pkg → '/' ∉ range.toList → Version.isExact range = false →
      ∃ v, Version.isExact v = true ∧ ∀ path, moved.cdn (moved.base ++ (⟨pkg, range, path⟩ : Location).key) =
        moved.cdn (moved.base ++ (⟨pkg, v, path⟩ : Location).key)) ∧
    Canonical moved ∧ AnsweredBy moved (.empty "https://c") movedMoves ∧
    ∃ slot ∈ ((empty "https://c").play movedMoves).slots, slot.call = ⟨.file, ⟨"a", "1", "y.js"⟩⟩ ∧
      ∃ x y, slot.result? = some x ∧
        (gather (m := Id) moved.cdn (.empty "https://c") [⟨.file, ⟨"a", "1", "y.js"⟩⟩]).2 = [y] ∧ x ≠ y := by
  refine ⟨fun pkg range hpkg hrange hx => cdn_moved hpkg hrange hx, canonical_moved,
    answeredBy_call <| answeredBy_go <| answeredBy_answer (by decide +kernel) <|
      answeredBy_call <| answeredBy_go <| answeredBy_answer (by decide +kernel) <| answeredBy_go trivial, ?_⟩
  have hcall : (((empty "https://c").play movedMoves).slots[1]?).map Slot.call =
    some ⟨.file, ⟨"a", "1", "y.js"⟩⟩ := rfl
  have hres : ((((empty "https://c").play movedMoves).slots[1]?).bind Slot.result?).map (·.result.toBool) =
    some true := by decide +kernel
  have hfresh : (gather (m := Id) moved.cdn (.empty "https://c") [⟨.file, ⟨"a", "1", "y.js"⟩⟩]).2.map
    (·.result.toBool) = [false] := by decide +kernel
  obtain ⟨slot, hslot, hcall⟩ := Option.map_eq_some_iff.1 hcall
  rw [hslot, Option.bind_some] at hres
  obtain ⟨x, hx, hok⟩ := Option.map_eq_some_iff.1 hres
  obtain ⟨y, hy, hbad⟩ := List.map_eq_singleton_iff.1 hfresh
  refine ⟨slot, List.mem_of_getElem? hslot, hcall, x, y, hx, hy, ?_⟩
  rintro rfl
  rw [hok] at hbad
  exact absurd hbad (by simp)

end Session

end BareImports.Cdn
