import BareImports.Proofs.Cdn.Locating
import BareImports.Proofs.Typings.Sound

/-!
# The version that a range comes to

* `Cache.Inquires c` : ranges are asked for by their manifests only; kept by all that a session does;
* `Cache.Asking c l w`, `Tells` : a call for the version of a range waits for its own file only, and comes to the version that
  the site's final URL names (`resume_tells`);
* `Session.Asks s` : crawls wait for the manifests of their packages; `Asks.version`, `asks_play`.
-/

namespace BareImports

namespace Cdn

open Build (Site)
open Location

namespace Cache

variable {S : Site} {c : Cache} {l m : Location} {w : Wait}

/-! ## Ranges are asked for by manifests -/

/-- A download that finds a version out is for a manifest. -/
def Inquires (c : Cache) : Prop :=
  ∀ (n : Nat) (d : Download), c.downloads[n]? = some d → d.resolves = true → d.location.path = Manifest.fileName

theorem Inquires.empty (url : String) : (Cache.empty url).Inquires := by simp [Inquires, Cache.empty]

theorem Inquires.goes (h : c.Inquires) {g : Goal} {o : Cache × Status g} (ho : c.Goes l o)
    (hl : Version.isExact l.version = true ∨ l.path = Manifest.fileName) : o.1.Inquires := by
  rcases ho.started with he | ⟨k, exact, he, -, hk, hinexact, -⟩
  · rw [he]
    exact h
  · rw [he]
    intro n d hd hresolves
    rw [getElem?_startDownload] at hd
    split at hd
    · obtain rfl := Option.some.inj hd
      have hexact : exact = false := by simpa using hresolves
      rcases hl with hx | hpath
      · have hkx := (hinexact hexact).1
        rw [hk.eq_of_isExact hx, hx] at hkx
        exact absurd hkx (by simp)
      · exact hk.package.2.trans hpath
    · exact h n d hd hresolves

theorem Inquires.complete (h : c.Inquires) (n : Nat) (a : Answer) : (c.complete n a).Inquires := by
  intro k d hd hresolves
  by_cases hfl : ∃ e, c.downloads[n]? = some e ∧ e.outcome = none
  swap
  · rw [complete_eq_self fun e he ho => hfl ⟨e, he, ho⟩] at hd
    exact h k d hd hresolves
  obtain ⟨e, he, ho⟩ := hfl
  rw [getElem?_complete he ho] at hd
  split at hd
  · obtain rfl := Option.some.inj hd
    exact h n e he hresolves
  · exact h k d hd hresolves

/-! ## Calls for the version of a range -/

/-- Where a call for the version of a range waits. -/
inductive Asking (c : Cache) (l : Location) : Wait → Prop
  /-- Its first turn. -/
  | turn : Asking c l (.turn l)
  /-- The version that a download finds out. -/
  | version {n : Nat} (hn : c.Resolver n l.pkgVersion) : Asking c l (.version l n)
  /-- A download of its own file. -/
  | outcome {n : Nat} {d : Download} (hd : c.downloads[n]? = some d) (hk : d.location.key = l.key) :
      Asking c l (.outcome n)

theorem Asking.mono {c' : Cache} (h : c.Asking l w) (he : Extends c c') : c'.Asking l w := by
  cases h with
  | turn => exact .turn
  | version hn => exact .version (hn.mono he)
  | outcome hd hk =>
    obtain ⟨d', hd', hl, -⟩ := he.downloads _ _ hd
    exact .outcome hd' (by rw [hl, hk])

/-- Where a call for the version of a range stands: its result is the version that the final URL names. -/
def Tells (S : Site) (c : Cache) (l : Location) : Status .location → Prop
  | .waiting w => c.Asking l w
  | .done r => r.map (·.version) = (finalLocation S l).map (·.version)

/-- What a call for the version of a range waits for and comes to. -/
structure Inquiry (S : Site) (c : Cache) (l : Location) : Prop where
  /-- The cache mirrors the site. -/
  mirrors : c.Mirrors S
  /-- Ranges are asked for by their manifests. -/
  inquires : c.Inquires
  /-- It is the manifest of a range. -/
  range : Version.isExact l.version = false ∧ l.path = Manifest.fileName

theorem Inquiry.immediate (h : c.Inquiry S l) (v : String) :
    Goal.location.immediate? { l with version := v } = some { l with version := v } := by
  have hext : FileName.extension l.path.toList ≠ [] := by
    rw [h.range.2]
    decide
  exact immediate?_of_extension (l := { l with version := v }) hext

/-- The version that was found out for a range is the one that its own final URL names. -/
theorem Inquiry.version (h : c.Inquiry S l) {n : Nat} {v : String} (hn : c.Resolver n l.pkgVersion)
    (hv : c.versionOf? n = some v) : (finalLocation S l).map (·.version) = .ok v := by
  obtain ⟨d, hd, hresolves, hrange⟩ := hn
  obtain ⟨f, k, hf, hk, rfl⟩ := versionOf?_eq_some hv
  obtain ⟨d', hd', hfetch⟩ := h.mirrors.outcome? hf
  obtain rfl : d = d' := Option.some.inj (hd.symm.trans hd')
  have hpath : d.location.path = l.path := (h.inquires n d hd hresolves).trans h.range.2.symm
  have hsame : S.fetch l = .ok f := by
    rw [fetch_of_pkgVersion hrange, hpath] at hfetch
    exact hfetch
  rw [h.mirrors.base] at hk
  rw [finalLocation_eq_ok.2 ⟨f, hsame, hk⟩]
  rfl

theorem Inquiry.settle (h : c.Inquiry S l) {n : Nat} {v : String} (hn : c.Resolver n l.pkgVersion)
    (hv : c.versionOf? n = some v) : Tells S (c.settle .location { l with version := v }).1 l
      (c.settle .location { l with version := v }).2 := by
  unfold Cache.settle
  rw [h.immediate v]
  exact (h.version hn hv).symm

theorem Inquiry.await (h : c.Inquiry S l) {n : Nat} {d : Download} (hd : c.downloads[n]? = some d)
    (hk : d.location.key = l.key) : Tells S c l (c.await .location n) := by
  have hout : c.outcome? n = d.outcome := by simp [outcome?, hd]
  unfold Cache.await
  rw [hout]
  rcases ho : d.outcome with _ | r
  · exact .outcome hd hk
  · show (Goal.location.finish c.base r).map (·.version) = _
    rw [h.mirrors.outcome n d r hd ho, h.mirrors.base, fetch_of_key hk]
    rfl

theorem Inquiry.obtain (h : c.Inquiry S l) (hS : Settles S) :
    Tells S (c.obtain .location l false).1 l (c.obtain .location l false).2 := by
  unfold Cache.obtain
  split
  · next f hf =>
    -- a file that another request led to: its final URL has the key of the range
    obtain ⟨⟨k, hk, hkey⟩, n, hn⟩ := h.mirrors.sound.known _ f hf
    obtain ⟨d, -, hfetch⟩ := h.mirrors.outcome? hn
    have hread : readUrl c.base f.url = .ok k := readUrl_eq_ok.2 hk
    rw [h.mirrors.base] at hk
    have hfinal := hS _ _ (finalLocation_eq_ok.2 ⟨f, hfetch, hk⟩)
    rw [finalLocation_of_key hkey] at hfinal
    show (readUrl c.base f.url).map (·.version) = _
    rw [hread, hfinal]
  · next n hn =>
    obtain ⟨d, hd, hk⟩ := h.mirrors.sound.source _ n hn
    exact h.await hd hk
  · next hn =>
    have hd : (c.startDownload l false).downloads[c.downloads.length]? = some ⟨l, !false, none⟩ := by
      rw [getElem?_startDownload, if_pos rfl]
    have hnone : (c.startDownload l false).outcome? c.downloads.length = none := by simp [outcome?, hd]
    show Tells S _ l ((c.startDownload l false).await .location c.downloads.length)
    unfold Cache.await
    rw [hnone]
    exact .outcome hd rfl

theorem Inquiry.start (h : c.Inquiry S l) (hS : Settles S) :
    Tells S (c.start .location l).1 l (c.start .location l).2 := by
  unfold Cache.start
  rw [if_pos (by decide)]
  split
  · next m hm =>
    cases version_eq_exact h.mirrors.sound hm with
    | exact hx => exact absurd (h.range.1.symm.trans hx) (by simp)
    | pinned _ hn hv => exact h.settle hn hv
  · next hunknown =>
    unfold Cache.request
    rw [hunknown]
    exact h.obtain hS
  · next n hpending => exact .version (version_eq_pending h.mirrors.sound hpending).2.2.1

/-- A call for the version of a range waits for its own file, or comes to the version that the final URL names. -/
theorem Asking.resume_tells (hw : c.Asking l w) (h : c.Inquiry S l) (hS : Settles S) :
    Tells S (c.resume .location w).1 l (c.resume .location w).2 := by
  cases hw with
  | turn => exact h.start hS
  | @version n hn =>
    simp only [resume]
    rcases ho : c.outcome? n with _ | r
    · exact .version hn
    rcases hv : c.versionOf? n with _ | v
    · exact h.start hS
    · exact h.settle hn hv
  | outcome hd hk => exact h.await hd hk

end Cache

end Cdn

namespace Typings

open Cdn Location
open Build (Site)

/-! ## Sessions -/

/-- A crawl that asks for a version asks for that of a range, and waits for the file of that only. -/
def Stage.Asks (cache : Cache) : Stage → Prop
  | .version l w => Version.isExact l.version = false ∧ cache.Asking { l with path := Manifest.fileName } w
  | _ => True

theorem Stage.Asks.mono {stage : Stage} {cache cache' : Cache} (h : stage.Asks cache) (he : cache.Extends cache') :
    stage.Asks cache' := by
  cases stage with
  | version l w => exact ⟨h.1, h.2.mono he⟩
  | _ => exact trivial

theorem asks_fallBackStage (cache : Cache) (pkg : String) : (fallBackStage pkg).Asks cache := by
  unfold fallBackStage
  split <;> exact trivial

theorem asks_unresolvedStage (cache : Cache) (l : Location) (f : Failure) : (unresolvedStage l f).Asks cache := by
  unfold unresolvedStage
  split
  · exact trivial
  · split
    · exact asks_fallBackStage _ _
    · exact trivial

theorem asks_ofReference (cache : Cache) (referrer : Option Location) (manifest : ManifestSource) (r : Reference) :
    (Session.Crawl.ofReference referrer manifest r).stage.Asks cache := by
  cases r <;> exact trivial

namespace Session

variable {S : Site} {s s' : Session} {c : Crawl} {t : Turn} {l : Location} {w : Wait} {e : Event} {events : List Event}

/-- Ranges are asked for by their manifests, and the crawls that ask for them wait for these only. -/
structure Asks (s : Session) : Prop where
  /-- The downloads. -/
  inquires : s.cache.Inquires
  /-- The crawls. -/
  crawls : ∀ c ∈ s.crawls, c.stage.Asks s.cache

/-- The call of a crawl that asks for a version. -/
theorem Asks.inquiry (h : s.Asks) (hm : s.Mirrors S) (hc : c ∈ s.crawls) (hstage : c.stage = .version l w) :
    s.cache.Inquiry S { l with path := Manifest.fileName } ∧ s.cache.Asking { l with path := Manifest.fileName } w := by
  have hasks := h.crawls c hc
  rw [hstage] at hasks
  exact ⟨⟨hm.cache, h.inquires, hasks.1, rfl⟩, hasks.2⟩

/-- A crawl is told the version that the final URL of the manifest of the range names. -/
theorem Asks.version (h : s.Asks) (hm : s.Mirrors S) (hS : Settles S) (hc : c ∈ s.crawls) (hstage : c.stage = .version l w)
    {r : Except Failure Location} (hr : (s.cache.resume .location w).2 = .done r) :
    r.map (·.version) = (finalLocation S { l with path := Manifest.fileName }).map (·.version) := by
  obtain ⟨hinquiry, hasking⟩ := h.inquiry hm hc hstage
  have htells := hasking.resume_tells hinquiry hS
  rw [hr] at htells
  exact htells

/-- Where a turn leads a crawl that asks for a version. -/
theorem Acts.asks (h : s.Acts t) (ha : s.Asks) (hm : s.Mirrors S) (hs : s.Sound) (hS : Settles S)
    (hc : t.before ∈ s.crawls) : t.after.Asks (s.heard t.before) := by
  cases h with
  | ask => exact (ha.crawls _ hc).mono (hs.heard hc).2
  | inquire hl hx => exact ⟨hx, .turn⟩
  | @wait c l w w' hstage hr =>
    have hasks := ha.crawls c hc
    obtain ⟨hinquiry, hasking⟩ := ha.inquiry hm hc hstage
    have htells := hasking.resume_tells hinquiry hS
    rw [hr] at htells
    rw [hstage] at hasks
    have hheard : s.heard c = (s.cache.resume .location w).1 := by simp [Session.heard, hstage]
    rw [hheard]
    exact ⟨hasks.1, htells⟩
  | unresolved => exact asks_unresolvedStage _ _ _
  | @miss c l whole =>
    cases whole
    · exact trivial
    · exact asks_fallBackStage _ _
  | _ => exact trivial

theorem Does.asks (hd : s.Does e s') (ha : s.Asks) (hm : s.Mirrors S) (hs : s.Sound) (hS : Settles S) : s'.Asks := by
  cases hd with
  | rest => exact ha
  | answer n a => exact ⟨ha.inquires.complete n a, fun c hc => (ha.crawls c hc).mono .complete⟩
  | @load j l w log hj =>
    have hmem := List.mem_of_getElem? hj
    have hgoes := Cache.resume_goes (g := .file) hs.cache (hs.loading l w hmem)
    have hexact : Version.isExact l.version = true := hm.within.assets (l, .loading w) hmem
    exact ⟨ha.inquires.goes hgoes (Or.inl hexact), fun c hc => (ha.crawls c hc).mono hgoes.extends⟩
  | add _ hr =>
    refine ⟨ha.inquires, fun c hc => ?_⟩
    rcases List.mem_append.1 hc with hc | hc
    · exact ha.crawls c hc
    · obtain ⟨r, -, rfl⟩ := List.mem_map.1 hc
      exact asks_ofReference _ _ _ _
  | turn h =>
    obtain ⟨t, log, hacts, hb, rfl⟩ := h
    have hmem := List.mem_of_getElem? hb
    refine ⟨?_, fun c hc => ?_⟩
    · show (s.heard t.before).Inquires
      unfold heard
      split
      · next l w hstage =>
        have hstands := hs.crawls _ hmem
        rw [hstage] at hstands
        exact ha.inquires.goes (Cache.resume_goes (g := .location) hs.cache hstands.2) (Or.inr rfl)
      · exact ha.inquires
    · rcases mem_crawls_after hc with hc | rfl | hc
      · exact (ha.crawls c hc).mono (hs.heard hmem).2
      · exact hacts.asks ha hm hs hS hmem
      · obtain ⟨l, manifest, r, rfl⟩ := hacts.spawned hc
        exact asks_ofReference _ _ _ _

theorem AnsweredBy.init (h : AnsweredBy S s (events ++ [e])) : AnsweredBy S s events := fun before n a hpre =>
  h before n a (hpre.trans (List.prefix_append _ _))

theorem asks_play (hS : Canonical S) (hS' : Settles S) {map : ImportMap} {url : String} (hb : S.base = withFinalSlash url)
    (events : List Event) (ha : AnsweredBy S (fresh map url) events) : ((fresh map url).play events).Asks := by
  refine play_induction (P := fun events s => AnsweredBy S (fresh map url) events → s.Asks)
    (fun _ => ⟨.empty url, by simp [fresh]⟩) (fun events e ih hd ha => ?_) events ha
  exact hd.asks (ih ha.init) (mirrors_play hS hb events ha.init) (sound_play map url events) hS'

end Session

end Typings

end BareImports
