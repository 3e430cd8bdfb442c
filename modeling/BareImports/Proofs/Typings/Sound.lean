import BareImports.Proofs.Cdn.Transparency
import BareImports.Proofs.Typings.Packages

/-!
# What holds of a session

* `Stage.Stands cache stage` : the call of a stage stands somewhere that its location accounts for;
* `Session.Sound s` : the calls stand, no file is fetched twice, and all names are names of packages;
* `sound_play` : it holds after any events in any order;
* `Session.AnsweredBy S s events` : the requests in flight are answered as the site answers them;
* `Session.Mirrors S s` : versions are exact, and the files are those of the site (`mirrors_play`).
-/

namespace BareImports

namespace Typings

open Cdn Location

section Sound

variable {s : Session} {t : Turn} {c : Crawl} {l : Location}

/-! ## Soundness -/

/-- A crawl that asks for a version asks for that of a package, and its call stands. -/
def Stage.Stands (cache : Cache) : Stage → Prop
  | .range l => IsPackage l.pkg
  | .version l w => IsPackage l.pkg ∧ cache.Expects { l with path := Manifest.fileName } w
  | _ => True

theorem Stage.Stands.mono {stage : Stage} {cache cache' : Cache} (h : stage.Stands cache) (he : cache.Extends cache') :
    stage.Stands cache' := by
  cases stage with
  | version l w => exact ⟨h.1, h.2.mono he⟩
  | range l => exact h
  | _ => exact trivial

theorem stands_fallBackStage (cache : Cache) (pkg : String) : (fallBackStage pkg).Stands cache := by
  unfold fallBackStage
  split <;> exact trivial

theorem stands_unresolvedStage (cache : Cache) (l : Location) (f : Failure) : (unresolvedStage l f).Stands cache := by
  unfold unresolvedStage
  split
  · exact trivial
  · split
    · exact stands_fallBackStage _ _
    · exact trivial

theorem stands_ofReference (cache : Cache) (referrer : Option Location) (manifest : ManifestSource) (r : Reference) :
    (Session.Crawl.ofReference referrer manifest r).stage.Stands cache := by
  cases r <;> exact trivial

namespace Session

theorem Ranged.isPackage (h : s.Ranged c l) (hc : c.stage.Stands s.cache) : IsPackage l.pkg := by
  cases h with
  | specifier _ _ hl _ => exact (parse?_shaped hl).package
  | manifest hstage hm =>
    rw [hstage] at hc
    exact hc

/-- A location that is told is in a package. -/
theorem isPackage_of_told? (h : s.told? c = some l) (hc : c.stage.Stands s.cache) : IsPackage l.pkg := by
  unfold told? at h
  split at h
  · split at h
    · exact absurd h (by simp)
    · exact (parse?_shaped (Option.filter_eq_some_iff.1 h).1).package
  · next k hstage =>
    rw [hstage] at hc
    split at h
    · obtain ⟨hk, -⟩ := Option.filter_eq_some_iff.1 h
      rw [← Option.some.inj hk]
      exact hc
    · exact absurd h (by simp)
  · next k w hstage =>
    rw [hstage] at hc
    split at h
    · rw [← Option.some.inj h]
      exact hc.1
    · exact absurd h (by simp)
  · exact absurd h (by simp)

/-- The calls stand, no file is fetched twice, and all names are names of packages. -/
structure Sound (s : Session) : Prop where
  /-- The cache is sound. -/
  cache : s.cache.Sound
  /-- The calls of the crawls stand. -/
  crawls : ∀ c ∈ s.crawls, c.stage.Stands s.cache
  /-- The calls of the files stand. -/
  loading : ∀ l w, (l, .loading w) ∈ s.assets → s.cache.Expects l w
  /-- No file is fetched twice. -/
  once : (s.assets.map (·.1)).Nodup
  /-- What is kept has distinct names. -/
  distinct : s.Distinct
  /-- All crawls and files are about packages. -/
  within : s.Within fun p => IsPackage p.pkg
  /-- All names that are kept are names of packages. -/
  listed : ∀ name, s.Listed name → IsPackage name

theorem Sound.lookup (h : s.Sound) {a : Asset} (hl : (l, a) ∈ s.assets) : s.assets.lookup l = some a := by
  have honce := h.once
  generalize s.assets = assets at hl honce ⊢
  induction assets with
  | nil => exact absurd hl (by simp)
  | cons e assets ih =>
    rw [List.map_cons, List.nodup_cons] at honce
    rw [List.lookup_cons]
    rcases List.mem_cons.1 hl with rfl | hmem
    · simp
    · have hne : l ≠ e.1 := fun heq => honce.1 (heq ▸ List.mem_map_of_mem hmem)
      rw [beq_eq_false_iff_ne.2 hne]
      exact ih hmem honce.2

theorem sound_fresh (map : ImportMap) (url : String) : (fresh map url).Sound where
  cache := .empty url
  crawls := by simp [fresh]
  loading := by simp [fresh]
  once := by simp [fresh]
  distinct := ⟨by simp [fresh], fun p v => by simp [fresh, Graph.dependencies]⟩
  within := ⟨by simp [fresh], by simp [fresh]⟩
  listed name h := by
    rcases h with h | ⟨p, v, h⟩
    · exact absurd h (by simp [fresh])
    · exact absurd h (by simp [fresh, Graph.dependencies])

/-- The cache behind a turn. -/
theorem Sound.heard (h : s.Sound) (hc : c ∈ s.crawls) : (s.heard c).Sound ∧ s.cache.Extends (s.heard c) := by
  unfold Session.heard
  split
  · next l w hstage =>
    have hstands := h.crawls c hc
    rw [hstage] at hstands
    have hgoes := Cache.resume_goes (g := .location) h.cache hstands.2
    exact ⟨hgoes.sound h.cache, hgoes.extends⟩
  · exact ⟨h.cache, .refl _⟩

/-- The calls of a turn stand behind it. -/
theorem Acts.stands (h : s.Acts t) (hs : s.Sound) (hc : t.before ∈ s.crawls) : t.after.Stands (s.heard t.before) := by
  have hstands := hs.crawls _ hc
  obtain ⟨-, hgrows⟩ := hs.heard hc
  cases h with
  | ask => exact hstands.mono hgrows
  | seek _ _ hl _ => exact (parse?_shaped hl).package
  | inquire hl => exact ⟨hl.isPackage hstands, .turn⟩
  | @wait c l w w' hstage hr =>
    dsimp only at hstands ⊢
    rw [hstage] at hstands
    have hgoes := (Cache.resume_goes (g := .location) hs.cache hstands.2).stands
    rw [hr] at hgoes
    have hheard : s.heard c = (s.cache.resume .location w).1 := by simp [Session.heard, hstage]
    rw [hheard]
    exact ⟨hstands.1, hgoes⟩
  | unresolved => exact stands_unresolvedStage _ _ _
  | @miss c l whole =>
    cases whole
    · exact trivial
    · exact stands_fallBackStage _ _
  | _ => exact trivial

theorem Acts.spawned (h : s.Acts t) (hc : c ∈ t.spawned) : ∃ l manifest r, c = Crawl.ofReference (some l) manifest r := by
  cases h with
  | follow =>
    dsimp only at hc
    obtain ⟨r, hc⟩ := exists_of_mem_spawned hc
    exact ⟨_, _, r, hc⟩
  | followRelative =>
    dsimp only at hc
    obtain ⟨r, hc⟩ := exists_of_mem_spawned hc
    exact ⟨_, _, r, hc⟩
  | _ => exact absurd hc (by simp)

theorem isPackage_of_pin? (hs : s.Sound) {e : Event} {r : Option PackageVersion} (h : s.pin? e = some (r, l)) :
    IsPackage l.pkg := by
  unfold pin? at h
  split at h
  · obtain ⟨c, hb, htold⟩ := Option.bind_eq_some_iff.1 h
    obtain ⟨k, hk, hsame⟩ := Option.map_eq_some_iff.1 htold
    obtain ⟨-, rfl⟩ := Prod.mk.inj hsame
    exact isPackage_of_told? hk (hs.crawls c (List.mem_of_getElem? hb))
  · exact absurd h (by simp)

theorem recorded_cases (s : Session) (t : Turn) : s.recorded t = s ∨
    ∃ l, t.pinned = some l ∧ s.recorded t = s.record t.before.referrer l.pkg l.version := by
  unfold recorded
  rcases t.pinned with _ | l
  · exact Or.inl rfl
  · exact Or.inr ⟨l, rfl, rfl⟩

theorem Does.sound {s' : Session} {e : Event} (h : s.Does e s') (hs : s.Sound) : s'.Sound := by
  have hwithin := h.within hs.within fun r l hpin => isPackage_of_pin? hs hpin
  cases h with
  | rest => exact hs
  | answer n a =>
    have hgrows : s.cache.Extends (s.cache.complete n a) := .complete
    exact ⟨hs.cache.complete, fun c hc => (hs.crawls c hc).mono hgrows, fun l w hl => (hs.loading l w hl).mono hgrows,
      hs.once, ⟨hs.distinct.roots, hs.distinct.graph⟩, hwithin, hs.listed⟩
  | @load j k w log hj =>
    have hgoes := Cache.resume_goes (g := .file) hs.cache (hs.loading k w (List.mem_of_getElem? hj))
    refine ⟨hgoes.sound hs.cache, fun c hc => (hs.crawls c hc).mono hgoes.extends, fun l w' hl => ?_, ?_,
      ⟨hs.distinct.roots, hs.distinct.graph⟩, hwithin, hs.listed⟩
    · rcases List.mem_or_eq_of_mem_set hl with hl | heq
      · exact (hs.loading l w' hl).mono hgoes.extends
      · obtain ⟨rfl, hload⟩ := Prod.mk.inj heq
        have hstands := hgoes.stands
        rcases hr : (s.cache.resume .file w).2 with r | w''
        · rw [hr] at hload
          exact absurd hload (by simp [Asset.ofStatus])
        · rw [hr] at hload hstands
          obtain rfl : w' = w'' := by simpa [Asset.ofStatus] using hload
          exact hstands
    · have hsame : (s.assets.set j (k, Asset.ofStatus (s.cache.resume .file w).2)).map (·.1) = s.assets.map (·.1) := by
        rw [List.map_set]
        exact set_eq_self (by rw [List.getElem?_map, hj]; rfl)
      rw [hsame]
      exact hs.once
  | add _ hr =>
    refine ⟨hs.cache, fun c hc => ?_, hs.loading, hs.once, ⟨hs.distinct.roots, hs.distinct.graph⟩, hwithin, hs.listed⟩
    rcases List.mem_append.1 hc with hc | hc
    · exact hs.crawls c hc
    · obtain ⟨r, -, rfl⟩ := List.mem_map.1 hc
      exact stands_ofReference _ _ _ _
  | turn h =>
    obtain ⟨t, log, ha, hb, rfl⟩ := h
    have hmem := List.mem_of_getElem? hb
    obtain ⟨hcache, hgrows⟩ := hs.heard hmem
    refine ⟨hcache, fun c hc => ?_, fun l w hl => ?_, ?_, ?_, hwithin, fun name hname => ?_⟩
    · rcases mem_crawls_after hc with hc | rfl | hc
      · exact (hs.crawls c hc).mono hgrows
      · exact ha.stands hs hmem
      · obtain ⟨l, manifest, r, rfl⟩ := ha.spawned hc
        exact stands_ofReference _ _ _ _
    · rcases mem_assets_after hl with hl | ⟨k, -, heq⟩
      · exact (hs.loading l w hl).mono hgrows
      · obtain ⟨rfl, hload⟩ := Prod.mk.inj heq
        obtain rfl := Asset.loading.inj hload
        exact .turn
    · show ((s.assets ++ t.asked.toList.map fun l => (l, Asset.loading (.turn l))).map (·.1)).Nodup
      rcases hasked : t.asked with _ | l
      · simpa using hs.once
      · rw [List.map_append, List.nodup_append]
        refine ⟨hs.once, by simp, fun a ha' b hb' hab => ?_⟩
        obtain ⟨e, he, rfl⟩ := List.mem_map.1 ha'
        obtain rfl : b = l := by simpa using hb'
        exact absurd (List.lookup_eq_none_iff.1 (ha.asked hasked).2 e he) (by simp [hab])
    · rcases s.recorded_cases t with hsame | ⟨l, -, hrecord⟩
      · exact ⟨by show (s.recorded t).roots.map _ |>.Nodup; rw [hsame]; exact hs.distinct.roots,
          by show Layout.DistinctNames (s.recorded t).graph; rw [hsame]; exact hs.distinct.graph⟩
      · have hdistinct := hs.distinct.record t.before.referrer l.pkg l.version
        rw [← hrecord] at hdistinct
        exact ⟨hdistinct.roots, hdistinct.graph⟩
    · have hlisted : (s.recorded t).Listed name := hname
      rcases s.recorded_cases t with hsame | ⟨l, hl, hrecord⟩
      · rw [hsame] at hlisted
        exact hs.listed name hlisted
      · rw [hrecord] at hlisted
        rcases hlisted.record with rfl | hold
        · exact isPackage_of_told? (ha.pinned hl) (hs.crawls _ hmem)
        · exact hs.listed name hold

theorem sound_play (map : ImportMap) (url : String) (events : List Event) : ((fresh map url).play events).Sound :=
  play_induction (P := fun _ s => s.Sound) (sound_fresh map url) (fun _ _ h hd => hd.sound h) events

end Session

end Sound

/-! ## Sessions in front of a site -/

end Typings

namespace Cdn.Cache

open Build (Site)

/-- The version of a location that a call comes to is exact, where final URLs name exact versions. -/
theorem Mirrors.isExact_of_answers {S : Site} {c : Cache} {l exact : Location} (h : c.Mirrors S) (hS : Canonical S)
    (ha : c.Answers l .location (.ok exact)) : Version.isExact exact.version = true := by
  have hnamed : ∀ n f k, c.outcome? n = some (.ok f) → parseUrl? c.base f.url = some k →
      Version.isExact k.version = true := by
    intro n f k hf hk
    obtain ⟨d, -, hfetch⟩ := h.outcome? hf
    obtain ⟨k', hk', hx, -⟩ := hS _ f hfetch
    rw [h.base, hk'] at hk
    exact Option.some.inj hk ▸ hx
  generalize hres : (Except.ok exact : Except Failure (Goal.Result .location)) = result at ha
  cases ha with
  | @served m r hm hr =>
    obtain ⟨n, f, rfl, hf⟩ : ∃ n f, r = .ok f ∧ c.outcome? n = some (.ok f) := by
      rcases r with e | f
      · exact absurd hres (by simp [Goal.finish, Except.bind])
      · rcases hr with ⟨n, d, hd, -, ho⟩ | ⟨f', hf, heq⟩
        · exact ⟨n, f, rfl, by rw [Cache.outcome?, hd]; exact ho⟩
        · obtain ⟨-, n, hn⟩ := h.sound.known _ f' hf
          exact ⟨n, f, rfl, by rw [hn, heq]⟩
    refine hnamed n f exact hf ?_
    have hread : readUrl c.base f.url = .ok exact := hres.symm
    unfold readUrl at hread
    split at hread
    · next k hk => rw [hk, Except.ok.inj hread]
    · exact absurd hread (by simp)
  | @immediate m m' a hm hm' himmediate =>
    have hsame : m' = exact := by
      simp only [Goal.immediate?] at himmediate
      split at himmediate
      · rw [Option.some.inj himmediate]
        exact (Except.ok.inj hres).symm
      · exact absurd himmediate (by simp)
    rw [← hsame]
    cases hm' with
    | exact hx => exact hx
    | pinned hx hn hv =>
      obtain ⟨f, k, hf, hk, rfl⟩ := versionOf?_eq_some hv
      exact hnamed _ f k hf hk

end Cdn.Cache

namespace Typings

open Cdn Location
open Build (Site)

/-- The content of a file that a site has, `none` if it has none. -/
def textAt (S : Site) (l : Location) : Option String := ((S.fetch l).map (·.file.content)).toOption

namespace Session

variable {S : Site} {s s' : Session} {c : Crawl} {l : Location} {e : Event} {events : List Event}

/-- The requests in flight are answered as the site answers them. -/
def AnsweredBy (S : Site) (s : Session) (events : List Event) : Prop :=
  ∀ before n a, before ++ [.move (.answer n a)] <+: events →
    ∀ url, (n, url) ∈ (s.play before).cache.inFlight → a = S.cdn url

theorem answeredBy_nil : AnsweredBy S s [] := fun before n a hpre =>
  absurd (List.prefix_nil.1 hpre) (by simp)

theorem answeredBy_cons {ev : Event}
    (hev : ∀ n a, ev = .move (.answer n a) → ∀ url, (n, url) ∈ s.cache.inFlight → a = S.cdn url)
    (h : AnsweredBy S (s.take ev) events) : AnsweredBy S s (ev :: events) := by
  intro before n a hpre url hurl
  rcases before with _ | ⟨b, before⟩
  · obtain ⟨rfl, -⟩ := List.cons_prefix_cons.1 hpre
    exact hev n a rfl url hurl
  · obtain ⟨rfl, hrest⟩ := List.cons_prefix_cons.1 hpre
    exact h before n a hrest url hurl

theorem answeredBy_append {events' : List Event} (h : AnsweredBy S s events)
    (h' : AnsweredBy S (s.play events) events') : AnsweredBy S s (events ++ events') := by
  induction events generalizing s with
  | nil => exact h'
  | cons ev events ih =>
    refine answeredBy_cons (fun n a hev => ?_) (ih (fun before n a hpre => ?_) h')
    · exact h [] n a (by rw [hev]; exact List.prefix_append [_] _)
    · exact h (ev :: before) n a (List.cons_prefix_cons.2 ⟨rfl, hpre⟩)

/-- Whether the requests in flight are answered as the site answers them. -/
def answered (S : Site) (s : Session) : List Event → Bool
  | [] => true
  | ev :: events => (match ev with
    | .move (.answer n a) => s.cache.inFlight.all fun q => q.1 != n || decide (a = S.cdn q.2)
    | _ => true) && answered S (s.take ev) events

theorem answeredBy_of_answered (h : answered S s events = true) : AnsweredBy S s events := by
  induction events generalizing s with
  | nil => exact answeredBy_nil
  | cons ev events ih =>
    obtain ⟨hev, hrest⟩ := Bool.and_eq_true_iff.1 h
    refine answeredBy_cons (fun n a hanswer url hmem => ?_) (ih hrest)
    subst hanswer
    have hat := List.all_eq_true.1 hev _ hmem
    simpa using hat

/-- Versions are exact, and the files are those of the site. -/
structure Mirrors (S : Site) (s : Session) : Prop where
  /-- The cache mirrors the site. -/
  cache : s.cache.Mirrors S
  /-- The crawls and the files are about exact versions. -/
  within : s.Within fun p => Version.isExact p.version = true
  /-- What is known of a file is what the site has. -/
  known : ∀ l content, (l, .known content) ∈ s.assets → content = textAt S l

/-- The location that a crawl is told has an exact version. -/
theorem Mirrors.isExact_of_told? (h : s.Mirrors S) (hS : Canonical S) (hs : s.Sound) (hc : c ∈ s.crawls)
    (ht : s.told? c = some l) : Version.isExact l.version = true := by
  unfold told? at ht
  split at ht
  · split at ht
    · exact absurd ht (by simp)
    · exact (Option.filter_eq_some_iff.1 ht).2
  · split at ht
    · exact (Option.filter_eq_some_iff.1 ht).2
    · exact absurd ht (by simp)
  · next k w hstage =>
    have hstands := hs.crawls c hc
    rw [hstage] at hstands
    have hgoes := Cache.resume_goes (g := .location) hs.cache hstands.2
    split at ht
    · next exact hr =>
      have hanswers := hgoes.stands
      rw [hr] at hanswers
      have hexact : Version.isExact exact.version = true := (h.cache.goes hgoes).isExact_of_answers hS hanswers
      rw [← Option.some.inj ht]
      exact hexact
    · exact absurd ht (by simp)
  · exact absurd ht (by simp)

theorem Does.mirrors (hd : s.Does e s') (h : s.Mirrors S) (hS : Canonical S) (hs : s.Sound)
    (ha : ∀ n a url, e = .move (.answer n a) → (n, url) ∈ s.cache.inFlight → a = S.cdn url) : s'.Mirrors S := by
  have hwithin : s'.Within fun p => Version.isExact p.version = true := by
    refine hd.within h.within fun r l hpin => ?_
    unfold pin? at hpin
    split at hpin
    · obtain ⟨c, hb, htold⟩ := Option.bind_eq_some_iff.1 hpin
      obtain ⟨k, hk, hsame⟩ := Option.map_eq_some_iff.1 htold
      obtain ⟨-, rfl⟩ := Prod.mk.inj hsame
      exact h.isExact_of_told? hS hs (List.mem_of_getElem? hb) hk
    · exact absurd hpin (by simp)
  cases hd with
  | rest => exact h
  | answer n a => exact ⟨h.cache.complete hS fun url => ha n a url rfl, hwithin, h.known⟩
  | add _ hr => exact ⟨h.cache, hwithin, h.known⟩
  | @load j k w log hj =>
    have hmem := List.mem_of_getElem? hj
    have hgoes := Cache.resume_goes (g := .file) hs.cache (hs.loading k w hmem)
    refine ⟨h.cache.goes hgoes, hwithin, fun l content hl => ?_⟩
    rcases List.mem_or_eq_of_mem_set hl with hl | heq
    · exact h.known l content hl
    · obtain ⟨rfl, hload⟩ := Prod.mk.inj heq
      have hstands := hgoes.stands
      rcases hr : (s.cache.resume .file w).2 with r | w'
      · rw [hr] at hload hstands
        have hexact : Version.isExact l.version = true := h.within.assets (l, .loading w) hmem
        have hsteady : Steady S l := fun hx => by rw [hexact] at hx; exact absurd hx (by simp)
        have hanswers : (s.cache.resume .file w).1.Answers l .file r := hstands
        have hresult := (h.cache.goes hgoes).answers hS hsteady hanswers
        obtain rfl := Asset.known.inj hload
        rw [hresult]
        unfold textAt
        cases S.fetch l <;> rfl
      · rw [hr] at hload
        exact absurd hload (by simp [Asset.ofStatus])
  | turn h' =>
    obtain ⟨t, log, hacts, hb, rfl⟩ := h'
    have hmem := List.mem_of_getElem? hb
    refine ⟨?_, hwithin, fun l content hl => ?_⟩
    · show (s.heard t.before).Mirrors S
      unfold heard
      split
      · next k w hstage =>
        have hstands := hs.crawls _ hmem
        rw [hstage] at hstands
        exact h.cache.goes (Cache.resume_goes (g := .location) hs.cache hstands.2)
      · exact h.cache
    · rcases mem_assets_after hl with hl | ⟨k, -, heq⟩
      · exact h.known l content hl
      · exact absurd heq (by simp)

theorem mirrors_play (hS : Canonical S) {map : ImportMap} {url : String} (hb : S.base = withFinalSlash url)
    (events : List Event) (ha : AnsweredBy S (fresh map url) events) : ((fresh map url).play events).Mirrors S := by
  refine play_induction (P := fun events s => AnsweredBy S (fresh map url) events → s.Mirrors S)
    (fun _ => ⟨.empty hb, ⟨by simp [fresh], by simp [fresh]⟩, by simp [fresh]⟩) (fun events e ih hd ha => ?_) events ha
  have hbefore : AnsweredBy S (fresh map url) events := fun before n a hpre =>
    ha before n a (hpre.trans (List.prefix_append _ _))
  refine hd.mirrors (ih hbefore) hS (sound_play map url events) fun n a url' he hurl => ?_
  subst he
  exact ha events n a List.prefix_rfl url' hurl

end Session

end Typings

end BareImports
