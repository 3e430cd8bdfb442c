import BareImports.Proofs.Cdn.Transparency
import BareImports.Proofs.FileName

/-!
# A cache in front of a consistent site

* `Site.Asked project l` : a location that a build may ask for;
* `Consistent.origin` : where the file of such a location comes from;
* `Site.Faithful project c` : what the downloads of a cache came to is what the site has; `Faithful.goes`,
  `Faithful.complete`;
* `Faithful.answers`, `Faithful.answers_location` : a call has the result that its location has on the site.
-/

namespace BareImports.Build.Site

open Text Cdn Location

variable {S : Site} {project : Option Value} {l m : Location}

/-! ## Locations that are asked for -/

/-- A location that a build may ask for. -/
structure Asked (S : Site) (project : Option Value) (l : Location) : Prop where
  /-- The package is one name. -/
  package : IsPackage l.pkg
  /-- A specifier or a manifest can name the range. -/
  range : S.Names project l.pkg l.version
  /-- The path does not begin with a slash. -/
  path : l.path.toList.head? ≠ some '/'

theorem not_mem_of_isExact {v : String} (h : Version.isExact v = true) : '/' ∉ v.toList := fun hmem => by
  have hchar := isVersionChar_of_isExact h _ hmem
  simp [isVersionChar] at hchar

theorem names_of_isExact {v : String} (pkg : String) (h : Version.isExact v = true) : S.Names project pkg v :=
  Or.inl (not_mem_of_isExact h)

theorem Asked.shaped (h : S.Asked project l) (he : Version.isExact l.version = true) : l.Shaped :=
  ⟨h.package, not_mem_of_isExact he⟩

theorem asked_of_shaped (h : l.Shaped) (hp : l.path.toList.head? ≠ some '/') : S.Asked project l :=
  ⟨h.package, Or.inl h.version, hp⟩

/-- Locations with one package, one range and one path have one file. -/
theorem fetch_congr (hpkg : l.pkg = m.pkg) (hrange : l.range = m.range) (hpath : l.path = m.path) :
    S.fetch l = S.fetch m := by
  have hkey : l.key = m.key := by
    unfold key
    rw [pkgVersion_eq, pkgVersion_eq, hpkg, hrange, hpath]
  rw [fetch, fetch, hkey]

/-! ## Files of a consistent site -/

/-- The location that the final URL of a file names. -/
theorem parseUrl?_final {base pkg v p : String} (hpkg : IsPackage pkg) (hv : Version.isExact v = true)
    (hp : '\n' ∉ p.toList) : parseUrl? base (base ++ pkg ++ "@" ++ v ++ "/" ++ p) = some ⟨pkg, v, p⟩ := by
  have htext : (base ++ pkg ++ "@" ++ v ++ "/" ++ p).toList =
      base.toList ++ (pkg.toList ++ '@' :: (v.toList ++ '/' :: p.toList)) := by simp
  unfold parseUrl?
  rw [htext, after?_append, Option.bind_some]
  exact parse?_format hpkg (ne_empty_of_isExact hv) (isVersionChar_of_isExact hv) hp

/-- A file comes from path `p` of version `v`. -/
structure Origin (S : Site) (project : Option Value) (l : Location) (f : Fetched) (v p : String) : Prop where
  /-- The final URL names it. -/
  final : parseUrl? S.base f.url = some ⟨l.pkg, v, p⟩
  /-- The version is exact. -/
  exact : Version.isExact v = true
  /-- An exact version stays. -/
  version : Version.isExact l.version = true → v = l.version
  /-- The file is there. -/
  fetch : S.fetch ⟨l.pkg, v, p⟩ = .ok f
  /-- It may be asked for. -/
  asked : S.Asked project ⟨l.pkg, v, p⟩
  /-- A path with an extension stays. -/
  path : FileName.extension l.path.toList ≠ [] → p = l.path
  /-- The range is served like the version. -/
  pinned : ∀ path, S.fetch ⟨l.pkg, l.version, path⟩ = S.fetch ⟨l.pkg, v, path⟩

/-- The file of a location that may be asked for has an origin. -/
theorem Consistent.origin (h : S.Consistent project) (hl : S.Asked project l) {f : Fetched} (hf : S.fetch l = .ok f) :
    ∃ v p, Origin S project l f v p := by
  obtain ⟨v, hv, hkeep, hpin⟩ : ∃ v, Version.isExact v = true ∧ (Version.isExact l.version = true → v = l.version) ∧
      ∀ path, S.fetch ⟨l.pkg, l.version, path⟩ = S.fetch ⟨l.pkg, v, path⟩ := by
    by_cases he : Version.isExact l.version = true
    · exact ⟨l.version, he, fun _ => rfl, fun _ => rfl⟩
    · obtain ⟨v, hv, hpin⟩ := h.pinned l.pkg l.version l.path f hl.package (by simpa using he) hl.range hf
      exact ⟨v, hv, fun h' => absurd h' he, hpin⟩
  have hf' : S.fetch ⟨l.pkg, v, l.path⟩ = .ok f := by rw [← hpin]; exact hf
  obtain ⟨p, hurl, hline, hhead, hext, hget, hsame⟩ := h.served l.pkg v l.path f hl.package hv hf'
  have hkey : (⟨l.pkg, v, p⟩ : Location).key = l.pkg ++ "@" ++ v ++ "/" ++ p :=
    key_of_plain (ne_empty_of_isExact hv) hhead (FileName.getLast?_of_extension hext)
  refine ⟨v, p, ?_, hv, hkeep, ?_, ⟨hl.package, names_of_isExact _ hv, hhead⟩, fun he => hsame he hl.path, hpin⟩
  · rw [hurl]
    exact parseUrl?_final hl.package hv hline
  · unfold Site.fetch
    rw [hkey, ← hget, hurl]
    simp only [String.append_assoc]

/-! ## Faithful caches -/

/-- The downloads of a cache have come to what the site has. -/
structure Faithful (S : Site) (project : Option Value) (c : Cache) : Prop where
  /-- The cache is one in front of the site. -/
  base : c.base = S.base
  /-- The cache is sound. -/
  sound : c.Sound
  /-- What is downloaded may be asked for. -/
  asked : ∀ (n : Nat) (d : Download), c.downloads[n]? = some d → S.Asked project d.location
  /-- A download resolves a version exactly if that of its location is inexact. -/
  resolves : ∀ (n : Nat) (d : Download), c.downloads[n]? = some d → d.resolves = !Version.isExact d.location.version
  /-- What a download has come to is what the site has. -/
  outcome : ∀ (n : Nat) (d : Download) (r : Except Failure Fetched), c.downloads[n]? = some d → d.outcome = some r →
    r = S.fetch d.location

theorem Faithful.empty {url : String} (h : S.base = withFinalSlash url) : S.Faithful project (.empty url) where
  base := h.symm
  sound := .empty url
  asked := by simp [Cache.empty]
  resolves := by simp [Cache.empty]
  outcome := by simp [Cache.empty]

section Faithful

variable {c : Cache}

theorem Faithful.outcome? (h : S.Faithful project c) {n : Nat} {f : Fetched} (hf : c.outcome? n = some (.ok f)) :
    ∃ d, c.downloads[n]? = some d ∧ S.Asked project d.location ∧ S.fetch d.location = .ok f := by
  obtain ⟨d, hd, ho⟩ := Option.bind_eq_some_iff.1 hf
  exact ⟨d, hd, h.asked n d hd, (h.outcome n d _ hd ho).symm⟩

/-- A version that is known is exact, and the range is served under it. -/
theorem Faithful.of_resolves (h : S.Faithful project c) (hS : S.Consistent project) (hl : S.Asked project l)
    (hr : c.Resolves l m) : S.Asked project m ∧ Version.isExact m.version = true ∧ m.path = l.path ∧
      S.fetch m = S.fetch l := by
  cases hr with
  | exact he => exact ⟨hl, he, rfl, rfl⟩
  | @pinned n v hx hn hv =>
    obtain ⟨d, hd, hres, hrange⟩ := hn
    obtain ⟨f, k, hf, hk, rfl⟩ := Cache.versionOf?_eq_some hv
    obtain ⟨d', hd', hasked, hfetch⟩ := h.outcome? hf
    rw [hd] at hd'
    obtain rfl := Option.some.inj hd'
    obtain ⟨v, p, ho⟩ := hS.origin hasked hfetch
    rw [h.base, ho.final] at hk
    obtain rfl := Option.some.inj hk
    obtain ⟨hpkg, hrange⟩ := same_of_pkgVersion hasked.package hl.package hrange
    refine ⟨⟨hl.package, names_of_isExact _ ho.exact, hl.path⟩, ho.exact, rfl, ?_⟩
    have hlm : S.fetch l = S.fetch ⟨d.location.pkg, d.location.version, l.path⟩ := fetch_congr hpkg.symm hrange.symm rfl
    rw [hlm, ho.pinned, hpkg]

theorem Faithful.of_reaches (h : S.Faithful project c) (hS : S.Consistent project) (hl : S.Asked project l)
    (hr : c.Reaches l m) : S.Asked project m ∧ m.path = l.path ∧ S.fetch m = S.fetch l := by
  induction hr with
  | refl => exact ⟨hl, rfl, rfl⟩
  | tail _ hr ih =>
    obtain ⟨hasked, hpath, hfetch⟩ := ih
    obtain ⟨hasked', -, hpath', hfetch'⟩ := h.of_resolves hS hasked hr
    exact ⟨hasked', hpath'.trans hpath, hfetch'.trans hfetch⟩

/-- What is served for a key is what the site has there. -/
theorem Faithful.served (h : S.Faithful project c) (hS : S.Consistent project) {k : String}
    {r : Except Failure Fetched} (hr : c.Served k r) : r = S.get (S.base ++ k) := by
  rcases hr with ⟨n, d, hd, rfl, ho⟩ | ⟨f, hf, rfl⟩
  · exact h.outcome n d r hd ho
  · obtain ⟨⟨k', hk', rfl⟩, n, hn⟩ := h.sound.known k f hf
    obtain ⟨d, -, hasked, hfetch⟩ := h.outcome? hn
    obtain ⟨v, p, ho⟩ := hS.origin hasked hfetch
    rw [h.base, ho.final] at hk'
    obtain rfl := Option.some.inj hk'
    exact ho.fetch.symm

/-! ## What is kept -/

theorem Faithful.startDownload (h : S.Faithful project c) (hl : S.Asked project l) {exact : Bool}
    (hs : (c.startDownload l exact).Sound) (he : exact = Version.isExact l.version) :
    S.Faithful project (c.startDownload l exact) where
  base := h.base
  sound := hs
  asked n d hd := by
    rw [Cache.getElem?_startDownload] at hd
    split at hd
    · rw [← Option.some.inj hd]; exact hl
    · exact h.asked n d hd
  resolves n d hd := by
    rw [Cache.getElem?_startDownload] at hd
    split at hd
    · rw [← Option.some.inj hd, he]
    · exact h.resolves n d hd
  outcome n d r hd ho := by
    rw [Cache.getElem?_startDownload] at hd
    split at hd
    · rw [← Option.some.inj hd] at ho
      exact absurd ho (by simp)
    · exact h.outcome n d r hd ho

/-- A call for a location that may be asked for keeps a cache faithful. -/
theorem Faithful.goes (h : S.Faithful project c) (hS : S.Consistent project) (hl : S.Asked project l) {g : Goal}
    {o : Cache × Status g} (ho : c.Goes l o) : S.Faithful project o.1 := by
  have hsound := ho.sound h.sound
  rcases ho.started with he | ⟨k, exact, he, -, hk, hunknown, hexact⟩
  · rw [he]
    exact h
  · rw [he] at hsound ⊢
    refine h.startDownload (h.of_reaches hS hl hk).1 hsound ?_
    cases exact with
    | false => exact (hunknown rfl).1.symm
    | true =>
      obtain ⟨k', hk', hres⟩ := hexact rfl
      exact (h.of_resolves hS (h.of_reaches hS hl hk').1 hres).2.1.symm

/-- What the answer of the site makes of a download is what the site has. -/
theorem Faithful.judge (h : S.Faithful project c) (hS : S.Consistent project) {d : Download}
    (hd : S.Asked project d.location) : c.judge d (S.cdn (c.urlOf d)) = S.fetch d.location := by
  apply Cache.judge_cdn h.base
  intro f hf
  obtain ⟨v, p, ho⟩ := hS.origin hd hf
  exact ⟨_, ho.final⟩

/-- An answer of the site keeps a cache faithful. -/
theorem Faithful.complete (h : S.Faithful project c) (hS : S.Consistent project) {n : Nat} {a : Answer}
    (ha : ∀ url, (n, url) ∈ c.inFlight → a = S.cdn url) : S.Faithful project (c.complete n a) := by
  by_cases hfl : ∃ d, c.downloads[n]? = some d ∧ d.outcome = none
  swap
  · rw [Cache.complete_eq_self fun d hd ho => hfl ⟨d, hd, ho⟩]
    exact h
  obtain ⟨d, hd, ho⟩ := hfl
  obtain rfl := ha (c.urlOf d) (Cache.mem_inFlight.2 ⟨d, hd, ho, rfl⟩)
  refine ⟨?_, h.sound.complete, fun k e he => ?_, fun k e he => ?_, fun k e r he hr => ?_⟩
  · rw [Cache.base_complete, h.base]
  · rw [Cache.getElem?_complete hd ho] at he
    split at he
    · rw [← Option.some.inj he]; exact h.asked n d hd
    · exact h.asked k e he
  · rw [Cache.getElem?_complete hd ho] at he
    split at he
    · rw [← Option.some.inj he]; exact h.resolves n d hd
    · exact h.resolves k e he
  · rw [Cache.getElem?_complete hd ho] at he
    split at he
    · rw [← Option.some.inj he] at hr ⊢
      rw [← Option.some.inj hr]
      exact h.judge hS (h.asked n d hd)
    · exact h.outcome k e r he hr

/-! ## What calls come to -/

/-- What a call for a location does when it goes on. -/
structure Resumes (S : Site) (project : Option Value) (c : Cache) (l : Location) {g : Goal} (o : Cache × Status g) :
    Prop where
  /-- The cache stays faithful. -/
  faithful : S.Faithful project o.1
  /-- The cache goes on to know what it knows. -/
  grows : c.Extends o.1
  /-- The call stands somewhere. -/
  stands : o.1.Stands l o.2

theorem Faithful.resume (h : S.Faithful project c) (hS : S.Consistent project) (hl : S.Asked project l) {g : Goal}
    {w : Wait} (hw : c.Expects l w) : S.Resumes project c l (c.resume g w) :=
  have hg := Cache.resume_goes h.sound hw
  ⟨h.goes hS hl hg, hg.extends, hg.stands⟩

/-- A call for a file or a manifest has the result that its location has on the site. -/
theorem Faithful.answers (h : S.Faithful project c) (hS : S.Consistent project) (hl : S.Asked project l) {g : Goal}
    (hg : ∀ m, g.immediate? m = none) {r : Except Failure g.Result} (hr : c.Answers l g r) :
    r = g.finish S.base (S.fetch l) := by
  cases hr with
  | served hm hr =>
    rw [h.served hS hr, h.base, ← (h.of_reaches hS hl hm).2.2]
    rfl
  | immediate _ _ ha =>
    rw [hg] at ha
    exact absurd ha (by simp)

/-- A call for the exact version and path leads where the site leads. -/
theorem Faithful.answers_location (h : S.Faithful project c) (hS : S.Consistent project) (hl : S.Asked project l)
    {r : Except Failure Goal.location.Result} (hr : c.Answers l .location r) (referrer : String) :
    (r.bind fun (m : Location) => S.content m (Stage.reaching referrer m)) = S.canonical referrer l ∧
      ∀ m : Location, r = .ok m → S.Asked project m ∧ m.Shaped := by
  rcases hr with ⟨hm, hserved⟩ | ⟨hm, hk, ha⟩
  · next m r =>
    obtain ⟨hm, -, hfetch⟩ := h.of_reaches hS hl hm
    obtain rfl : r = S.fetch l := (h.served hS hserved).trans hfetch
    refine ⟨by rw [h.base]; rfl, fun k hk => ?_⟩
    rcases hf : S.fetch l with e | f
    · rw [hf] at hk
      exact absurd hk (by simp [Goal.finish, Except.bind])
    · obtain ⟨v, p, ho⟩ := hS.origin hl hf
      have hread : readUrl c.base f.url = .ok k := by rw [hf] at hk; exact hk
      rw [readUrl, h.base, ho.final] at hread
      obtain rfl := Except.ok.inj hread
      exact ⟨ho.asked, ho.asked.shaped ho.exact⟩
  · next m k a =>
    obtain ⟨hm, -, hfetch⟩ := h.of_reaches hS hl hm
    obtain ⟨hk, he, -, hfetch'⟩ := h.of_resolves hS hm hk
    -- the path of the location has an extension, so that the CDN keeps it
    unfold Goal.immediate? at ha
    dsimp only at ha
    split at ha
    swap
    · exact absurd ha (by simp)
    next hext =>
    obtain rfl := Option.some.inj ha
    refine ⟨?_, fun k' hk' => ?_⟩
    · unfold canonical
      rw [← hfetch, ← hfetch']
      rcases hf : S.fetch k with e | f
      · simp [Except.bind, content, hf, Except.map]
      · obtain ⟨v, p, ho⟩ := hS.origin hk hf
        have hsame : (⟨k.pkg, v, p⟩ : Location) = k := by
          rw [ho.version he, ho.path (by simpa using hext)]
        have hread : readUrl S.base f.url = .ok k := by rw [readUrl, ho.final, hsame]
        show S.content k _ = (readUrl S.base f.url).bind _
        rw [hread]
        rfl
    · obtain rfl := Except.ok.inj hk'
      exact ⟨hk, hk.shaped he⟩

end Faithful

end BareImports.Build.Site
