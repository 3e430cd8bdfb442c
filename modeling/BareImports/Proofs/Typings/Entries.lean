import BareImports.Proofs.Typings.Versions

/-!
# How a reference of the project comes to a declaration file

* `versionIn S pkg range`, `declarationsOf S m l` : the version and the declaration file that a site has for a package;
* `Seeks S s m l stage` : a stage in which a reference to a whole package looks for its declaration file;
* `Leads S s m l t`, `Seeks.leads` : all that a turn makes of it;
* `Reads s l whole t`, `Acts.reads` : what a crawl does that reads a declaration file;
* `Held s` : what was taken over is a file that was asked for, or will be.
-/

namespace BareImports.Typings

open Cdn Location
open Build (Site)

/-! ## What a site has for a package -/

/-- The range in which a package is wanted: that of the specifier, or that of a manifest. -/
def rangeIn (m : Option Value) (l : Location) : String :=
  if l.version.isEmpty then (Manifest.range? m l.pkg).getD Location.defaultVersion else l.version

/-- The exact version that a site has for a range of a package. -/
def versionIn (S : Site) (pkg range : String) : Except Failure String :=
  if Version.isExact range then .ok range else (finalLocation S ⟨pkg, range, Manifest.fileName⟩).map (·.version)

/-- The declaration file that the manifest of a package version tells. -/
def entryOf (S : Site) (p : PackageVersion) : Except Failure Location :=
  (Session.readManifest (textAt S (manifestOf p))).map fun m => ⟨p.pkg, p.version, Manifest.declarations m⟩

/-- The declaration file that a site has for a package in the wanted range. -/
def declarationsOf (S : Site) (m : Option Value) (l : Location) : Except Failure Location := do
  let v ← versionIn S l.pkg (rangeIn m l)
  entryOf S ⟨l.pkg, v⟩

theorem declarationsOf_of_version {S : Site} {m : Option Value} {l : Location} {v : String}
    (h : versionIn S l.pkg (rangeIn m l) = .ok v) : declarationsOf S m l = entryOf S ⟨l.pkg, v⟩ := by
  unfold declarationsOf
  rw [h]
  rfl

theorem entryOf_eq_ok {S : Site} {p : PackageVersion} {e : Location} (h : entryOf S p = .ok e) :
    e.pkg = p.pkg ∧ e.version = p.version := by
  unfold entryOf at h
  rcases hr : Session.readManifest (textAt S (manifestOf p)) with f | m
  · rw [hr] at h
    exact absurd h (by simp [Except.map])
  · rw [hr] at h
    obtain rfl := Except.ok.inj h
    exact ⟨rfl, rfl⟩

theorem declarationsOf_pkg {S : Site} {m : Option Value} {l e : Location} (h : declarationsOf S m l = .ok e) :
    e.pkg = l.pkg := by
  rcases hv : versionIn S l.pkg (rangeIn m l) with f | v
  · unfold declarationsOf at h
    rw [hv] at h
    exact absurd h (by simp [bind, Except.bind])
  · rw [declarationsOf_of_version hv] at h
    exact (entryOf_eq_ok h).1

namespace Session

variable {S : Site} {s s' : Session} {c : Crawl} {t : Turn} {l k : Location} {m : Option Value} {i : Nat}
  {log : List Log.Entry}

/-! ## What is kept -/

theorem Does.map_eq {ev : Event} (hd : s.Does ev s') : s'.map = s.map := by
  cases hd with
  | turn ht =>
    obtain ⟨t, log, -, -, rfl⟩ := ht
    rfl
  | _ => rfl

theorem map_play (s : Session) (events : List Event) : (s.play events).map = s.map :=
  play_induction (P := fun _ s' => s'.map = s.map) rfl (fun _ _ h hd => hd.map_eq.trans h) events

/-- The project depends on some version of a package. -/
def Rooted (s : Session) (pkg : String) : Prop := ∃ v, s.roots.lookup pkg = some v

theorem lookup_roots_record {pkg v : String} (h : s.roots.lookup pkg = some v) (referrer : Option PackageVersion)
    (pkg' v' : String) : (s.record referrer pkg' v').roots.lookup pkg = some v := by
  cases referrer with
  | some r => rw [roots_record_some, h]
  | none =>
    rw [roots_record_none]
    split
    · rw [List.lookup_append, h]
      rfl
    · exact h

/-- What the project depends on stays. -/
theorem Does.lookup_roots {e : Event} {pkg v : String} (hd : s.Does e s') (h : s.roots.lookup pkg = some v) :
    s'.roots.lookup pkg = some v := by
  cases hd with
  | turn ht =>
    obtain ⟨t, log, -, -, rfl⟩ := ht
    show (s.recorded t).roots.lookup pkg = some v
    rcases s.recorded_cases t with hsame | ⟨l, -, hrecord⟩
    · rw [hsame, h]
    · rw [hrecord]
      exact lookup_roots_record h _ _ _
  | _ => exact h

theorem rooted_record (pkg v : String) : (s.record none pkg v).Rooted pkg := by
  unfold Rooted
  rw [roots_record_none]
  rcases h : s.roots.lookup pkg with _ | kept
  · refine ⟨v, ?_⟩
    rw [List.lookup_append, h]
    simp
  · exact ⟨kept, h⟩

/-! ## Looking for a declaration file -/

/-- A stage in which a reference to a whole package looks for its declaration file. -/
inductive Seeks (S : Site) (s : Session) (m : Option Value) (l : Location) : Stage → Prop
  /-- The specifier has not been looked at. -/
  | bare {specifier : String} (hm : s.map.resolve specifier = none) (hl : Location.parse? specifier.toList = some l) :
      Seeks S s m l (.bare specifier)
  /-- The manifest is to tell the range. -/
  | range (hv : l.version.isEmpty = true) : Seeks S s m l (.range l)
  /-- The CDN is to tell the exact version. -/
  | version {w : Wait} : Seeks S s m l (.version { l with version := rangeIn m l } w)
  /-- The package's own manifest is to tell the declaration file. -/
  | entry {v : String} (hv : versionIn S l.pkg (rangeIn m l) = .ok v) (hr : s.Rooted l.pkg) :
      Seeks S s m l (.entry { l with version := v })

theorem Seeks.mono {stage : Stage} (h : Seeks S s m l stage) (hmap : s'.map = s.map)
    (hroots : ∀ v, s.roots.lookup l.pkg = some v → s'.roots.lookup l.pkg = some v) : Seeks S s' m l stage := by
  cases h with
  | bare hm hl => exact .bare (by rw [hmap]; exact hm) hl
  | range hv => exact .range hv
  | version => exact .version
  | entry hv hr => exact .entry hv (hr.imp hroots)

theorem Seeks.asking {w : Wait} (h : k = { l with version := rangeIn m l }) : Seeks S s m l (.version k w) :=
  h ▸ .version

theorem Seeks.not_isOver (h : Seeks S s m l c.stage) : Crawl.isOver c = false := by
  unfold Crawl.isOver
  generalize c.stage = stage at h
  cases h <;> rfl

theorem isEmpty_of_isExact {v : String} (h : Version.isExact v = true) : v.isEmpty = false := by
  rw [← Bool.not_eq_true, String.isEmpty_iff]
  rintro rfl
  exact absurd h (by decide)

theorem rangeIn_of_nonempty (h : l.version.isEmpty = false) : rangeIn m l = l.version := by
  unfold rangeIn
  rw [h]
  rfl

theorem rangeIn_of_empty (h : l.version.isEmpty = true) :
    rangeIn m l = (Manifest.range? m l.pkg).getD Location.defaultVersion := by
  unfold rangeIn
  rw [if_pos h]

/-- What is known of a session in front of a site. -/
structure Clear (S : Site) (s : Session) : Prop where
  /-- It is sound. -/
  sound : s.Sound
  /-- Versions are exact, and the files are those of the site. -/
  mirrors : s.Mirrors S
  /-- Ranges are asked for by their manifests. -/
  asks : s.Asks

theorem clear_play (hS : Canonical S) (hS' : Settles S) {map : ImportMap} {url : String} (hb : S.base = withFinalSlash url)
    (events : List Event) (ha : AnsweredBy S (fresh map url) events) : Clear S ((fresh map url).play events) :=
  ⟨sound_play map url events, mirrors_play hS hb events ha, asks_play hS hS' hb events ha⟩

theorem Clear.known (h : Clear S s) {content : Option String} (hl : s.assets.lookup l = some (.known content)) :
    content = textAt S l := h.mirrors.known l content (Table.mem_of_lookup hl)

/-- The location that such a reference is told has the version that the site has. -/
theorem Seeks.told (h : Seeks S s m l c.stage) (hclear : Clear S s) (hS : Settles S) (hc : c ∈ s.crawls)
    (hm : c.manifest = .given m) (ht : s.told? c = some k) :
    k = { l with version := k.version } ∧ versionIn S l.pkg (rangeIn m l) = .ok k.version := by
  generalize hstage : c.stage = stage at h
  unfold told? at ht
  rw [hstage] at ht
  cases h with
  | bare hmap hl =>
    dsimp only at ht
    rw [hmap, if_neg (by simp), hl] at ht
    obtain ⟨hk, hx⟩ := Option.filter_eq_some_iff.1 ht
    obtain rfl := Option.some.inj hk
    refine ⟨rfl, ?_⟩
    rw [rangeIn_of_nonempty (isEmpty_of_isExact hx), versionIn, if_pos hx]
  | range hv =>
    dsimp only at ht
    rw [hm] at ht
    obtain ⟨hk, hx⟩ := Option.filter_eq_some_iff.1 ht
    obtain rfl := Option.some.inj hk
    refine ⟨rfl, ?_⟩
    rw [rangeIn_of_empty hv, versionIn, if_pos hx]
  | @version w =>
    dsimp only at ht
    split at ht
    · next exact hr =>
      obtain rfl := Option.some.inj ht
      refine ⟨rfl, ?_⟩
      have hasks := hclear.asks.crawls c hc
      rw [hstage] at hasks
      rw [versionIn, if_neg (by rw [hasks.1]; simp)]
      exact (hclear.asks.version hclear.mirrors hS hc hstage hr).symm
    · exact absurd ht (by simp)
  | entry => exact absurd ht (by simp)

/-- What a turn makes of a reference that looks for the declaration file of a package. -/
inductive Leads (S : Site) (s s' : Session) (m : Option Value) (l : Location) (t : Turn) : Prop
  /-- It goes on looking. -/
  | seeks (h : Seeks S s' m l t.after)
  /-- There is no version in the range. -/
  | unresolved {f : Failure} (hf : versionIn S l.pkg (rangeIn m l) = .error f)
      (ha : t.after = unresolvedStage { l with version := rangeIn m l } f)
  /-- The manifest cannot be read. -/
  | stumbled {v : String} {f : Failure} (hv : versionIn S l.pkg (rangeIn m l) = .ok v)
      (hf : declarationsOf S m l = .error f)
  /-- The declaration file was taken over before. -/
  | met {e : Location} (he : declarationsOf S m l = .ok e) (hr : s.Rooted l.pkg) (hh : e ∈ s.handled)
  /-- The declaration file is taken over. -/
  | declared {e : Location} (he : declarationsOf S m l = .ok e) (hr : s.Rooted l.pkg)
      (ha : t.after = .declaration e true) (hh : t.handled = some e)

/-- The declaration file that the manifest of a package version tells. -/
theorem Clear.entryOf (h : Clear S s) {content : Option String}
    (hl : s.assets.lookup (manifestOf ⟨k.pkg, k.version⟩) = some (.known content)) :
    Typings.entryOf S ⟨k.pkg, k.version⟩ =
      (readManifest content).map fun m => ⟨k.pkg, k.version, Manifest.declarations m⟩ := by
  rw [h.known hl]
  rfl

theorem Seeks.leads (h : Seeks S s m l t.before.stage) (i : Nat) (log : List Log.Entry) (hacts : s.Acts t)
    (hclear : Clear S s) (hS : Settles S) (hc : t.before ∈ s.crawls) (hm : t.before.manifest = .given m) (hreferrer : t.before.referrer = none)
    (hpath : l.path.isEmpty = true) : Leads S s (s.after i t log) m l t := by
  have hroots : ∀ v, s.roots.lookup l.pkg = some v → (s.after i t log).roots.lookup l.pkg = some v := by
    intro v hv
    show (s.recorded t).roots.lookup l.pkg = some v
    rcases s.recorded_cases t with hsame | ⟨k, -, hrecord⟩
    · rw [hsame, hv]
    · rw [hrecord]
      exact lookup_roots_record hv _ _ _
  have hstay : Seeks S (s.after i t log) m l t.before.stage := h.mono rfl hroots
  cases hacts with
  | ask => exact .seeks hstay
  | leave hstage hl =>
    rw [hstage] at h
    cases h with
    | bare hmap hparse => exact absurd (hl.resolve_left fun hne => hne hmap) (by simp [hparse])
  | seek hstage _ hl hv =>
    rw [hstage] at h
    cases h with
    | bare _ hparse =>
      obtain rfl := Option.some.inj (hl.symm.trans hparse)
      exact .seeks (.range hv)
  | stumble hstage hf =>
    dsimp only at hm
    rw [hm] at hf
    exact absurd (Option.some.inj hf) (by simp)
  | inquire hl hx =>
    refine .seeks ?_
    cases hl with
    | specifier hstage _ hl hv =>
      rw [hstage] at h
      cases h with
      | bare _ hparse =>
        obtain rfl : l = _ := Option.some.inj (hparse.symm.trans hl)
        exact .asking (by rw [rangeIn_of_nonempty hv])
    | manifest hstage hmanifest =>
      rw [hstage] at h
      cases h with
      | range hv =>
        dsimp only at hm
        rw [hm] at hmanifest
        obtain rfl := Except.ok.inj (Option.some.inj hmanifest)
        rw [← rangeIn_of_empty hv]
        exact .version
  | wait hstage hr =>
    rw [hstage] at h
    cases h with
    | version => exact .seeks .version
  | unresolved hstage hr =>
    have hstage' := hstage
    rw [hstage] at h
    cases h with
    | version =>
      refine .unresolved ?_ rfl
      have hasks := hclear.asks.crawls _ hc
      rw [hstage] at hasks
      rw [versionIn, if_neg (by rw [hasks.1]; simp)]
      exact (hclear.asks.version hclear.mirrors hS hc hstage hr).symm
  | @enter c k ht hp =>
    obtain ⟨hk, hv⟩ := h.told hclear hS hc hm ht
    have hrooted : (s.record c.referrer k.pkg k.version).Rooted l.pkg := by
      dsimp only at hreferrer
      rw [hreferrer, show l.pkg = k.pkg by rw [hk]]
      exact rooted_record _ _
    have hentry := Seeks.entry (S := S) (s := s.after i { before := c, after := .entry k, pinned := some k } log) hv hrooted
    rw [← hk] at hentry
    exact .seeks hentry
  | @meet c k ht hp | @declare c k ht hp =>
    obtain ⟨hk, -⟩ := h.told hclear hS hc hm ht
    rw [hk, hpath] at hp
    exact absurd hp (by simp)
  | @stumbleEntry c k content f hstage hl hread =>
    rw [hstage] at h
    cases h with
    | entry hv hr =>
      refine .stumbled (f := f) hv ?_
      rw [declarationsOf_of_version hv, hclear.entryOf hl, hread]
      rfl
  | meetEntry hstage hl hread hh =>
    rw [hstage] at h
    cases h with
    | entry hv hr =>
      refine .met (e := _) ?_ hr hh
      rw [declarationsOf_of_version hv, hclear.entryOf hl, hread]
      rfl
  | declareEntry hstage hl hread hh =>
    rw [hstage] at h
    cases h with
    | entry hv hr =>
      refine .declared (e := _) ?_ hr rfl rfl
      rw [declarationsOf_of_version hv, hclear.entryOf hl, hread]
      rfl
  | follow hstage | miss hstage | exhaust hstage | next hstage | meetRelative hstage | followRelative hstage =>
    rw [hstage] at h
    cases h

/-! ## What was taken over -/

/-- What was taken over is a file that was asked for, or one that a crawl is about to ask for. -/
def Held (s : Session) : Prop :=
  ∀ l ∈ s.handled, (∃ c ∈ s.crawls, ∃ whole, c.stage = .declaration l whole) ∨ l ∈ s.assets.map (·.1)

/-- The crawl that has a turn is there behind it, and all others are. -/
theorem mem_crawls_of_turn (log : List Log.Entry) (hb : s.crawls[i]? = some t.before) :
    { t.before with stage := t.after } ∈ (s.after i t log).crawls ∧
      ∀ c ∈ s.crawls, c = t.before ∨ c ∈ (s.after i t log).crawls := by
  have hlt : i < s.crawls.length := (List.getElem?_eq_some_iff.1 hb).1
  refine ⟨List.mem_append_left _ (List.mem_set hlt _), fun c hc => ?_⟩
  obtain ⟨j, hj⟩ := List.mem_iff_getElem?.1 hc
  by_cases hij : i = j
  · subst hij
    exact Or.inl (Option.some.inj (hj.symm.trans hb))
  · exact Or.inr (List.mem_append_left _ (List.mem_of_getElem? (by rw [List.getElem?_set_ne hij, hj])))

/-- What a crawl is that another one's turn leaves as it is. -/
theorem Does.crawls {ev : Event} (hd : s.Does ev s') (hc : c ∈ s.crawls) : c ∈ s'.crawls ∨
    ∃ i t log, s.Acts t ∧ s.crawls[i]? = some t.before ∧ s' = s.after i t log ∧ c = t.before := by
  cases hd with
  | turn ht =>
    obtain ⟨t, log, hacts, hb, rfl⟩ := ht
    exact ((mem_crawls_of_turn log hb).2 c hc).symm.imp_right fun h => ⟨_, t, log, hacts, hb, rfl, h⟩
  | add => exact Or.inl (List.mem_append_left _ hc)
  | _ => exact Or.inl hc

theorem Does.handled_subset {ev : Event} (hd : s.Does ev s') (hl : l ∈ s.handled) : l ∈ s'.handled := by
  cases hd with
  | turn ht =>
    obtain ⟨t, log, -, -, rfl⟩ := ht
    exact List.mem_append_right _ hl
  | _ => exact hl

/-- What a crawl does that reads a declaration file. -/
inductive Reads (s : Session) (l : Location) (whole : Bool) (t : Turn) : Prop
  /-- It asks for the file. -/
  | ask (hl : t.asked = some l) (ha : t.after = .declaration l whole)
  /-- It follows the references of the file. -/
  | follow {content : String} (hl : s.assets.lookup l = some (.known (some content)))
      (hs : t.spawned = (references content).map (Crawl.ofReference (some l) (.package ⟨l.pkg, l.version⟩)))
  /-- The file is not to be had. -/
  | miss (hl : s.assets.lookup l = some (.known none)) (ha : t.after = if whole then fallBackStage l.pkg else .ended none)

theorem Acts.reads {whole : Bool} (h : s.Acts t) (hstage : t.before.stage = .declaration l whole) : s.Reads l whole t := by
  cases h with
  | ask hw =>
    dsimp only at hstage
    simp only [Crawl.wants?, hstage, Option.some.injEq] at hw
    subst hw
    exact .ask rfl hstage
  | follow hc hl =>
    obtain ⟨rfl, rfl⟩ := Stage.declaration.inj (hstage.symm.trans hc)
    refine .follow hl ?_
    dsimp only
  | miss hc hl =>
    obtain ⟨rfl, rfl⟩ := Stage.declaration.inj (hstage.symm.trans hc)
    exact .miss hl rfl
  | inquire hl =>
    cases hl with
    | specifier hc | manifest hc => exact absurd (hstage.symm.trans hc) (by simp)
  | enter ht | meet ht | declare ht =>
    dsimp only at hstage
    exact absurd ht (by simp [told?, hstage])
  | leave hc | seek hc | stumble hc | wait hc | unresolved hc | stumbleEntry hc | meetEntry hc | declareEntry hc
  | exhaust hc | next hc | meetRelative hc | followRelative hc => exact absurd (hstage.symm.trans hc) (by simp)

/-- What is taken over in a turn: the file that the crawl is to read, or one that was fetched, whose references are followed. -/
theorem Acts.handled (h : s.Acts t) (hl : t.handled = some l) :
    (t.after = .declaration l false ∨ t.after = .declaration l true) ∨
      ∃ content manifest, s.assets.lookup l = some (.known (some content)) ∧
        t.spawned = (references content).map (Crawl.ofReference (some l) manifest) := by
  cases h with
  | declare =>
    obtain rfl := Option.some.inj hl
    exact Or.inl (Or.inl rfl)
  | declareEntry =>
    obtain rfl := Option.some.inj hl
    exact Or.inl (Or.inr rfl)
  | @followRelative c k rest content hc hk hh =>
    obtain rfl := Option.some.inj hl
    refine Or.inr ⟨content, c.manifest, hk, ?_⟩
    dsimp only
  | _ => exact absurd hl (by simp)

theorem Does.held {e : Event} (hd : s.Does e s') (h : s.Held) : s'.Held := by
  cases hd with
  | rest => exact h
  | answer n a => exact h
  | @load j k w log hj =>
    intro l hl
    refine (h l hl).imp_right fun hmem => ?_
    have hsame : (s.assets.set j (k, Asset.ofStatus (s.cache.resume .file w).2)).map (·.1) = s.assets.map (·.1) := by
      rw [List.map_set]
      exact set_eq_self (by rw [List.getElem?_map, hj]; rfl)
    rw [hsame]
    exact hmem
  | add _ hr =>
    intro l hl
    exact (h l hl).imp_left fun ⟨c, hc, hstage⟩ => ⟨c, List.mem_append_left _ hc, hstage⟩
  | turn ht =>
    obtain ⟨t, log, hacts, hb, rfl⟩ := ht
    obtain ⟨hnew, hold⟩ := mem_crawls_of_turn log hb
    have hassets : ∀ {l : Location}, l ∈ s.assets.map (·.1) →
        l ∈ (s.assets ++ t.asked.toList.map fun l => (l, Asset.loading (.turn l))).map (·.1) := fun {l} hl => by
      rw [List.map_append]
      exact List.mem_append_left _ hl
    intro l hl
    rcases List.mem_append.1 hl with hl | hl
    · rcases hacts.handled (Option.mem_toList.1 hl) with (hafter | hafter) | ⟨content, manifest, hk, -⟩
      · exact Or.inl ⟨_, hnew, false, hafter⟩
      · exact Or.inl ⟨_, hnew, true, hafter⟩
      · exact Or.inr (hassets (List.mem_map_of_mem (f := (·.1)) (Table.mem_of_lookup hk)))
    · rcases h l hl with ⟨c, hc, whole, hstage⟩ | hmem
      · rcases hold c hc with rfl | hc'
        · cases hacts.reads hstage with
          | ask hasked =>
            refine Or.inr ?_
            show l ∈ (s.assets ++ t.asked.toList.map fun l => (l, Asset.loading (.turn l))).map (·.1)
            rw [hasked]
            simp
          | follow hk | miss hk => exact Or.inr (hassets (List.mem_map_of_mem (f := (·.1)) (Table.mem_of_lookup hk)))
        · exact Or.inl ⟨c, hc', whole, hstage⟩
      · exact Or.inr (hassets hmem)

theorem held_play (map : ImportMap) (url : String) (events : List Event) : ((fresh map url).play events).Held :=
  play_induction (P := fun _ s => s.Held) (by simp [Held, fresh]) (fun _ _ h hd => hd.held h) events

/-- When nothing is left to do, what was taken over is known. -/
theorem Held.known (h : s.Held) (hover : s.isOver = true) (hl : l ∈ s.handled) :
    ∃ content, (l, .known content) ∈ s.assets := by
  unfold isOver at hover
  rw [Bool.and_eq_true, List.all_eq_true, Bool.not_eq_true', List.any_eq_false] at hover
  rcases h l hl with ⟨c, hc, whole, hstage⟩ | hmem
  · have hdone := hover.1 c hc
    rw [Crawl.isOver, hstage] at hdone
    exact absurd hdone (by simp)
  · obtain ⟨⟨k, a⟩, he, rfl⟩ := List.mem_map.1 hmem
    cases a with
    | known content => exact ⟨content, he⟩
    | loading w => exact absurd rfl (hover.2 _ he)

end Session

end BareImports.Typings
