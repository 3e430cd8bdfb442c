import BareImports.Proofs.Placement.Layout
import BareImports.Proofs.Table
import BareImports.Proofs.Typings.Turn

/-!
# The package versions that a session is about

* `Crawl.packages c` : the package versions that a crawl is about; a turn adds none but the one that it keeps
  (`Acts.packages`);
* `Within Q s` : all crawls and files are about package versions with property `Q` (`Does.within`);
* `Listed s name`, `Distinct s` : the names of the versions that are kept, which are distinct in each place
  (`roots_record_none`, `dependencies_record`).
-/

namespace BareImports

namespace Typings

open Cdn

/-! ## Package versions -/

/-- The package version that a location is in. -/
def packageOf (l : Location) : PackageVersion := ⟨l.pkg, l.version⟩

/-- The locations of a stage behind the pinning of their version. -/
def Stage.locations : Stage → List Location
  | .entry l | .declaration l _ => [l]
  | .relative found => found
  | _ => []

/-- The package version whose manifest tells ranges. -/
def ManifestSource.package? : ManifestSource → Option PackageVersion
  | .given _ => none
  | .package p => some p

/-- The package versions that a crawl is about. -/
def Crawl.packages (c : Crawl) : List PackageVersion :=
  c.stage.locations.map packageOf ++ c.manifest.package?.toList ++ c.referrer.toList

section Packages

variable {s : Session} {t : Turn} {c : Crawl} {l : Location} {p : PackageVersion}

theorem mem_packages : p ∈ c.packages ↔
    (∃ l ∈ c.stage.locations, packageOf l = p) ∨ c.manifest.package? = some p ∨ c.referrer = some p := by
  unfold Crawl.packages
  rw [List.mem_append, List.mem_append, List.mem_map, Option.mem_toList, Option.mem_toList, or_assoc]

theorem locations_fallBackStage (pkg : String) : (fallBackStage pkg).locations = [] := by
  unfold fallBackStage
  split <;> rfl

theorem locations_unresolvedStage (l : Location) (f : Failure) : (unresolvedStage l f).locations = [] := by
  unfold unresolvedStage
  split
  · rfl
  · split
    · exact locations_fallBackStage _
    · rfl

/-- A crawl that goes on elsewhere is about the same package versions but those of its new place. -/
theorem mem_packages_become {stage : Stage} (h : p ∈ ({ c with stage } : Crawl).packages) :
    p ∈ c.packages ∨ ∃ l ∈ stage.locations, packageOf l = p := by
  rcases mem_packages.1 h with h | h | h
  · exact Or.inr h
  · exact Or.inl (mem_packages.2 (Or.inr (Or.inl h)))
  · exact Or.inl (mem_packages.2 (Or.inr (Or.inr h)))

theorem mem_packages_wants (h : c.wants? = some l) : packageOf l ∈ c.packages := by
  unfold Crawl.wants? at h
  split at h
  · next p _ hm =>
    obtain rfl := Option.some.inj h
    exact mem_packages.2 (Or.inr (Or.inl (by rw [hm]; rfl)))
  · next k hc =>
    obtain rfl := Option.some.inj h
    exact mem_packages.2 (Or.inl ⟨k, by rw [hc]; simp [Stage.locations], rfl⟩)
  · next k _ hc =>
    obtain rfl := Option.some.inj h
    exact mem_packages.2 (Or.inl ⟨k, by rw [hc]; simp [Stage.locations], rfl⟩)
  · next k _ hc =>
    obtain rfl := Option.some.inj h
    exact mem_packages.2 (Or.inl ⟨k, by rw [hc]; simp [Stage.locations], rfl⟩)
  · exact absurd h (by simp)

theorem packageOf_locate? {reference : List Char} {k : Location} (h : locate? l reference = some k) :
    packageOf k = packageOf l := by
  unfold locate? at h
  obtain ⟨path, -, rfl⟩ := Option.map_eq_some_iff.1 h
  rfl

/-- A crawl for a reference of a file is about the package version of the file, and that of the manifest. -/
theorem mem_packages_ofReference {manifest : ManifestSource} {r : Reference}
    (h : p ∈ (Session.Crawl.ofReference (some l) manifest r).packages) : p = packageOf l ∨ manifest.package? = some p := by
  rcases mem_packages.1 h with ⟨k, hk, rfl⟩ | h | h
  · cases r with
    | bare specifier => exact absurd hk (by simp [Session.Crawl.ofReference, Stage.locations])
    | lib name => exact absurd hk (by simp [Session.Crawl.ofReference, Stage.locations])
    | relative reference =>
      have hfound : k ∈ (candidates reference.toList).filterMap (locate? l) := by
        simpa [Session.Crawl.ofReference, Stage.locations] using hk
      obtain ⟨candidate, -, hlocate⟩ := List.mem_filterMap.1 hfound
      exact Or.inl (packageOf_locate? hlocate)
  · refine Or.inr ?_
    cases r <;> exact h
  · cases r with
    | bare specifier => exact Or.inl (Option.some.inj h).symm
    | lib name => exact absurd h (by simp [Session.Crawl.ofReference])
    | relative reference => exact absurd h (by simp [Session.Crawl.ofReference])

/-- A crawl for a reference of the project is about no package version. -/
theorem packages_ofReference_none {manifest : Option Value} {r : Reference} (hr : r.isForeign = true) :
    (Session.Crawl.ofReference none (.given manifest) r).packages = [] := by
  cases r with
  | bare specifier => rfl
  | lib name => rfl
  | relative reference => exact absurd hr (by simp [Reference.isForeign])

namespace Session

/-- A crawl that is added is one for a reference. -/
theorem exists_of_mem_spawned {content : String} {manifest : ManifestSource}
    (h : c ∈ (references content).map (Crawl.ofReference (some l) manifest)) :
    ∃ r, c = Crawl.ofReference (some l) manifest r := by
  obtain ⟨r, -, rfl⟩ := List.mem_map.1 h
  exact ⟨r, rfl⟩

/-- Behind a turn a crawl is about the same package versions, and about the one that is kept. -/
theorem Acts.packages (h : s.Acts t) (hc : c = { t.before with stage := t.after } ∨ c ∈ t.spawned) (hp : p ∈ c.packages) :
    p ∈ t.before.packages ∨ ∃ l, t.pinned = some l ∧ packageOf l = p := by
  -- a stage with a location that the crawl has not, or with one in the same package
  have hstay : ∀ stage : Stage, stage.locations = [] → c = { t.before with stage } → p ∈ t.before.packages := by
    rintro stage hnone rfl
    rcases mem_packages_become hp with h | ⟨l, hl, -⟩
    · exact h
    · rw [hnone] at hl
      exact absurd hl (by simp)
  have hhere : ∀ l m : Location, t.before.stage.locations = [l] → packageOf m = packageOf l →
      packageOf m ∈ t.before.packages := by
    intro l m hl hm
    exact mem_packages.2 (Or.inl ⟨l, by rw [hl]; simp, hm.symm⟩)
  cases h with
  | ask hw hl =>
    obtain rfl := hc.resolve_right (by simp)
    exact Or.inl hp
  | leave => exact Or.inl (hstay _ rfl (hc.resolve_right (by simp)))
  | seek => exact Or.inl (hstay _ rfl (hc.resolve_right (by simp)))
  | stumble => exact Or.inl (hstay _ rfl (hc.resolve_right (by simp)))
  | stumbleEntry => exact Or.inl (hstay _ rfl (hc.resolve_right (by simp)))
  | inquire => exact Or.inl (hstay _ rfl (hc.resolve_right (by simp)))
  | wait => exact Or.inl (hstay _ rfl (hc.resolve_right (by simp)))
  | unresolved => exact Or.inl (hstay _ (locations_unresolvedStage _ _) (hc.resolve_right (by simp)))
  | meet => exact Or.inl (hstay _ rfl (hc.resolve_right (by simp)))
  | meetEntry => exact Or.inl (hstay _ rfl (hc.resolve_right (by simp)))
  | exhaust => exact Or.inl (hstay _ rfl (hc.resolve_right (by simp)))
  | meetRelative => exact Or.inl (hstay _ rfl (hc.resolve_right (by simp)))
  | @miss c l whole _ _ =>
    refine Or.inl (hstay _ ?_ (hc.resolve_right (by simp)))
    cases whole
    · rfl
    · exact locations_fallBackStage l.pkg
  | @enter c l ht hpath =>
    obtain rfl := hc.resolve_right (by simp)
    rcases mem_packages_become hp with h | ⟨k, hk, rfl⟩
    · exact Or.inl h
    · exact Or.inr ⟨l, rfl, by rw [List.mem_singleton.1 hk]⟩
  | @declare c l ht hpath hh =>
    obtain rfl := hc.resolve_right (by simp)
    rcases mem_packages_become hp with h | ⟨k, hk, rfl⟩
    · exact Or.inl h
    · refine Or.inr ⟨l, rfl, ?_⟩
      rw [List.mem_singleton.1 hk]
      rfl
  | @declareEntry c l content m hstage =>
    obtain rfl := hc.resolve_right (by simp)
    rcases mem_packages_become hp with h | ⟨k, hk, rfl⟩
    · exact Or.inl h
    · rw [List.mem_singleton.1 hk]
      exact Or.inl (hhere l _ (by rw [hstage]; rfl) rfl)
  | @next c l rest hstage hl =>
    obtain rfl := hc.resolve_right (by simp)
    rcases mem_packages_become hp with h | ⟨k, hk, rfl⟩
    · exact Or.inl h
    · refine Or.inl (mem_packages.2 (Or.inl ⟨k, ?_, rfl⟩))
      rw [hstage]
      exact List.mem_cons_of_mem l hk
  | @follow c l whole content hstage hl =>
    rcases hc with hc | hc
    · exact Or.inl (hstay _ rfl hc)
    · dsimp only at hc
      obtain ⟨r, hc⟩ := exists_of_mem_spawned hc
      have hmem := hhere l l (by rw [hstage]; rfl) rfl
      rw [hc] at hp
      rcases mem_packages_ofReference hp with hown | hmanifest
      · exact Or.inl (hown ▸ hmem)
      · exact Or.inl (Option.some.inj hmanifest ▸ hmem)
  | @followRelative c l rest content hstage hl hh =>
    rcases hc with hc | hc
    · exact Or.inl (hstay _ rfl hc)
    · dsimp only at hc
      obtain ⟨r, hc⟩ := exists_of_mem_spawned hc
      rw [hc] at hp
      rcases mem_packages_ofReference hp with rfl | h
      · exact Or.inl (mem_packages.2 (Or.inl ⟨l, by rw [hstage]; exact List.mem_cons_self, rfl⟩))
      · exact Or.inl (mem_packages.2 (Or.inr (Or.inl h)))

theorem Acts.asked (h : s.Acts t) {l : Location} (hl : t.asked = some l) :
    t.before.wants? = some l ∧ s.assets.lookup l = none := by
  cases h with
  | ask hw hnone =>
    obtain rfl := Option.some.inj hl
    exact ⟨hw, hnone⟩
  | _ => exact absurd hl (by simp)

theorem Acts.pinned (h : s.Acts t) {l : Location} (hl : t.pinned = some l) : s.told? t.before = some l := by
  cases h with
  | enter ht => exact Option.some.inj hl ▸ ht
  | meet ht => exact Option.some.inj hl ▸ ht
  | declare ht => exact Option.some.inj hl ▸ ht
  | _ => exact absurd hl (by simp)

/-- The version that an event finds out, with the package version whose reference asks for it. -/
def pin? (s : Session) : Event → Option (Option PackageVersion × Location)
  | .move (.crawl i) => (s.crawls[i]?).bind fun c => (s.told? c).map fun l => (c.referrer, l)
  | _ => none

theorem pin?_turn {i : Nat} (hb : s.crawls[i]? = some t.before) (h : s.Acts t) {l : Location} (hl : t.pinned = some l) :
    s.pin? (.move (.crawl i)) = some (t.before.referrer, l) := by
  show ((s.crawls[i]?).bind fun c => (s.told? c).map fun l => (c.referrer, l)) = _
  rw [hb, Option.bind_some, h.pinned hl]
  rfl

/-- All crawls and files are about package versions with some property. -/
structure Within (Q : PackageVersion → Prop) (s : Session) : Prop where
  /-- The crawls. -/
  crawls : ∀ c ∈ s.crawls, ∀ p ∈ c.packages, Q p
  /-- The files. -/
  assets : ∀ e ∈ s.assets, Q (packageOf e.1)

theorem mem_crawls_after {i : Nat} {log : List Log.Entry} (h : c ∈ (s.after i t log).crawls) :
    c ∈ s.crawls ∨ c = { t.before with stage := t.after } ∨ c ∈ t.spawned := by
  rcases List.mem_append.1 h with h | h
  · exact (List.mem_or_eq_of_mem_set h).imp_right Or.inl
  · exact Or.inr (Or.inr h)

theorem mem_assets_after {i : Nat} {log : List Log.Entry} {e : Location × Asset} (h : e ∈ (s.after i t log).assets) :
    e ∈ s.assets ∨ ∃ l, t.asked = some l ∧ e = (l, .loading (.turn l)) := by
  rcases List.mem_append.1 h with h | h
  · exact Or.inl h
  · obtain ⟨l, hl, rfl⟩ := List.mem_map.1 h
    exact Or.inr ⟨l, Option.mem_toList.1 hl, rfl⟩

/-- Behind a turn the session is about the same package versions, and about the one that is kept. -/
theorem Acts.within {Q : PackageVersion → Prop} {i : Nat} (ha : s.Acts t) (hb : s.crawls[i]? = some t.before)
    (hs : s.Within Q) (hpin : ∀ l, t.pinned = some l → Q (packageOf l)) (log : List Log.Entry) :
    (s.after i t log).Within Q := by
  have hbefore := hs.crawls _ (List.mem_of_getElem? hb)
  refine ⟨fun c hc p hp => ?_, fun e he => ?_⟩
  · rcases mem_crawls_after hc with hc | hc
    · exact hs.crawls c hc p hp
    · rcases ha.packages hc hp with hp | ⟨l, hl, rfl⟩
      · exact hbefore p hp
      · exact hpin l hl
  · rcases mem_assets_after he with he | ⟨l, hl, rfl⟩
    · exact hs.assets e he
    · exact hbefore _ (mem_packages_wants (ha.asked hl).1)

theorem Does.within {Q : PackageVersion → Prop} {s' : Session} {e : Event} (h : s.Does e s') (hs : s.Within Q)
    (hpin : ∀ r l, s.pin? e = some (r, l) → Q (packageOf l)) : s'.Within Q := by
  cases h with
  | rest => exact hs
  | answer n a => exact ⟨hs.crawls, hs.assets⟩
  | load log hj =>
    refine ⟨hs.crawls, fun e he => ?_⟩
    rcases List.mem_or_eq_of_mem_set he with he | rfl
    · exact hs.assets e he
    · exact hs.assets (_, .loading _) (List.mem_of_getElem? hj)
  | add _ hr =>
    refine ⟨fun c hc p hp => ?_, hs.assets⟩
    rcases List.mem_append.1 hc with hc | hc
    · exact hs.crawls c hc p hp
    · obtain ⟨r, hmem, rfl⟩ := List.mem_map.1 hc
      rw [packages_ofReference_none (hr r hmem)] at hp
      exact absurd hp (by simp)
  | turn h =>
    obtain ⟨t, log, ha, hb, rfl⟩ := h
    exact ha.within hb hs (fun l hl => hpin _ l (pin?_turn hb ha hl)) log

/-! ## Versions that are kept -/

theorem roots_record_some (r : PackageVersion) (pkg version : String) :
    (s.record (some r) pkg version).roots = s.roots := by
  unfold record
  split
  · next h => exact absurd h (by simp)
  · split <;> rfl

theorem graph_record_none (pkg version : String) : (s.record none pkg version).graph = s.graph := by
  simp only [record]
  split
  · rfl
  · split <;> rfl

/-- The first version of a package that the project depends on is kept. -/
theorem roots_record_none (pkg version : String) : (s.record none pkg version).roots =
    match s.roots.lookup pkg with
    | none => s.roots ++ [(pkg, version)]
    | some _ => s.roots := by
  rcases hkept : s.roots.lookup pkg with _ | kept
  · simp [record, hkept]
  · by_cases hsame : kept = version
    · simp [record, hkept, hsame]
    · simp [record, hkept, hsame, note]

/-- The last version of a dependency is kept, unless it is the package itself. -/
theorem dependencies_record (r : PackageVersion) (pkg version p v : String) :
    (s.record (some r) pkg version).graph.dependencies p v =
      if r.pkg ≠ pkg ∧ p = r.pkg ∧ v = r.version then Table.put (s.graph.dependencies p v) pkg version
      else s.graph.dependencies p v := by
  by_cases hself : r.pkg = pkg
  · rw [if_neg fun h => h.1 hself]
    simp only [record, beq_iff_eq, hself, if_true]
  · have hgraph : (s.record (some r) pkg version).graph = Table.update r.pkg (fun versions =>
        Table.update r.version (fun deps => Table.put (deps.getD []) pkg version) (versions.getD [])) s.graph := by
      simp only [record, beq_iff_eq, hself, if_false]
    rw [hgraph]
    unfold Graph.dependencies
    rw [Table.lookup_update]
    by_cases hp : p = r.pkg
    · rw [if_pos (by simpa using hp), Option.bind_some, Table.lookup_update, hp]
      by_cases hv : v = r.version
      · rw [if_pos (by simpa using hv), if_pos ⟨hself, rfl, hv⟩, Option.getD_some, hv]
        cases List.lookup r.pkg s.graph <;> rfl
      · rw [if_neg (by simpa using hv), if_neg fun h => hv h.2.2]
        cases List.lookup r.pkg s.graph <;> rfl
    · rw [if_neg (by simpa using hp), if_neg fun h => hp h.2.1]

/-- The names of what is kept. -/
def Listed (s : Session) (name : String) : Prop :=
  name ∈ s.roots.map (·.1) ∨ ∃ pkg version, name ∈ (s.graph.dependencies pkg version).map (·.1)

/-- What is kept has distinct names in each place. -/
structure Distinct (s : Session) : Prop where
  /-- What the project depends on. -/
  roots : (s.roots.map (·.1)).Nodup
  /-- What package versions depend on. -/
  graph : Layout.DistinctNames s.graph

theorem Listed.record {referrer : Option PackageVersion} {pkg version name : String}
    (h : (s.record referrer pkg version).Listed name) : name = pkg ∨ s.Listed name := by
  rcases referrer with _ | r
  · rcases h with h | h
    · rw [roots_record_none] at h
      split at h
      · rw [List.map_append, List.mem_append] at h
        rcases h with h | h
        · exact Or.inr (Or.inl h)
        · exact Or.inl (by simpa using h)
      · exact Or.inr (Or.inl h)
    · rw [graph_record_none] at h
      exact Or.inr (Or.inr h)
  · rcases h with h | ⟨p, v, h⟩
    · rw [roots_record_some] at h
      exact Or.inr (Or.inl h)
    · rw [dependencies_record] at h
      split at h
      · obtain ⟨e, he, rfl⟩ := List.mem_map.1 h
        rcases Table.mem_put he with rfl | he
        · exact Or.inl rfl
        · exact Or.inr (Or.inr ⟨p, v, List.mem_map_of_mem he⟩)
      · exact Or.inr (Or.inr ⟨p, v, h⟩)

theorem Distinct.record (h : s.Distinct) (referrer : Option PackageVersion) (pkg version : String) :
    (s.record referrer pkg version).Distinct := by
  rcases referrer with _ | r
  · refine ⟨?_, by rw [graph_record_none]; exact h.graph⟩
    rw [roots_record_none]
    split
    · next hnone =>
      rw [List.map_append, List.nodup_append]
      refine ⟨h.roots, by simp, fun a ha b hb hab => ?_⟩
      obtain ⟨e, he, rfl⟩ := List.mem_map.1 ha
      obtain rfl : b = pkg := by simpa using hb
      exact absurd (List.lookup_eq_none_iff.1 hnone e he) (by simp [hab])
    · exact h.roots
  · refine ⟨by rw [roots_record_some]; exact h.roots, fun p v => ?_⟩
    rw [dependencies_record]
    split
    · exact Table.nodup_put (h.graph p v) pkg version
    · exact h.graph p v

end Session

end Packages

end Typings

end BareImports
