import BareImports.Proofs.Cdn.Rounds
import BareImports.Typings.Session
import Mathlib.Data.List.Induction

/-!
# What a move of the crawling does

* `Session.told? s c` : the location with an exact version that a crawl is told next;
* `Turn`, `Session.after s i t` : what one crawl does, and the state behind it;
* `Acts s t` : all turns that a crawl of `s` may have;
* `Event`, `Session.play` : the references of sources and libraries, and moves, in any order; `take_source`, `take_lib`;
* `Does s e s'`, `take_cases` : all that an event does.
-/

namespace BareImports.Typings

open Text Cdn

instance : LawfulBEq Location where
  eq_of_beq {l m} h := by
    obtain ⟨p, v, q⟩ := l
    obtain ⟨p', v', q'⟩ := m
    have hparts : (p == p' && (v == v' && q == q')) = true := h
    simp only [Bool.and_eq_true, beq_iff_eq] at hparts
    obtain ⟨rfl, rfl, rfl⟩ := hparts
    rfl
  rfl {l} := by
    obtain ⟨p, v, q⟩ := l
    show (p == p && (v == v && q == q)) = true
    simp

/-! ## Turns -/

/-- The manifest of a package version. -/
def manifestOf (p : PackageVersion) : Location := ⟨p.pkg, p.version, Manifest.fileName⟩

/-- The declaration file that a location with a path means. -/
def declared (l : Location) : Location := { l with path := String.ofList (Manifest.toDeclaration l.path.toList) }

/-- The file that a crawl needs next. -/
def Crawl.wants? (c : Crawl) : Option Location :=
  match c.stage, c.manifest with
  | .range _, .package p => some (manifestOf p)
  | .entry l, _ => some (manifestOf ⟨l.pkg, l.version⟩)
  | .declaration l _, _ => some l
  | .relative (l :: _), _ => some l
  | _, _ => none

/-- Where a crawl goes on when a package has no declarations of its own. -/
def fallBackStage (pkg : String) : Stage :=
  if startsWith typesScope pkg.toList then .ended none else .bare (typesPackage pkg)

/-- Where a crawl goes on when no exact version of a package is found. -/
def unresolvedStage (l : Location) (f : Failure) : Stage :=
  if !f.isExpected then .ended (some f)
  else if l.path.isEmpty then fallBackStage l.pkg
  else .ended none

/-- The state of a file whose fetching has gone on. -/
def Asset.ofStatus : Status .file → Asset
  | .waiting w => .loading w
  | .done r => .known (r.toOption.map (·.content))

/-- What a crawl does in one turn. -/
structure Turn where
  /-- What it was. -/
  before : Crawl
  /-- Where it goes on. -/
  after : Stage
  /-- The file that it asks for. -/
  asked : Option Location := none
  /-- The location of which it keeps the version. -/
  pinned : Option Location := none
  /-- The declaration file that it takes over. -/
  handled : Option Location := none
  /-- The crawls that it adds. -/
  spawned : List Crawl := []

namespace Session

/-- The location with an exact version that a crawl is told next. -/
def told? (s : Session) (c : Crawl) : Option Location :=
  match c.stage with
  | .bare specifier =>
    if (s.map.resolve specifier).isSome then none
    else (Location.parse? specifier.toList).filter fun l => Version.isExact l.version
  | .range l => match (s.rangeManifest c.manifest).2 with
    | some (.ok m) =>
      some { l with version := (Manifest.range? m l.pkg).getD Location.defaultVersion } |>.filter fun l =>
        Version.isExact l.version
    | _ => none
  | .version l w => match (s.cache.resume .location w).2 with
    | .done (.ok exact) => some { l with version := exact.version }
    | _ => none
  | _ => none

/-- The cache behind a turn. -/
def heard (s : Session) (c : Crawl) : Cache :=
  match c.stage with
  | .version _ w => (s.cache.resume .location w).1
  | _ => s.cache

/-- The versions that are kept behind a turn. -/
def recorded (s : Session) (t : Turn) : Session := t.pinned.elim s fun l => s.record t.before.referrer l.pkg l.version

/-- The state behind a turn. -/
def after (s : Session) (i : Nat) (t : Turn) (log : List Log.Entry) : Session where
  map := s.map
  cache := s.heard t.before
  crawls := s.crawls.set i { t.before with stage := t.after } ++ t.spawned
  handled := t.handled.toList ++ s.handled
  assets := s.assets ++ t.asked.toList.map fun l => (l, .loading (.turn l))
  roots := (s.recorded t).roots
  graph := (s.recorded t).graph
  log := log

/-- A location is told without its exact version: by the specifier itself, or by a manifest. -/
inductive Ranged (s : Session) (c : Crawl) : Location → Prop
  /-- By the specifier. -/
  | specifier {specifier : String} {l : Location} (hc : c.stage = .bare specifier)
      (hm : s.map.resolve specifier = none) (hl : Location.parse? specifier.toList = some l)
      (hv : l.version.isEmpty = false) : Ranged s c l
  /-- By a manifest. -/
  | manifest {l : Location} {m : Option Value} (hc : c.stage = .range l)
      (hm : (s.rangeManifest c.manifest).2 = some (.ok m)) :
      Ranged s c { l with version := (Manifest.range? m l.pkg).getD Location.defaultVersion }

/-- The turns that a crawl may have. -/
inductive Acts (s : Session) : Turn → Prop
  /-- A file is asked for. -/
  | ask {c : Crawl} {l : Location} (hw : c.wants? = some l) (hl : s.assets.lookup l = none) :
      Acts s { before := c, after := c.stage, asked := some l }
  /-- A specifier is mapped, or it names no file of a package. -/
  | leave {c : Crawl} {specifier : String} (hc : c.stage = .bare specifier)
      (hl : s.map.resolve specifier ≠ none ∨ Location.parse? specifier.toList = none) :
      Acts s { before := c, after := .ended none }
  /-- The range of a package is to be found. -/
  | seek {c : Crawl} {specifier : String} {l : Location} (hc : c.stage = .bare specifier)
      (hm : s.map.resolve specifier = none) (hl : Location.parse? specifier.toList = some l)
      (hv : l.version.isEmpty = true) : Acts s { before := c, after := .range l }
  /-- The manifest that tells ranges cannot be read. -/
  | stumble {c : Crawl} {l : Location} {f : Failure} (hc : c.stage = .range l)
      (hm : (s.rangeManifest c.manifest).2 = some (.error f)) : Acts s { before := c, after := .ended (some f) }
  /-- The CDN is to tell the exact version. -/
  | inquire {c : Crawl} {l : Location} (hl : Ranged s c l) (hx : Version.isExact l.version = false) :
      Acts s { before := c, after := .version l (.turn { l with path := Manifest.fileName }) }
  /-- The CDN is waited for. -/
  | wait {c : Crawl} {l : Location} {w w' : Wait} (hc : c.stage = .version l w)
      (hr : (s.cache.resume .location w).2 = .waiting w') : Acts s { before := c, after := .version l w' }
  /-- No exact version is found. -/
  | unresolved {c : Crawl} {l : Location} {w : Wait} {f : Failure} (hc : c.stage = .version l w)
      (hr : (s.cache.resume .location w).2 = .done (.error f)) : Acts s { before := c, after := unresolvedStage l f }
  /-- A package is entered. -/
  | enter {c : Crawl} {l : Location} (ht : s.told? c = some l) (hp : l.path.isEmpty = true) :
      Acts s { before := c, after := .entry l, pinned := some l }
  /-- A file of a package was taken over before. -/
  | meet {c : Crawl} {l : Location} (ht : s.told? c = some l) (hp : l.path.isEmpty = false)
      (hh : declared l ∈ s.handled) : Acts s { before := c, after := .ended none, pinned := some l }
  /-- A file of a package is taken over. -/
  | declare {c : Crawl} {l : Location} (ht : s.told? c = some l) (hp : l.path.isEmpty = false)
      (hh : declared l ∉ s.handled) :
      Acts s { before := c, after := .declaration (declared l) false, pinned := some l, handled := some (declared l) }
  /-- The package's own manifest cannot be read. -/
  | stumbleEntry {c : Crawl} {l : Location} {content : Option String} {f : Failure} (hc : c.stage = .entry l)
      (hl : s.assets.lookup (manifestOf ⟨l.pkg, l.version⟩) = some (.known content))
      (hm : readManifest content = .error f) : Acts s { before := c, after := .ended (some f) }
  /-- The declaration file of a package was taken over before. -/
  | meetEntry {c : Crawl} {l : Location} {content : Option String} {m : Option Value} (hc : c.stage = .entry l)
      (hl : s.assets.lookup (manifestOf ⟨l.pkg, l.version⟩) = some (.known content))
      (hm : readManifest content = .ok m) (hh : { l with path := Manifest.declarations m } ∈ s.handled) :
      Acts s { before := c, after := .ended none }
  /-- The declaration file of a package is taken over. -/
  | declareEntry {c : Crawl} {l : Location} {content : Option String} {m : Option Value} (hc : c.stage = .entry l)
      (hl : s.assets.lookup (manifestOf ⟨l.pkg, l.version⟩) = some (.known content))
      (hm : readManifest content = .ok m) (hh : { l with path := Manifest.declarations m } ∉ s.handled) :
      Acts s { before := c, after := .declaration { l with path := Manifest.declarations m } true,
               handled := some { l with path := Manifest.declarations m } }
  /-- The references of a declaration file are followed. -/
  | follow {c : Crawl} {l : Location} {whole : Bool} {content : String} (hc : c.stage = .declaration l whole)
      (hl : s.assets.lookup l = some (.known (some content))) :
      Acts s { before := c, after := .ended none
               spawned := (references content).map (Crawl.ofReference (some l) (.package ⟨l.pkg, l.version⟩)) }
  /-- A declaration file is not to be had. -/
  | miss {c : Crawl} {l : Location} {whole : Bool} (hc : c.stage = .declaration l whole)
      (hl : s.assets.lookup l = some (.known none)) :
      Acts s { before := c, after := if whole then fallBackStage l.pkg else .ended none }
  /-- No file is left that a relative reference may mean. -/
  | exhaust {c : Crawl} (hc : c.stage = .relative []) : Acts s { before := c, after := .ended none }
  /-- The next file is tried that a relative reference may mean. -/
  | next {c : Crawl} {l : Location} {rest : List Location} (hc : c.stage = .relative (l :: rest))
      (hl : s.assets.lookup l = some (.known none)) : Acts s { before := c, after := .relative rest }
  /-- The file that a relative reference means was taken over before. -/
  | meetRelative {c : Crawl} {l : Location} {rest : List Location} {content : String}
      (hc : c.stage = .relative (l :: rest)) (hl : s.assets.lookup l = some (.known (some content)))
      (hh : l ∈ s.handled) : Acts s { before := c, after := .ended none }
  /-- The file that a relative reference means is taken over, and its references are followed. -/
  | followRelative {c : Crawl} {l : Location} {rest : List Location} {content : String}
      (hc : c.stage = .relative (l :: rest)) (hl : s.assets.lookup l = some (.known (some content)))
      (hh : l ∉ s.handled) :
      Acts s { before := c, after := .ended none, handled := some l
               spawned := (references content).map (Crawl.ofReference (some l) c.manifest) }

/-! ## What a turn leaves as it is -/

section Cases

variable {s : Session} {i : Nat} {c : Crawl}

/-- Crawl `i` may have a turn that leads to `s'`. -/
def Turns (s : Session) (i : Nat) (s' : Session) : Prop :=
  ∃ t log, s.Acts t ∧ s.crawls[i]? = some t.before ∧ s' = s.after i t log

/-- A crawl has nothing to do: it has ended, or the file that it needs is being fetched. -/
def Waits (s : Session) (c : Crawl) : Prop :=
  (∃ f, c.stage = .ended f) ∨ ∃ l w, c.wants? = some l ∧ s.assets.lookup l = some (.loading w)

/-- A crawl that ends. -/
theorem stop_eq (f : Option Failure) : ∃ log, s.stop i c f = { s.become i c (.ended f) with log } := by
  unfold stop
  dsimp only
  split
  · exact ⟨_, rfl⟩
  · exact ⟨s.log, rfl⟩

/-- A version is kept in the tables only. -/
theorem record_eq (referrer : Option PackageVersion) (pkg version : String) : ∃ roots graph log,
    s.record referrer pkg version = { s with roots, graph, log } := by
  unfold record
  split
  · split
    · exact ⟨_, _, _, rfl⟩
    · split
      · exact ⟨s.roots, s.graph, s.log, rfl⟩
      · exact ⟨s.roots, s.graph, _, rfl⟩
  · split
    · exact ⟨s.roots, s.graph, s.log, rfl⟩
    · exact ⟨s.roots, _, s.log, rfl⟩

/-! ## Files that are asked for -/

/-- A file is known, or it is being fetched, or it is asked for. -/
theorem asset_cases (s : Session) (l : Location) :
    (∃ content, s.assets.lookup l = some (.known content) ∧ s.asset l = (s, some content)) ∨
    (∃ w, s.assets.lookup l = some (.loading w) ∧ s.asset l = (s, none)) ∨
    (s.assets.lookup l = none ∧ s.asset l = ({ s with assets := s.assets ++ [(l, .loading (.turn l))] }, none)) := by
  unfold asset
  split
  · next content h => exact Or.inl ⟨content, h, rfl⟩
  · next w h => exact Or.inr (Or.inl ⟨w, h, rfl⟩)
  · next h => exact Or.inr (Or.inr ⟨h, rfl⟩)

/-- A crawl asks for the file that it needs. -/
theorem turns_ask {l : Location} (hb : s.crawls[i]? = some c) (hw : c.wants? = some l)
    (hl : s.assets.lookup l = none) (hc : ∀ l w, c.stage ≠ .version l w) :
    s.Turns i { s with assets := s.assets ++ [(l, .loading (.turn l))] } := by
  refine ⟨_, s.log, .ask hw hl, hb, ?_⟩
  have hheard : s.heard c = s.cache := by
    unfold heard
    split
    · next l w h => exact absurd h (hc l w)
    · rfl
  simp [after, recorded, set_eq_self hb, hheard]

/-! ## Locations that are told -/

theorem record_cache (cache : Cache) (referrer : Option PackageVersion) (pkg version : String) :
    { s with cache }.record referrer pkg version = { s.record referrer pkg version with cache } := by
  cases referrer with
  | none =>
    rcases hkept : s.roots.lookup pkg with _ | kept
    · simp [record, hkept]
    · by_cases hsame : kept = version
      · simp [record, hkept, hsame]
      · simp [record, hkept, hsame, note]
  | some r =>
    by_cases hsame : r.pkg = pkg
    · simp [record, hsame]
    · simp [record, hsame]

/-- A location with an exact version that a crawl is told leads into its package. -/
theorem turns_pin {l : Location} (hb : s.crawls[i]? = some c) (ht : s.told? c = some l) :
    s.Turns i ({ s with cache := s.heard c }.pin i c l) := by
  obtain ⟨roots, graph, log, hrecord⟩ := record_eq (s := s) c.referrer l.pkg l.version
  unfold pin
  rw [record_cache, hrecord]
  dsimp only
  split
  · next hp =>
    refine ⟨_, log, .enter ht hp, hb, ?_⟩
    simp [after, recorded, hrecord, become]
  · next hp =>
    have hp : l.path.isEmpty = false := by simpa using hp
    split
    · next hh =>
      obtain ⟨log', hstop⟩ := stop_eq (s := { s with roots, graph, log, cache := s.heard c }) (i := i) (c := c) none
      refine ⟨_, log', .meet ht hp (List.contains_iff_mem.1 hh), hb, ?_⟩
      rw [hstop]
      simp [after, recorded, hrecord, become]
    · next hh =>
      refine ⟨_, log, .declare ht hp fun h => hh (List.contains_iff_mem.2 h), hb, ?_⟩
      simp [after, recorded, hrecord, become, declared]

/-- A turn that leaves the tables and the files as they are. -/
theorem turns_become {stage : Stage} (hb : s.crawls[i]? = some c) (ha : s.Acts { before := c, after := stage })
    (hc : ∀ l w, c.stage ≠ .version l w) (log : List Log.Entry) : s.Turns i { s.become i c stage with log } := by
  have hheard : s.heard c = s.cache := by
    unfold heard
    split
    · next l w h => exact absurd h (hc l w)
    · rfl
  refine ⟨_, log, ha, hb, ?_⟩
  simp [after, recorded, become, hheard]

theorem turns_stop {f : Option Failure} (hb : s.crawls[i]? = some c) (ha : s.Acts { before := c, after := .ended f })
    (hc : ∀ l w, c.stage ≠ .version l w) : s.Turns i (s.stop i c f) := by
  obtain ⟨log, hstop⟩ := stop_eq (s := s) (i := i) (c := c) f
  rw [hstop]
  exact turns_become hb ha hc log

/-- A range that a crawl is told. -/
theorem turns_withRange {l : Location} (hb : s.crawls[i]? = some c) (hl : s.Ranged c l)
    (ht : Version.isExact l.version = true → s.told? c = some l) (hc : ∀ l w, c.stage ≠ .version l w) :
    s.Turns i (s.withRange i c l) := by
  unfold withRange
  split
  · next hx =>
    have hheard : s.heard c = s.cache := by
      unfold heard
      split
      · next l w h => exact absurd h (hc l w)
      · rfl
    have hpin := turns_pin hb (ht hx)
    rw [hheard] at hpin
    exact hpin
  · next hx => exact turns_become hb (.inquire hl (by simpa using hx)) hc s.log

/-- Where a crawl goes on when a package has no declarations of its own. -/
theorem fallBack_eq (pkg : String) : ∃ log, s.fallBack i c pkg = { s.become i c (fallBackStage pkg) with log } := by
  unfold fallBack fallBackStage
  split
  · exact stop_eq none
  · exact ⟨s.log, rfl⟩

/-! ## The stages -/

theorem crawlBare_turns {specifier : String} (hb : s.crawls[i]? = some c) (hc : c.stage = .bare specifier) :
    s.Turns i (s.crawlBare i c specifier) := by
  have hnone : ∀ l w, c.stage ≠ .version l w := by simp [hc]
  unfold crawlBare
  split
  · next hm =>
    refine turns_stop hb (.leave hc (Or.inl ?_)) hnone
    exact fun h => absurd hm (by simp [h])
  · next hm =>
    have hm : s.map.resolve specifier = none := by simpa using hm
    split
    · next hl =>
      obtain ⟨log, hstop⟩ := stop_eq (s := s) (i := i) (c := c) none
      rw [hstop]
      exact turns_become hb (.leave hc (Or.inr hl)) hnone _
    · next l hl =>
      split
      · next hv => exact turns_become hb (.seek hc hm hl hv) hnone s.log
      · next hv =>
        refine turns_withRange hb (.specifier hc hm hl (by simpa using hv)) (fun hx => ?_) hnone
        simp [told?, hc, hm, hl, hx]

theorem rangeManifest_cases (s : Session) (c : Crawl) {l : Location} (hc : c.stage = .range l) :
    (∃ m, s.rangeManifest c.manifest = (s, some m)) ∨ s.rangeManifest c.manifest = (s, none) ∧ s.Waits c ∨
    ∃ k, c.wants? = some k ∧ s.assets.lookup k = none ∧
      s.rangeManifest c.manifest = ({ s with assets := s.assets ++ [(k, .loading (.turn k))] }, none) := by
  rcases hm : c.manifest with m | p
  · exact Or.inl ⟨.ok m, rfl⟩
  · have hw : c.wants? = some (manifestOf p) := by simp [Crawl.wants?, hc, hm]
    rcases s.asset_cases (manifestOf p) with ⟨content, hk, ha⟩ | ⟨w, hk, ha⟩ | ⟨hk, ha⟩
    · refine Or.inl ⟨readManifest content, ?_⟩
      simp only [rangeManifest, packageManifest]
      rw [show (⟨p.pkg, p.version, Manifest.fileName⟩ : Location) = manifestOf p from rfl, ha]
      rfl
    · refine Or.inr (Or.inl ⟨?_, Or.inr ⟨_, w, hw, hk⟩⟩)
      simp only [rangeManifest, packageManifest]
      rw [show (⟨p.pkg, p.version, Manifest.fileName⟩ : Location) = manifestOf p from rfl, ha]
      rfl
    · refine Or.inr (Or.inr ⟨manifestOf p, hw, hk, ?_⟩)
      simp only [rangeManifest, packageManifest]
      rw [show (⟨p.pkg, p.version, Manifest.fileName⟩ : Location) = manifestOf p from rfl, ha]
      rfl

theorem crawlRange_turns {l : Location} (hb : s.crawls[i]? = some c) (hc : c.stage = .range l) :
    (s.crawlRange i c l = s ∧ s.Waits c) ∨ s.Turns i (s.crawlRange i c l) := by
  have hnone : ∀ l w, c.stage ≠ .version l w := by simp [hc]
  unfold crawlRange
  rcases rangeManifest_cases s c hc with ⟨m, hm⟩ | ⟨hm, hwaits⟩ | ⟨k, hw, hk, hm⟩
  · rw [hm]
    right
    rcases m with f | m
    · exact turns_stop hb (.stumble hc (by rw [hm])) hnone
    · refine turns_withRange hb (.manifest hc (by rw [hm])) (fun hx => ?_) hnone
      simp only [told?, hc, hm, Option.filter_some, hx, ↓reduceIte]
  · rw [hm]
    exact Or.inl ⟨rfl, hwaits⟩
  · rw [hm]
    exact Or.inr (turns_ask hb hw hk hnone)

theorem crawlVersion_turns {l : Location} {w : Wait} (hb : s.crawls[i]? = some c) (hc : c.stage = .version l w) :
    s.Turns i (s.crawlVersion i c l w) := by
  have hheard : s.heard c = (s.cache.resume .location w).1 := by simp [heard, hc]
  unfold crawlVersion
  split
  · next cache w' hr =>
    refine ⟨_, s.log, .wait hc (by rw [hr]), hb, ?_⟩
    simp [after, recorded, become, hheard, hr]
  · next cache exact hr =>
    have ht : s.told? c = some { l with version := exact.version } := by simp [told?, hc, hr]
    have hpin := turns_pin hb ht
    rw [hheard, hr] at hpin
    exact hpin
  · next cache f hr =>
    suffices h : ∃ log, (if !f.isExpected then { s with cache }.stop i c (some f)
        else if l.path.isEmpty then { s with cache }.fallBack i c l.pkg else { s with cache }.stop i c none) =
        { ({ s with cache } : Session).become i c (unresolvedStage l f) with log } by
      obtain ⟨log, h⟩ := h
      refine ⟨_, log, .unresolved (l := l) (f := f) hc (by rw [hr]), hb, ?_⟩
      rw [h]
      simp [after, recorded, become, hheard, hr]
    unfold unresolvedStage
    split
    · exact stop_eq _
    · split
      · exact fallBack_eq _
      · exact stop_eq _

theorem crawlEntry_turns {l : Location} (hb : s.crawls[i]? = some c) (hc : c.stage = .entry l) :
    (s.crawlEntry i c l = s ∧ s.Waits c) ∨ s.Turns i (s.crawlEntry i c l) := by
  have hnone : ∀ l w, c.stage ≠ .version l w := by simp [hc]
  have hw : c.wants? = some (manifestOf ⟨l.pkg, l.version⟩) := by simp [Crawl.wants?, hc]
  unfold crawlEntry packageManifest
  rw [show (⟨l.pkg, l.version, Manifest.fileName⟩ : Location) = manifestOf ⟨l.pkg, l.version⟩ from rfl]
  rcases s.asset_cases (manifestOf ⟨l.pkg, l.version⟩) with ⟨content, hk, ha⟩ | ⟨w, hk, ha⟩ | ⟨hk, ha⟩
  · rw [ha]
    dsimp only [Option.map_some]
    right
    rcases hm : readManifest content with f | m
    · exact turns_stop hb (.stumbleEntry hc hk hm) hnone
    · dsimp only
      split
      · next hh => exact turns_stop hb (.meetEntry hc hk hm (List.contains_iff_mem.1 hh)) hnone
      · next hh =>
        refine ⟨_, s.log, .declareEntry hc hk hm fun h => hh (List.contains_iff_mem.2 h), hb, ?_⟩
        have hheard : s.heard c = s.cache := by simp [heard, hc]
        simp [after, recorded, become, hheard]
  · rw [ha]
    exact Or.inl ⟨rfl, Or.inr ⟨_, w, hw, hk⟩⟩
  · rw [ha]
    exact Or.inr (turns_ask hb hw hk hnone)

/-- The references of a file are followed, and the crawl ends. -/
theorem turns_follow (handled : Option Location) {l : Location} {manifest : ManifestSource} {content : String}
    (hb : s.crawls[i]? = some c) (hc : ∀ l w, c.stage ≠ .version l w)
    (ha : s.Acts { before := c, after := .ended none, handled
                   spawned := (references content).map (Crawl.ofReference (some l) manifest) }) :
    s.Turns i ({ s with handled := handled.toList ++ s.handled }.follow i c l manifest content) := by
  have hheard : s.heard c = s.cache := by
    unfold heard
    split
    · next l w h => exact absurd h (hc l w)
    · rfl
  obtain ⟨log, hstop⟩ :=
    stop_eq (s := { s with handled := handled.toList ++ s.handled }) (i := i) (c := c) none
  refine ⟨_, log, ha, hb, ?_⟩
  unfold follow
  rw [hstop]
  simp [after, recorded, become, hheard]

theorem crawlDeclaration_turns {l : Location} {whole : Bool} (hb : s.crawls[i]? = some c)
    (hc : c.stage = .declaration l whole) :
    (s.crawlDeclaration i c l whole = s ∧ s.Waits c) ∨ s.Turns i (s.crawlDeclaration i c l whole) := by
  have hnone : ∀ l w, c.stage ≠ .version l w := by simp [hc]
  unfold crawlDeclaration
  rcases s.asset_cases l with ⟨content, hk, ha⟩ | ⟨w, hk, ha⟩ | ⟨hk, ha⟩
  · rw [ha]
    right
    cases content with
    | some content => exact turns_follow none hb hnone (.follow hc hk)
    | none =>
      have hmiss : s.Acts _ := .miss hc hk
      cases whole with
      | false => exact turns_stop hb hmiss hnone
      | true =>
        obtain ⟨log, hfall⟩ := fallBack_eq (s := s) (i := i) (c := c) l.pkg
        dsimp only
        rw [if_pos rfl, hfall]
        exact turns_become hb hmiss hnone log
  · rw [ha]
    exact Or.inl ⟨rfl, Or.inr ⟨l, w, by simp [Crawl.wants?, hc], hk⟩⟩
  · rw [ha]
    exact Or.inr (turns_ask hb (by simp [Crawl.wants?, hc]) hk hnone)

theorem crawlRelative_turns {found : List Location} (hb : s.crawls[i]? = some c) (hc : c.stage = .relative found) :
    (s.crawlRelative i c found = s ∧ s.Waits c) ∨ s.Turns i (s.crawlRelative i c found) := by
  have hnone : ∀ l w, c.stage ≠ .version l w := by simp [hc]
  unfold crawlRelative
  split
  · exact Or.inr (turns_stop hb (.exhaust hc) hnone)
  · next l rest =>
    rcases s.asset_cases l with ⟨content, hk, ha⟩ | ⟨w, hk, ha⟩ | ⟨hk, ha⟩
    · rw [ha]
      right
      cases content with
      | none => exact turns_become hb (.next hc hk) hnone s.log
      | some content =>
        dsimp only
        split
        · next hh => exact turns_stop hb (.meetRelative hc hk (List.contains_iff_mem.1 hh)) hnone
        · next hh =>
          exact turns_follow (some l) hb hnone (.followRelative hc hk fun h => hh (List.contains_iff_mem.2 h))
    · rw [ha]
      exact Or.inl ⟨rfl, Or.inr ⟨l, w, by simp [Crawl.wants?, hc], hk⟩⟩
    · rw [ha]
      exact Or.inr (turns_ask hb (by simp [Crawl.wants?, hc]) hk hnone)

/-- A crawl that goes on has a turn, unless it waits for a file or has ended. -/
theorem crawl_turns (s : Session) (i : Nat) :
    (s.crawl i = s ∧ ∀ c, s.crawls[i]? = some c → s.Waits c) ∨ s.Turns i (s.crawl i) := by
  unfold crawl
  split
  · next hnone => exact Or.inl ⟨rfl, fun c hc => absurd (hnone.symm.trans hc) (by simp)⟩
  · next c hb =>
    have hwaits : s.Waits c → ∀ d, s.crawls[i]? = some d → s.Waits d := fun h d hd =>
      Option.some.inj (hb.symm.trans hd) ▸ h
    split
    · next hc => exact Or.inr (crawlBare_turns hb hc)
    · next hc => exact (crawlRange_turns hb hc).imp_left (And.imp_right hwaits)
    · next hc => exact Or.inr (crawlVersion_turns hb hc)
    · next hc => exact (crawlEntry_turns hb hc).imp_left (And.imp_right hwaits)
    · next hc => exact (crawlDeclaration_turns hb hc).imp_left (And.imp_right hwaits)
    · next hc => exact (crawlRelative_turns hb hc).imp_left (And.imp_right hwaits)
    · next f hc => exact Or.inl ⟨rfl, hwaits (Or.inl ⟨f, hc⟩)⟩

end Cases

/-! ## Events -/

/-- The state before anything is added. -/
def fresh (map : ImportMap) (url : String) : Session := { map, cache := .empty url }

end Session

/-- References that are added, or a move. -/
inductive Event
  /-- References of the project are added; only those that lead out of it are followed. -/
  | refer (references : List Reference) (manifest : Option Value)
  /-- A move. -/
  | move (m : Move)

/-- A source of the project is added. -/
def Event.source (text : String) (manifest : Option Value) : Event := .refer (entryReferences text) manifest

/-- A standard library is added. -/
def Event.lib (name : String) (manifest : Option Value) : Event := .refer [.lib name] manifest

namespace Session

/-- What an event does. -/
def take (s : Session) : Event → Session
  | .refer references manifest => { s with
      crawls := s.crawls ++ (references.filter Reference.isForeign).map (Crawl.ofReference none (.given manifest)) }
  | .move m => s.step m

/-- What events do in order. -/
def play (s : Session) (events : List Event) : Session := events.foldl take s

/-- All that an event does. -/
inductive Does (s : Session) : Event → Session → Prop
  /-- A crawl has a turn. -/
  | turn {i : Nat} {s' : Session} (h : s.Turns i s') : Does s (.move (.crawl i)) s'
  /-- Nothing. -/
  | rest {e : Event} : Does s e s
  /-- The fetching of a file goes on. -/
  | load {j : Nat} {l : Location} {w : Wait} (log : List Log.Entry) (hj : s.assets[j]? = some (l, .loading w)) :
    Does s (.move (.load j)) { s with
      cache := (s.cache.resume .file w).1
      assets := s.assets.set j (l, .ofStatus (s.cache.resume .file w).2)
      log }
  /-- A request is answered. -/
  | answer (n : Nat) (a : Answer) : Does s (.move (.answer n a)) { s with cache := s.cache.complete n a }
  /-- Crawls for references of the project are added. -/
  | add {e : Event} {manifest : Option Value} {rs : List Reference} (he : ∀ m, e ≠ .move m)
      (hr : ∀ r ∈ rs, r.isForeign = true) :
    Does s e { s with crawls := s.crawls ++ rs.map (Crawl.ofReference none (.given manifest)) }

theorem isForeign_of_mem_entryReferences {text : String} {r : Reference} (h : r ∈ entryReferences text) :
    r.isForeign = true := by
  unfold entryReferences at h
  rcases List.mem_append.1 h with h | h
  · exact (List.mem_filter.1 h).2
  · obtain ⟨name, -, rfl⟩ := List.mem_map.1 h
    rfl

theorem take_source (s : Session) (text : String) (manifest : Option Value) :
    s.take (.source text manifest) = s.addSource text manifest := by
  unfold Event.source take addSource
  dsimp only
  rw [List.filter_eq_self.2 fun r hr => isForeign_of_mem_entryReferences hr]

theorem take_lib (s : Session) (name : String) (manifest : Option Value) :
    s.take (.lib name manifest) = s.addLib name manifest := rfl

/-- The fetching of a file goes on. -/
theorem load_eq {s : Session} {j : Nat} {l : Location} {w : Wait} (hj : s.assets[j]? = some (l, .loading w)) :
    ∃ log, s.load j = { s with
      cache := (s.cache.resume .file w).1
      assets := s.assets.set j (l, .ofStatus (s.cache.resume .file w).2)
      log } := by
  unfold load
  rw [hj]
  dsimp only
  rcases s.cache.resume .file w with ⟨cache, (f | file) | w'⟩
  · dsimp only
    split
    · exact ⟨s.log, rfl⟩
    · exact ⟨_, rfl⟩
  · exact ⟨s.log, rfl⟩
  · exact ⟨s.log, rfl⟩

theorem take_cases (s : Session) (e : Event) : s.Does e (s.take e) := by
  rcases e with ⟨references, manifest⟩ | m
  · exact .add (fun _ => by simp) fun r hr => (List.mem_filter.1 hr).2
  · cases m with
    | answer n a => exact .answer n a
    | crawl i =>
      show s.Does _ (s.crawl i)
      rcases s.crawl_turns i with ⟨h, -⟩ | h
      · rw [h]
        exact .rest
      · exact .turn h
    | load j =>
      show s.Does _ (s.load j)
      have hrest : (∀ l w, s.assets[j]? ≠ some (l, .loading w)) → s.load j = s := fun hno => by
        unfold load
        split
        · next l w hj => exact absurd hj (hno l w)
        · rfl
      by_cases hj : ∃ l w, s.assets[j]? = some (l, .loading w)
      · obtain ⟨l, w, hj⟩ := hj
        obtain ⟨log, hload⟩ := load_eq hj
        rw [hload]
        exact .load log hj
      · rw [hrest fun l w h => hj ⟨l, w, h⟩]
        exact .rest

theorem play_cons (s : Session) (e : Event) (events : List Event) : s.play (e :: events) = (s.take e).play events := rfl

theorem play_append (s : Session) (events events' : List Event) :
    s.play (events ++ events') = (s.play events).play events' := List.foldl_append

theorem play_concat (s : Session) (events : List Event) (e : Event) :
    s.play (events ++ [e]) = (s.play events).take e := play_append s events [e]

/-- What each event keeps, all events keep. -/
theorem play_induction {P : List Event → Session → Prop} {s : Session} (h : P [] s)
    (hstep : ∀ events e, P events (s.play events) → (s.play events).Does e ((s.play events).take e) →
      P (events ++ [e]) ((s.play events).take e)) (events : List Event) : P events (s.play events) := by
  induction events using List.reverseRecOn with
  | nil => exact h
  | append_singleton events e ih =>
    rw [play_concat]
    exact hstep events e ih (take_cases _ e)

end Session

end BareImports.Typings
