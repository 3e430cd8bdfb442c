import BareImports.Proofs.Typings.Entries

/-!
# Crawls beside others

* `beside front map s` : a session with crawls in front of its own and another import map, `shift n e` : an event of the
  session behind `n` crawls;
* `lookedUp s events` : the specifiers that are looked up in the import map;
* `play_beside` : where those are mapped alike, events do what they do without the crawls in front;
* `answered_beside` : and their requests get the same answers.
-/

namespace BareImports.Typings

open Cdn
open Build (Site)

/-- An event of the session behind `n` crawls. -/
def Event.shift (n : Nat) : Event → Event
  | .move (.crawl i) => .move (.crawl (n + i))
  | e => e

namespace Session

variable {S : Site} {s : Session} {front : List Crawl} {map : ImportMap} {i : Nat} {c : Crawl} {l : Location} {events : List Event}

/-- A session with crawls in front of its own and another import map. -/
def beside (front : List Crawl) (map : ImportMap) (s : Session) : Session := { s with map, crawls := front ++ s.crawls }

/-! ## What the stages are made of -/

theorem become_beside {stage : Stage} :
    (s.beside front map).become (front.length + i) c stage = (s.become i c stage).beside front map := by
  simp [beside, become, List.set_append_right]

theorem stop_beside (f : Option Failure) : (s.beside front map).stop (front.length + i) c f = (s.stop i c f).beside front map := by
  unfold stop
  rw [become_beside]
  rcases f with _ | f
  · rfl
  · rcases c.within with _ | pkg
    · rfl
    · rfl

theorem asset_beside (l : Location) : (s.beside front map).asset l = ((s.asset l).1.beside front map, (s.asset l).2) := by
  unfold asset
  rw [show (s.beside front map).assets = s.assets from rfl]
  rcases s.assets.lookup l with _ | a
  · rfl
  · cases a with
    | loading w => rfl
    | known content => rfl

theorem packageManifest_beside (p : PackageVersion) :
    (s.beside front map).packageManifest p = ((s.packageManifest p).1.beside front map, (s.packageManifest p).2) := by
  unfold packageManifest
  rw [asset_beside]

theorem rangeManifest_beside (manifest : ManifestSource) :
    (s.beside front map).rangeManifest manifest = ((s.rangeManifest manifest).1.beside front map, (s.rangeManifest manifest).2) := by
  cases manifest with
  | given m => rfl
  | package p => exact packageManifest_beside p

theorem record_beside (r : Option PackageVersion) (pkg version : String) :
    (s.beside front map).record r pkg version = (s.record r pkg version).beside front map := by
  unfold record
  rw [show (s.beside front map).roots = s.roots from rfl]
  cases r with
  | none =>
    dsimp only
    rcases s.roots.lookup pkg with _ | kept
    · rfl
    · dsimp only
      split
      · rfl
      · rfl
  | some p =>
    dsimp only
    split
    · rfl
    · rfl

theorem follow_beside (manifest : ManifestSource) (content : String) :
    (s.beside front map).follow (front.length + i) c l manifest content = (s.follow i c l manifest content).beside front map := by
  unfold follow
  rw [stop_beside]
  simp [beside]

theorem fallBack_beside (pkg : String) :
    (s.beside front map).fallBack (front.length + i) c pkg = (s.fallBack i c pkg).beside front map := by
  unfold fallBack
  split
  · exact stop_beside none
  · exact become_beside

theorem pin_beside : (s.beside front map).pin (front.length + i) c l = (s.pin i c l).beside front map := by
  unfold pin
  rw [record_beside]
  dsimp only
  split
  · exact become_beside
  · rw [show ∀ s : Session, (s.beside front map).handled = s.handled from fun _ => rfl]
    split
    · exact stop_beside none
    · rw [become_beside]
      rfl

theorem withRange_beside : (s.beside front map).withRange (front.length + i) c l = (s.withRange i c l).beside front map := by
  unfold withRange
  split
  · exact pin_beside
  · exact become_beside

/-! ## The stages -/

theorem crawlBare_beside {specifier : String} (h : map.resolve specifier = s.map.resolve specifier) :
    (s.beside front map).crawlBare (front.length + i) c specifier = (s.crawlBare i c specifier).beside front map := by
  unfold crawlBare
  rw [show (s.beside front map).map = map from rfl, h]
  split
  · exact stop_beside none
  · rcases Location.parse? specifier.toList with _ | l
    · dsimp only
      rw [stop_beside]
      rfl
    · dsimp only
      split
      · exact become_beside
      · exact withRange_beside

theorem crawlRange_beside : (s.beside front map).crawlRange (front.length + i) c l = (s.crawlRange i c l).beside front map := by
  unfold crawlRange
  rw [rangeManifest_beside]
  rcases s.rangeManifest c.manifest with ⟨s', _ | f | m⟩
  · rfl
  · exact stop_beside (some f)
  · exact withRange_beside

theorem crawlVersion_beside (w : Wait) :
    (s.beside front map).crawlVersion (front.length + i) c l w = (s.crawlVersion i c l w).beside front map := by
  unfold crawlVersion
  rw [show (s.beside front map).cache = s.cache from rfl]
  rcases s.cache.resume .location w with ⟨cache, (f | exact) | w'⟩
  · dsimp only
    split
    · exact stop_beside (s := { s with cache }) (some f)
    · split
      · exact fallBack_beside (s := { s with cache }) l.pkg
      · exact stop_beside (s := { s with cache }) none
  · exact pin_beside (s := { s with cache })
  · dsimp only
    rw [become_beside]
    rfl

theorem crawlEntry_beside : (s.beside front map).crawlEntry (front.length + i) c l = (s.crawlEntry i c l).beside front map := by
  unfold crawlEntry
  rw [packageManifest_beside]
  rcases s.packageManifest ⟨l.pkg, l.version⟩ with ⟨s', _ | f | m⟩
  · rfl
  · exact stop_beside (some f)
  · dsimp only
    rw [show (s'.beside front map).handled = s'.handled from rfl]
    split
    · exact stop_beside none
    · rw [become_beside]
      rfl

theorem crawlDeclaration_beside (whole : Bool) :
    (s.beside front map).crawlDeclaration (front.length + i) c l whole = (s.crawlDeclaration i c l whole).beside front map := by
  unfold crawlDeclaration
  rw [asset_beside]
  rcases s.asset l with ⟨s', _ | _ | content⟩
  · rfl
  · dsimp only
    split
    · exact fallBack_beside l.pkg
    · exact stop_beside none
  · exact follow_beside _ content

theorem crawlRelative_beside (found : List Location) :
    (s.beside front map).crawlRelative (front.length + i) c found = (s.crawlRelative i c found).beside front map := by
  unfold crawlRelative
  rcases found with _ | ⟨l, rest⟩
  · exact stop_beside none
  · dsimp only
    rw [asset_beside]
    rcases s.asset l with ⟨s', _ | _ | content⟩
    · rfl
    · exact become_beside
    · dsimp only
      rw [show (s'.beside front map).handled = s'.handled from rfl]
      split
      · exact stop_beside none
      · exact follow_beside (s := { s' with handled := l :: s'.handled }) _ content

/-- The specifier that is looked up in the import map at the next turn of a crawl. -/
def lookup? (s : Session) (i : Nat) : Option String := s.crawls[i]?.bind fun c => match c.stage with
  | .bare specifier => some specifier
  | _ => none

theorem crawl_beside (h : ∀ x ∈ s.lookup? i, map.resolve x = s.map.resolve x) :
    (s.beside front map).crawl (front.length + i) = (s.crawl i).beside front map := by
  unfold crawl
  unfold lookup? at h
  rw [show (s.beside front map).crawls[front.length + i]? = s.crawls[i]? by simp [beside, List.getElem?_append_right]]
  rcases hi : s.crawls[i]? with _ | c
  · rfl
  · rw [hi] at h
    rcases hc : c.stage with specifier | l | ⟨l, w⟩ | l | ⟨l, whole⟩ | found | f
    · simp only [Option.bind_some, hc] at h
      simp only [hc]
      exact crawlBare_beside (h specifier rfl)
    all_goals simp only [hc]
    · exact crawlRange_beside
    · exact crawlVersion_beside w
    · exact crawlEntry_beside
    · exact crawlDeclaration_beside whole
    · exact crawlRelative_beside found

/-! ## Events -/

theorem load_beside (s : Session) (j : Nat) : (s.beside front map).load j = (s.load j).beside front map := by
  unfold load
  rw [show (s.beside front map).assets = s.assets from rfl, show (s.beside front map).cache = s.cache from rfl]
  rcases s.assets[j]? with _ | ⟨l, w | content⟩
  · rfl
  · dsimp only
    rcases s.cache.resume .file w with ⟨cache, (f | file) | w'⟩
    · dsimp only
      split
      · rfl
      · rfl
    · rfl
    · rfl
  · rfl

/-- The specifiers that are looked up in the import map. -/
def lookedUp (s : Session) : List Event → List String
  | [] => []
  | e :: events => (match e with
    | .move (.crawl i) => (s.lookup? i).toList
    | _ => []) ++ (s.take e).lookedUp events

theorem take_beside {e : Event} (h : ∀ x ∈ s.lookedUp [e], map.resolve x = s.map.resolve x) :
    (s.beside front map).take (e.shift front.length) = (s.take e).beside front map := by
  rcases e with ⟨references, manifest⟩ | m
  · simp [Event.shift, take, beside]
  · cases m with
    | crawl i => exact crawl_beside fun x hx => h x (by simpa [lookedUp] using hx)
    | load j => exact load_beside s j
    | answer n a => rfl

/-- Where all is mapped alike, it is for the first event, and for those behind it. -/
theorem alike_cons {e : Event} (h : ∀ x ∈ s.lookedUp (e :: events), map.resolve x = s.map.resolve x) :
    (∀ x ∈ s.lookedUp [e], map.resolve x = s.map.resolve x) ∧
      ∀ x ∈ (s.take e).lookedUp events, map.resolve x = (s.take e).map.resolve x := by
  refine ⟨fun x hx => h x (List.mem_append_left _ (by simpa [lookedUp] using hx)), fun x hx => ?_⟩
  rw [(take_cases s e).map_eq]
  exact h x (List.mem_append_right _ hx)

/-- Events do what they do without the crawls in front. -/
theorem play_beside (h : ∀ x ∈ s.lookedUp events, map.resolve x = s.map.resolve x) :
    (s.beside front map).play (events.map (Event.shift front.length)) = (s.play events).beside front map := by
  induction events generalizing s with
  | nil => rfl
  | cons e events ih =>
    obtain ⟨hfirst, hrest⟩ := alike_cons h
    rw [List.map_cons, play_cons, take_beside hfirst, ih hrest, play_cons]

/-- Requests get the answers that they get without the crawls in front. -/
theorem answered_beside (h : ∀ x ∈ s.lookedUp events, map.resolve x = s.map.resolve x) :
    answered S (s.beside front map) (events.map (Event.shift front.length)) = answered S s events := by
  induction events generalizing s with
  | nil => rfl
  | cons e events ih =>
    obtain ⟨hfirst, hrest⟩ := alike_cons h
    rw [List.map_cons]
    unfold answered
    rw [take_beside hfirst, ih hrest]
    rcases e with ⟨references, manifest⟩ | m
    · rfl
    · cases m with
      | crawl i => rfl
      | load j => rfl
      | answer n a => rfl

end Session

end BareImports.Typings
