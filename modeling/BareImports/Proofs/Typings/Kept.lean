import BareImports.Proofs.Cdn.Serving
import BareImports.Proofs.Typings.Relatives

/-!
# What is fetched is kept

* `told s events` : the versions that the project and the package versions are told, in order;
* `Single pins` : nothing is told two versions of one package, and no package version another version of itself;
* `Kept pins s` : the versions that are kept were told, and all package versions that the session is about are required;
* `fetched_kept` : then each file that was fetched is in some copy of its package version.
-/

namespace BareImports

/-! ## More dependencies -/

namespace Layout

variable {roots roots' : List (String × String)} {g g' : Graph}

/-- With more roots and more dependencies, more is required. -/
theorem Required.mono {p : String × String} (h : Required roots g p) (hroots : roots ⊆ roots')
    (hg : ∀ pkg version, g.dependencies pkg version ⊆ g'.dependencies pkg version) : Required roots' g' p := by
  induction h with
  | root h => exact .root (hroots h)
  | dependency _ hd hne ih => exact .dependency ih (hg _ _ hd) hne

end Layout

namespace Typings

open Cdn Location
open Build (Site)

/-- Versions that are told, each with the package version that has the reference, none for the project. -/
abbrev Pins := List (Option PackageVersion × Location)

/-- Nothing is told two versions of one package, and no package version another version of itself. -/
structure Single (pins : Pins) : Prop where
  /-- One version of each package. -/
  one : ∀ a ∈ pins, ∀ b ∈ pins, a.1 = b.1 → a.2.pkg = b.2.pkg → a.2.version = b.2.version
  /-- The own version of a package. -/
  own : ∀ a ∈ pins, ∀ p ∈ a.1, p.pkg = a.2.pkg → p.version = a.2.version

theorem Single.subset {pins pins' : Pins} (h : Single pins') (hsub : pins ⊆ pins') : Single pins :=
  ⟨fun a ha b hb => h.one a (hsub ha) b (hsub hb), fun a ha => h.own a (hsub ha)⟩

namespace Session

variable {s s' : Session} {c : Crawl} {t : Turn} {l : Location} {e : Event} {events : List Event} {pins : Pins}
  {r : Option PackageVersion} {content : String}

/-- The versions that the project and the package versions are told, in order. -/
def told (s : Session) : List Event → Pins
  | [] => []
  | e :: events => (s.pin? e).toList ++ (s.take e).told events

theorem told_append (events' : List Event) : s.told (events ++ events') = s.told events ++ (s.play events).told events' := by
  induction events generalizing s with
  | nil => rfl
  | cons e events ih => rw [List.cons_append, told, told, ih, List.append_assoc, play_cons]

theorem told_concat (e : Event) : s.told (events ++ [e]) = s.told events ++ ((s.play events).pin? e).toList := by
  rw [told_append, told, told, List.append_nil]

/-! ## Versions that are kept -/

/-- The versions that are kept were told, and all package versions that the session is about are required. -/
structure Kept (pins : Pins) (s : Session) : Prop where
  /-- Those of the project. -/
  roots : ∀ d ∈ s.roots, ∃ l, (none, l) ∈ pins ∧ l.pkg = d.1 ∧ l.version = d.2
  /-- Those of the package versions. -/
  graph : ∀ p v, ∀ d ∈ s.graph.dependencies p v, ∃ l, (some ⟨p, v⟩, l) ∈ pins ∧ l.pkg = d.1 ∧ l.version = d.2
  /-- The package versions of the crawls and the files. -/
  within : s.Within fun p => Layout.Required s.roots s.graph (p.pkg, p.version)

/-- What is kept stays, and what is told is kept. -/
structure Records (s : Session) (r : Option PackageVersion) (l : Location) (s' : Session) : Prop where
  /-- What the project depends on stays. -/
  roots : s.roots ⊆ s'.roots
  /-- What package versions depend on stays. -/
  graph : ∀ p v, s.graph.dependencies p v ⊆ s'.graph.dependencies p v
  /-- What is told is required if the package version is that has the reference. -/
  required : (∀ p ∈ r, Layout.Required s'.roots s'.graph (p.pkg, p.version)) →
    Layout.Required s'.roots s'.graph (l.pkg, l.version)

/-- The first version of the project is the only one. -/
theorem Kept.records_root (h : s.Kept pins) (hsingle : Single pins) (hl : (none, l) ∈ pins) :
    s.Records none l (s.record none l.pkg l.version) where
  roots := by
    rw [roots_record_none]
    split
    · exact List.subset_append_left _ _
    · exact List.Subset.refl _
  graph p v := by rw [graph_record_none]; exact List.Subset.refl _
  required _ := by
    refine .root ?_
    rw [roots_record_none]
    split
    · exact List.mem_append_right _ (List.mem_singleton_self _)
    · next kept hkept =>
      obtain ⟨k, hk, hpkg, hversion⟩ := h.roots _ (Table.mem_of_lookup hkept)
      rw [hsingle.one _ hl _ hk rfl hpkg.symm, hversion]
      exact Table.mem_of_lookup hkept

/-- The last version of a dependency is the only one. -/
theorem Kept.records_dependency (h : s.Kept pins) (hsingle : Single pins) {p : PackageVersion} (hl : (some p, l) ∈ pins) :
    s.Records (some p) l (s.record (some p) l.pkg l.version) where
  roots := by rw [roots_record_some]; exact List.Subset.refl _
  graph p' v d hd := by
    rw [dependencies_record]
    split
    · next hsame =>
      obtain ⟨-, rfl, rfl⟩ := hsame
      by_cases hpkg : d.1 = l.pkg
      · obtain ⟨k, hk, hkpkg, hkversion⟩ := h.graph _ _ d hd
        have hversion : d.2 = l.version := by
          rw [← hkversion]
          exact hsingle.one _ hk _ hl rfl (hkpkg.trans hpkg)
        rw [show d = (l.pkg, l.version) from Prod.ext hpkg hversion]
        exact Table.mem_put_self _ _ _
      · exact Table.mem_put_of_ne hd hpkg
    · exact hd
  required hp := by
    by_cases hself : p.pkg = l.pkg
    · have hsame : (p.pkg, p.version) = (l.pkg, l.version) := Prod.ext hself (hsingle.own _ hl p rfl hself)
      exact hsame ▸ hp p rfl
    · refine .dependency (hp p rfl) ?_ (Ne.symm hself)
      rw [dependencies_record, if_pos ⟨hself, rfl, rfl⟩]
      exact Table.mem_put_self _ _ _

theorem Kept.records (h : s.Kept pins) (hsingle : Single pins) (hl : (r, l) ∈ pins) :
    s.Records r l (s.record r l.pkg l.version) := by
  cases r with
  | none => exact h.records_root hsingle hl
  | some p => exact h.records_dependency hsingle hl

theorem Within.mono {Q Q' : PackageVersion → Prop} (h : s.Within Q) (hQ : ∀ p, Q p → Q' p) : s.Within Q' :=
  ⟨fun c hc p hp => hQ p (h.crawls c hc p hp), fun e he => hQ _ (h.assets e he)⟩

theorem Kept.mono {pins' : Pins} (h : s.Kept pins) (hsub : pins ⊆ pins') : s.Kept pins' where
  roots d hd := (h.roots d hd).imp fun _ hl => ⟨hsub hl.1, hl.2⟩
  graph p v d hd := (h.graph p v d hd).imp fun _ hl => ⟨hsub hl.1, hl.2⟩
  within := h.within

/-- What is kept behind a turn was kept, or it was told. -/
theorem kept_record (h : s.Kept pins) (hl : (r, l) ∈ pins) :
    (∀ d ∈ (s.record r l.pkg l.version).roots, ∃ k, (none, k) ∈ pins ∧ k.pkg = d.1 ∧ k.version = d.2) ∧
      ∀ p v, ∀ d ∈ (s.record r l.pkg l.version).graph.dependencies p v,
        ∃ k, (some ⟨p, v⟩, k) ∈ pins ∧ k.pkg = d.1 ∧ k.version = d.2 := by
  cases r with
  | none =>
    refine ⟨fun d hd => ?_, fun p v d hd => h.graph p v d (by rwa [graph_record_none] at hd)⟩
    rw [roots_record_none] at hd
    split at hd
    · rcases List.mem_append.1 hd with hd | hd
      · exact h.roots d hd
      · exact ⟨l, hl, by rw [List.mem_singleton.1 hd], by rw [List.mem_singleton.1 hd]⟩
    · exact h.roots d hd
  | some q =>
    refine ⟨fun d hd => h.roots d (by rwa [roots_record_some] at hd), fun p v d hd => ?_⟩
    rw [dependencies_record] at hd
    split at hd
    · next hsame =>
      obtain ⟨-, rfl, rfl⟩ := hsame
      rcases Table.mem_put hd with rfl | hd
      · exact ⟨l, hl, rfl, rfl⟩
      · exact h.graph _ _ d hd
    · exact h.graph p v d hd

theorem Does.kept (hd : s.Does e s') (h : s.Kept pins) (hsingle : Single (pins ++ (s.pin? e).toList)) :
    s'.Kept (pins ++ (s.pin? e).toList) := by
  have h := h.mono (List.subset_append_left pins (s.pin? e).toList)
  cases hd with
  | rest => exact h
  | answer n a => exact ⟨h.roots, h.graph, ⟨h.within.crawls, h.within.assets⟩⟩
  | load log hj => exact ⟨h.roots, h.graph, (Does.load log hj).within h.within fun r l hpin => absurd hpin (by simp [pin?])⟩
  | add he hr =>
    refine ⟨h.roots, h.graph, (Does.add he hr).within h.within fun r l hpin => ?_⟩
    cases e with
    | refer => exact absurd hpin (by simp [pin?])
    | move m => exact absurd rfl (he m)
  | @turn i _ ht =>
    obtain ⟨t, log, hacts, hb, rfl⟩ := ht
    rcases hpinned : t.pinned with _ | l
    · -- nothing is told
      have hsame : s.recorded t = s := by rw [recorded, hpinned]; rfl
      have hroots : (s.after i t log).roots = s.roots := by
        show (s.recorded t).roots = _
        rw [hsame]
      have hgraph : (s.after i t log).graph = s.graph := by
        show (s.recorded t).graph = _
        rw [hsame]
      refine ⟨by rw [hroots]; exact h.roots, by rw [hgraph]; exact h.graph, ?_⟩
      rw [hroots, hgraph]
      exact hacts.within hb h.within (by simp [hpinned]) log
    · have hrecord : s.recorded t = s.record t.before.referrer l.pkg l.version := by rw [recorded, hpinned]; rfl
      have hl : (t.before.referrer, l) ∈ pins ++ (s.pin? (.move (.crawl i))).toList :=
        List.mem_append_right _ (Option.mem_toList.2 (pin?_turn hb hacts hpinned))
      have hrecords := h.records hsingle hl
      have hkept := kept_record h hl
      rw [← hrecord] at hrecords hkept
      have hstay : ∀ p, Layout.Required s.roots s.graph p → Layout.Required (s.recorded t).roots (s.recorded t).graph p :=
        fun p hp => hp.mono hrecords.roots hrecords.graph
      refine ⟨hkept.1, hkept.2, hacts.within hb (h.within.mono fun p => hstay _) (fun k hk => ?_) log⟩
      obtain rfl : l = k := Option.some.inj (hpinned.symm.trans hk)
      refine hrecords.required fun p hp => hstay _ (h.within.crawls _ (List.mem_of_getElem? hb) p ?_)
      exact mem_packages.2 (Or.inr (Or.inr hp))

theorem kept_play (map : ImportMap) (url : String) (events : List Event) (hsingle : Single ((fresh map url).told events)) :
    ((fresh map url).play events).Kept ((fresh map url).told events) := by
  refine play_induction (P := fun events s => Single ((fresh map url).told events) → s.Kept ((fresh map url).told events))
    (fun _ => ⟨by simp [fresh], fun p v => by simp [fresh, Graph.dependencies], ⟨by simp [fresh], by simp [fresh]⟩⟩)
    (fun events e ih hd hsingle => ?_) events hsingle
  rw [told_concat] at hsingle ⊢
  exact hd.kept (ih (hsingle.subset (List.subset_append_left _ _))) hsingle

namespace Reissue

/-- A text that refers to another version of the package that it is in, and to two versions of another one. -/
def text : String := "/// <reference types=\"a@2.0.0/x\" />
/// <reference types=\"b@1.0.0/x\" />
/// <reference types=\"b@2.0.0/x\" />
"

/-- The file with that text. -/
def page : Location := ⟨"a", "1.0.0", "index.d.ts"⟩

/-- The file of the other version of its package. -/
def own : Location := ⟨"a", "2.0.0", "x.d.ts"⟩

/-- The file of the first version of the other package. -/
def early : Location := ⟨"b", "1.0.0", "x.d.ts"⟩

/-- The file of the second version of the other package. -/
def late : Location := ⟨"b", "2.0.0", "x.d.ts"⟩

/-- All four files are served. -/
def stand : Site := serving
  [(page, ⟨200, "https://c/a@1.0.0/index.d.ts", text, none⟩), (own, ⟨200, "https://c/a@2.0.0/x.d.ts", "", none⟩),
    (early, ⟨200, "https://c/b@1.0.0/x.d.ts", "", none⟩), (late, ⟨200, "https://c/b@2.0.0/x.d.ts", "", none⟩)]

/-- The specifiers of the files. -/
def wanted : List String := ["a@1.0.0/index.d.ts", "a@2.0.0/x", "b@1.0.0/x", "b@2.0.0/x"]

/-- What else is written in the text is mapped. -/
def names : ImportMap := mapping text wanted

/-- A crawl for a reference of the text. -/
def crawlFor (r : Reference) : Crawl := Crawl.ofReference (some page) (.package ⟨page.pkg, page.version⟩) r

/-- The file with the text is fetched. -/
def fetching : List Event :=
  [.refer [.bare "a@1.0.0/index.d.ts"] none, .move (.crawl 0), .move (.crawl 0), .move (.load 0),
    .move (.answer 0 (stand.cdn "https://c/a@1.0.0/index.d.ts")), .move (.load 0)]

/-- The state in which it is read. -/
def fetched : Session := (fresh {} "https://c").play fetching

/-- The crawls for what its directives name. -/
def following : Session := { fetched with crawls :=
  [crawlFor (.bare "a@2.0.0/x"), crawlFor (.bare "b@1.0.0/x"), crawlFor (.bare "b@2.0.0/x")] }

/-- The first two are told their versions. -/
def starting : List Event := [.move (.crawl 0), .move (.crawl 1)]

/-- The state in which the first version of the other package is kept. -/
def started : Session := following.play starting

/-- The third one is told its version, and all files are fetched. -/
def ending : List Event :=
  [.move (.crawl 2), .move (.crawl 0), .move (.crawl 1), .move (.crawl 2), .move (.load 1), .move (.load 2), .move (.load 3),
    .move (.answer 1 (stand.cdn "https://c/a@2.0.0/x.d.ts")), .move (.answer 2 (stand.cdn "https://c/b@1.0.0/x.d.ts")),
    .move (.answer 3 (stand.cdn "https://c/b@2.0.0/x.d.ts")), .move (.load 1), .move (.load 2), .move (.load 3)]

/-- The state in which the second version of the other package is kept. -/
def finished : Session := started.play ending

/-- What the directives name, what is not written in the text, and the folder of its file. -/
theorem text_says : directed text = [.bare "a@2.0.0/x", .bare "b@1.0.0/x", .bare "b@2.0.0/x"] ∧
    ¬ ['.', '/'] <:+: text.toList ∧ ¬ ['.', '.'] <:+: text.toList ∧ targets page "." = [page] := by decide +kernel

/-- The packages, versions and paths that the specifiers say. -/
theorem parse?_wanted : Location.parse? "a@1.0.0/index.d.ts".toList = some page ∧
    Location.parse? "a@2.0.0/x".toList = some ⟨"a", "2.0.0", "x"⟩ ∧
    Location.parse? "b@1.0.0/x".toList = some ⟨"b", "1.0.0", "x"⟩ ∧
    Location.parse? "b@2.0.0/x".toList = some ⟨"b", "2.0.0", "x"⟩ ∧
    ∀ version ∈ ["1.0.0", "2.0.0"], Version.isExact version = true := by decide +kernel

/-- A version that the file depends on is kept already, and its file was taken over. -/
def Met (s : Session) (l : Location) : Prop :=
  (s.record (some ⟨page.pkg, page.version⟩) l.pkg l.version).graph = s.graph ∧ declared l ∈ s.handled

instance (s : Session) (l : Location) : Decidable (Met s l) := inferInstanceAs (Decidable (_ ∧ _))

theorem fetched_state : fetched.crawls.map readBy? = [some page] ∧ contentOf? fetched page = some text ∧
    (fresh {} "https://c").told fetching = [(none, ⟨"a", "1.0.0", "index.d.ts"⟩)] ∧
    Layout.place fetched.roots fetched.graph = [⟨["a"], "1.0.0"⟩] ∧ fetched.Shown "a/index.d.ts" := by decide +kernel

theorem started_state : contentOf? started page = some text ∧ page ∈ started.handled ∧ Met started page ∧
    Met started ⟨"a", "2.0.0", "x"⟩ ∧ Met started ⟨"b", "1.0.0", "x"⟩ := by decide +kernel

theorem finished_state : Met finished ⟨"b", "2.0.0", "x"⟩ ∧
    (∀ c ∈ finished.crawls, ∃ l ∈ readBy? c, contentOf? finished l = some "") ∧
    (finished.assets.any fun (_, a) => Asset.isLoading a) = false ∧ finished.roots = [("a", "1.0.0")] ∧
    finished.log.isEmpty = true ∧ (∀ l ∈ [own, early], contentOf? finished l = some "") ∧
    ∀ l ∈ [own, early], ∀ p ∈ Layout.place finished.roots finished.graph, ¬(p.pkg = l.pkg ∧ p.version = l.version) := by
  decide +kernel

/-- On the way the requests are answered as the site answers them, and nothing is looked up that is mapped. -/
theorem answered_stand : (answered stand (fresh {} "https://c") fetching = true ∧
      (fresh {} "https://c").lookedUp fetching ⊆ wanted) ∧
    (answered stand following starting = true ∧ following.lookedUp starting ⊆ wanted) ∧
    answered stand started ending = true ∧ started.lookedUp ending ⊆ wanted := by decide +kernel

/-- Besides those of the directives, the references are what is written in the text, or the folder of the file. -/
theorem references_text : ∃ found, references text = found ++ directed text ∧
    ∀ r ∈ found, r = .relative "." ∨ ∃ x : String, x ≠ "" ∧ x.toList <:+: text.toList ∧ r = .bare x := by
  obtain ⟨found, heq, hfound⟩ := references_eq text
  refine ⟨found, heq, fun r hr => ?_⟩
  obtain ⟨x, hne, hinfix, hr⟩ := hfound r hr
  rcases ofSpecifier?_cases hr with rfl | ⟨rfl, hp | hp | rfl⟩
  · exact Or.inr ⟨x, hne, hinfix, rfl⟩
  · exact absurd (hp.isInfix.trans hinfix) text_says.2.1
  · exact absurd (hp.isInfix.trans hinfix) text_says.2.2.1
  · exact Or.inl rfl

theorem resolve_wanted {x : String} (hx : x ∈ wanted) : names.resolve x = none := resolve_mapping_of_mem hx

/-- Where the file was taken over, a reference to its folder ends, and so do those that are mapped. -/
theorem idle_found (hpage : contentOf? s page = some text) (hhandled : page ∈ s.handled) {r : Reference}
    (hr : r = .relative "." ∨ ∃ x : String, x ≠ "" ∧ x.toList <:+: text.toList ∧ r = .bare x) :
    ({ s with map := names } : Session).Idle (crawlFor r) ∨ ∃ x ∈ wanted, r = .bare x := by
  rcases hr with rfl | ⟨x, hne, hinfix, rfl⟩
  · have hstage : (crawlFor (.relative ".")).stage = .relative [page] := by
      rw [crawlFor, ofReference_relative, text_says.2.2.2]
    exact Or.inl (.met hstage (lookup_of_contentOf? hpage) hhandled)
  · by_cases hx : x ∈ wanted
    · exact Or.inr ⟨x, hx, rfl⟩
    · exact Or.inl (.mapped rfl (resolve_mapping hne hinfix hx))

/-- A reference to a file that was taken over ends, if its version is kept. -/
theorem idle_wanted {x : String} (hx : x ∈ wanted) (hl : Location.parse? x.toList = some l)
    (hexact : l.version ∈ ["1.0.0", "2.0.0"]) (hp : l.path.isEmpty = false) (hmet : Met s l) :
    ({ s with map := names } : Session).Idle (crawlFor (.bare x)) := by
  have hsame : (({ s with map := names } : Session).record (some ⟨page.pkg, page.version⟩) l.pkg l.version).graph =
      (s.record (some ⟨page.pkg, page.version⟩) l.pkg l.version).graph := graph_record_congr rfl
  exact .entered rfl (resolve_wanted hx) hl (parse?_wanted.2.2.2.2 _ hexact) hp rfl (hsame.trans hmet.1) hmet.2

/-- An empty file is read. -/
theorem idle_read {c : Crawl} (hl : readBy? c = some l) (hcontent : contentOf? s l = some "") :
    ({ s with map := names } : Session).Idle c := by
  obtain ⟨whole, hstage⟩ := stage_of_readBy? hl
  exact .read hstage (lookup_of_contentOf? hcontent)

/-- A reference that is left in the state in which the first version of the other package is kept. -/
def Left (c : Crawl) : Prop := c = crawlFor (.bare "b@2.0.0/x")

theorem idle_started {r : Reference}
    (hr : r = .relative "." ∨ ∃ x : String, x ≠ "" ∧ x.toList <:+: text.toList ∧ r = .bare x) :
    ({ started with map := names } : Session).Idle (crawlFor r) ∨ Left (crawlFor r) := by
  obtain ⟨hpage, hhandled, hmet, hmetOwn, hmetEarly⟩ := started_state
  obtain ⟨hl, hlOwn, hlEarly, -, -⟩ := parse?_wanted
  rcases idle_found hpage hhandled hr with h | ⟨x, hx, rfl⟩
  · exact Or.inl h
  have hwanted := hx
  simp only [wanted, List.mem_cons, List.not_mem_nil, or_false] at hx
  rcases hx with rfl | rfl | rfl | rfl
  · exact Or.inl (idle_wanted hwanted hl (by decide) (by decide) hmet)
  · exact Or.inl (idle_wanted hwanted hlOwn (by decide) (by decide) hmetOwn)
  · exact Or.inl (idle_wanted hwanted hlEarly (by decide) (by decide) hmetEarly)
  · exact Or.inr rfl

theorem idle_finished : ({ finished with map := names } : Session).Idle (crawlFor (.bare "b@2.0.0/x")) ∧
    ∀ c ∈ finished.crawls, ({ finished with map := names } : Session).Idle c := by
  refine ⟨idle_wanted (by simp [wanted]) parse?_wanted.2.2.2.1 (by decide) (by decide) finished_state.1, fun c hc => ?_⟩
  obtain ⟨l, hl, hcontent⟩ := finished_state.2.1 c hc
  exact idle_read hl hcontent

/-- There is a way from a state to another one on which the requests are answered as a site answers them. -/
def Reaches (S : Site) (s s' : Session) : Prop := ∃ events, AnsweredBy S s events ∧ s.play events = s'

theorem Reaches.trans {S : Site} {s'' : Session} (h : Reaches S s s') (h' : Reaches S s' s'') : Reaches S s s'' := by
  obtain ⟨events, ha, rfl⟩ := h
  obtain ⟨events', ha', rfl⟩ := h'
  exact ⟨events ++ events', answeredBy_append ha ha', play_append ..⟩

/-- Events that look up nothing that is mapped lead to the same beside other crawls. -/
theorem reaches_beside {S : Site} (front : List Crawl) (hmap : s.map = {}) (ha : answered S s events = true)
    (hlooked : s.lookedUp events ⊆ wanted) : Reaches S (s.beside front names) ((s.play events).beside front names) := by
  have halike : ∀ x ∈ s.lookedUp events, names.resolve x = s.map.resolve x := fun x hx => by
    rw [resolve_wanted (hlooked hx), hmap]
    rfl
  exact ⟨_, answeredBy_of_answered ((answered_beside halike).trans ha), play_beside halike⟩

/-- A crawl that reads a file adds crawls for its references. -/
theorem crawl_alone {c : Crawl} {map : ImportMap} (hs : s.crawls = [c]) (hl : readBy? c = some l)
    (hcontent : contentOf? s l = some content) : (s.beside [] map).crawl 0 = { s with
      map
      crawls := { c with stage := .ended none } ::
        (references content).map (Crawl.ofReference (some l) (.package ⟨l.pkg, l.version⟩)) } := by
  obtain ⟨whole, hstage⟩ := stage_of_readBy? hl
  have hfirst : (s.beside [] map).crawls[0]? = some c := by rw [beside, hs]; rfl
  rw [crawl_declaration hfirst hstage (lookup_of_contentOf? hcontent), follow_eq, beside, hs]
  rfl

/-- The file is read, which adds crawls for what is found in it, and those for its directives. -/
theorem exists_following : ∃ front, Reaches stand (fetched.beside [] names) (following.beside front names) ∧
    ∀ c ∈ front, ({ started with map := names } : Session).Idle c ∨ Left c := by
  obtain ⟨hcrawls, hcontent, -⟩ := fetched_state
  obtain ⟨c₀, hc₀, hread⟩ := List.map_eq_singleton_iff.1 hcrawls
  obtain ⟨found, hreferences, hfound⟩ := references_text
  refine ⟨{ c₀ with stage := .ended none } :: found.map crawlFor, ⟨[.move (.crawl 0)], ?_, ?_⟩, fun c hc => ?_⟩
  · exact answeredBy_crawls (by simp)
  · show (fetched.beside [] names).crawl 0 = _
    rw [crawl_alone hc₀ hread hcontent, hreferences, text_says.1, List.map_append]
    rfl
  · rcases List.mem_cons.1 hc with rfl | hc
    · exact Or.inl (.ended rfl)
    · obtain ⟨r, hr, rfl⟩ := List.mem_map.1 hc
      exact idle_started (hfound r hr)

/-- There is a run to the end on which all files are fetched, and the second version of the other package is kept. -/
theorem exists_run : ∃ crawls : List Crawl, Reaches stand (fresh names "https://c") { finished with map := names, crawls } ∧
    ∀ c ∈ crawls, Crawl.isOver c = true := by
  obtain ⟨hfetching, hstarting, hending⟩ := answered_stand
  obtain ⟨front, hfollowing, hidle⟩ := exists_following
  -- what is found in the text ends, but for references to the second version of the other package
  obtain ⟨events, front', hevents, hplay, -, hleft⟩ := exists_ended started.crawls hidle
  -- the rest ends when that is kept
  have hlast : ∀ c ∈ front' ++ finished.crawls, ({ finished with map := names } : Session).Idle c ∨ False := by
    intro c hc
    refine Or.inl ?_
    rcases List.mem_append.1 hc with hc | hc
    · rcases hleft c hc with hover | rfl
      · exact .ended hover
      · exact idle_finished.1
    · exact idle_finished.2 c hc
  obtain ⟨events', crawls, hevents', hplay', -, hover⟩ := exists_ended [] hlast
  rw [List.append_nil, List.append_nil] at hplay'
  refine ⟨crawls, ?_, fun c hc => (hover c hc).resolve_right id⟩
  have hfirst := reaches_beside [] (s := fresh {} "https://c") rfl hfetching.1 hfetching.2
  have hstarted := reaches_beside front (s := following) (map_play (fresh {} "https://c") fetching) hstarting.1 hstarting.2
  have hfound : Reaches stand (started.beside front names) (started.beside front' names) :=
    ⟨events, answeredBy_crawls hevents, hplay⟩
  have hfinished := reaches_beside front' ((map_play following starting).trans (map_play (fresh {} "https://c") fetching))
    hending.1 hending.2
  exact hfirst.trans (hfollowing.trans (hstarted.trans (hfound.trans (hfinished.trans
    ⟨events', answeredBy_crawls hevents', hplay'⟩))))

end Reissue

end Session

end Typings

end BareImports
