import BareImports.Proofs.Script.Names
import BareImports.Proofs.Typings.Beside
import BareImports.Proofs.Typings.Files

/-!
# Crawls that are about to end

* `Idle s c` : the next turn of a crawl is its last one, and it changes nothing but the crawl;
* `crawl_declaration`, `follow_eq` : a declaration file that is there is read;
* `exists_ended` : such crawls have their last turns, beside others;
* `references_eq` : a reference of a text is written in it, or a directive makes it;
* `mapping text kept` : the import map that maps all that is written in a text, but for some specifiers.
-/

namespace BareImports.Typings

open Cdn Location Text
open Build (Site)

namespace Session

variable {S : Site} {s s' : Session} {c : Crawl} {l : Location} {i : Nat} {content : String} {r : Reference}

/-- The next turn of a crawl is its last one, and it changes nothing but the crawl. -/
inductive Idle (s : Session) (c : Crawl) : Prop
  /-- It has ended. -/
  | ended (h : Crawl.isOver c = true)
  /-- Its specifier is mapped. -/
  | mapped {specifier : String} (hc : c.stage = .bare specifier) (hm : (s.map.resolve specifier).isSome = true)
  /-- The file that it names was taken over, and its version is kept. -/
  | entered {specifier : String} {l : Location} {p : PackageVersion} (hc : c.stage = .bare specifier)
      (hm : s.map.resolve specifier = none) (hl : Location.parse? specifier.toList = some l)
      (hx : Version.isExact l.version = true) (hp : l.path.isEmpty = false) (hr : c.referrer = some p)
      (hg : (s.record (some p) l.pkg l.version).graph = s.graph) (hh : declared l ∈ s.handled)
  /-- The file that it reads is empty. -/
  | read {l : Location} {whole : Bool} (hc : c.stage = .declaration l whole)
      (hl : s.assets.lookup l = some (.known (some "")))
  /-- The file that it tries was taken over. -/
  | met {l : Location} {rest : List Location} {content : String} (hc : c.stage = .relative (l :: rest))
      (hl : s.assets.lookup l = some (.known (some content))) (hh : l ∈ s.handled)

theorem graph_record_congr {p : PackageVersion} {pkg version : String} (h : s'.graph = s.graph) :
    (s'.record (some p) pkg version).graph = (s.record (some p) pkg version).graph := by
  unfold record
  dsimp only
  split
  · exact h
  · dsimp only
    rw [h]

theorem Idle.congr (h : s.Idle c) (hmap : s'.map = s.map) (hassets : s'.assets = s.assets) (hhandled : s'.handled = s.handled)
    (hgraph : s'.graph = s.graph) : s'.Idle c := by
  cases h with
  | ended h => exact .ended h
  | mapped hc hm => exact .mapped hc (by rw [hmap]; exact hm)
  | entered hc hm hl hx hp hr hg hh =>
    exact .entered hc (by rw [hmap]; exact hm) hl hx hp hr (by rw [graph_record_congr hgraph, hg, hgraph])
      (by rw [hhandled]; exact hh)
  | read hc hl => exact .read hc (by rw [hassets]; exact hl)
  | met hc hl hh => exact .met hc (by rw [hassets]; exact hl) (by rw [hhandled]; exact hh)

theorem stop_none : s.stop i c none = s.become i c (.ended none) := by
  unfold stop
  rfl

/-- A dependency with the version that is kept changes nothing. -/
theorem record_kept {p : PackageVersion} {pkg version : String} (h : (s.record (some p) pkg version).graph = s.graph) :
    s.record (some p) pkg version = s := by
  unfold record at h ⊢
  dsimp only at h ⊢
  split
  · rfl
  · next hne =>
    rw [if_neg hne] at h
    dsimp only at h
    rw [h]

/-- A specifier that names an exact version leads to that. -/
theorem crawl_exact {specifier : String} (hi : s.crawls[i]? = some c) (hc : c.stage = .bare specifier)
    (hm : s.map.resolve specifier = none) (hl : Location.parse? specifier.toList = some l)
    (hx : Version.isExact l.version = true) : s.crawl i = s.pin i c l := by
  have hv : ¬ l.version.isEmpty = true := fun hempty => by
    rw [String.isEmpty_iff.1 hempty] at hx
    exact absurd hx (by decide)
  unfold crawl
  rw [hi]
  dsimp only
  rw [hc]
  dsimp only
  rw [crawlBare, if_neg (by simp [hm]), hl]
  dsimp only
  rw [if_neg hv, withRange, if_pos hx]

/-- A file that was taken over before is left to the crawl that did. -/
theorem pin_met (hs : s.record c.referrer l.pkg l.version = s) (hp : l.path.isEmpty = false) (hh : declared l ∈ s.handled) :
    s.pin i c l = s.stop i c none := by
  unfold pin
  rw [hs, if_neg (by simp [hp])]
  exact if_pos (List.contains_iff_mem.2 hh)

/-! ## Reading a file -/

/-- The file that a crawl reads. -/
def readBy? (c : Crawl) : Option Location :=
  match c.stage with
  | .declaration l _ => some l
  | _ => none

theorem stage_of_readBy? (h : readBy? c = some l) : ∃ whole, c.stage = .declaration l whole := by
  unfold readBy? at h
  split at h
  · next whole hstage => exact ⟨whole, Option.some.inj h ▸ hstage⟩
  · exact absurd h (by simp)

/-- The content of a file that was fetched. -/
def contentOf? (s : Session) (l : Location) : Option String := (s.assets.lookup l).bind Asset.text?

theorem lookup_of_contentOf? (h : contentOf? s l = some content) : s.assets.lookup l = some (.known (some content)) := by
  obtain ⟨a, ha, htext⟩ := Option.bind_eq_some_iff.1 h
  rw [ha]
  cases a with
  | known found => exact congrArg (fun found => some (Asset.known found)) htext
  | loading w => exact absurd htext (by simp [Asset.text?])

/-- A declaration file that is there is read. -/
theorem crawl_declaration {whole : Bool} (hi : s.crawls[i]? = some c) (hc : c.stage = .declaration l whole)
    (hl : s.assets.lookup l = some (.known (some content))) :
    s.crawl i = s.follow i c l (.package ⟨l.pkg, l.version⟩) content := by
  unfold crawl
  rw [hi]
  dsimp only
  rw [hc]
  dsimp only
  unfold crawlDeclaration asset
  rw [hl]

theorem follow_eq {manifest : ManifestSource} : s.follow i c l manifest content = { s with
    crawls := s.crawls.set i { c with stage := .ended none } ++
      (references content).map (Crawl.ofReference (some l) manifest) } := by
  unfold follow
  rw [stop_none]
  rfl

theorem references_empty : references "" = [] := by
  unfold references
  rw [Script.references_empty]
  rfl

/-! ## The last turns -/

theorem crawl_idle (hi : s.crawls[i]? = some c) (h : s.Idle c) : ∃ c', Crawl.isOver c' = true ∧
    s.crawl i = { s with crawls := s.crawls.set i c' } := by
  cases h with
  | ended h =>
    refine ⟨c, h, ?_⟩
    rw [set_eq_self hi]
    unfold Crawl.isOver at h
    split at h
    · next hc => rw [crawl, hi]; dsimp only; rw [hc]
    · exact absurd h (by simp)
  | mapped hc hm =>
    refine ⟨{ c with stage := .ended none }, rfl, ?_⟩
    rw [crawl, hi]
    dsimp only
    rw [hc]
    dsimp only
    rw [crawlBare, if_pos hm, stop_none]
    rfl
  | entered hc hm hl hx hp hr hg hh =>
    refine ⟨{ c with stage := .ended none }, rfl, ?_⟩
    rw [crawl_exact hi hc hm hl hx, pin_met (by rw [hr]; exact record_kept hg) hp hh, stop_none]
    rfl
  | read hc hl =>
    refine ⟨{ c with stage := .ended none }, rfl, ?_⟩
    rw [crawl_declaration hi hc hl, follow_eq, references_empty]
    simp
  | met hc hl hh =>
    refine ⟨{ c with stage := .ended none }, rfl, ?_⟩
    rw [crawl, hi]
    dsimp only
    rw [hc]
    dsimp only
    rw [crawlRelative, asset, hl]
    dsimp only
    rw [if_pos (List.contains_iff_mem.2 hh), stop_none]
    rfl

/-- Crawls that are about to end have their last turns, beside others. -/
theorem exists_ended {P : Crawl → Prop} {front : List Crawl} (back : List Crawl) (h : ∀ c ∈ front, s.Idle c ∨ P c) :
    ∃ (events : List Event) (front' : List Crawl), (∀ e ∈ events, ∃ i, e = .move (.crawl i)) ∧
      ({ s with crawls := front ++ back } : Session).play events = { s with crawls := front' ++ back } ∧
      front'.length = front.length ∧ ∀ c ∈ front', Crawl.isOver c = true ∨ P c := by
  -- the crawls have their turns one after the other
  suffices hsome : ∀ done : List Crawl, ∃ (events : List Event) (front' : List Crawl),
      (∀ e ∈ events, ∃ i, e = .move (.crawl i)) ∧
      ({ s with crawls := done ++ (front ++ back) } : Session).play events = { s with crawls := done ++ (front' ++ back) } ∧
      front'.length = front.length ∧ ∀ c ∈ front', Crawl.isOver c = true ∨ P c from hsome []
  induction front with
  | nil => exact fun done => ⟨[], [], by simp, rfl, rfl, by simp⟩
  | cons c front ih =>
    intro done
    have hrest := ih fun d hd => h d (List.mem_cons_of_mem _ hd)
    rcases h c List.mem_cons_self with hidle | hP
    · obtain ⟨c', hc', hcrawl⟩ := crawl_idle (s := { s with crawls := done ++ (c :: front ++ back) }) (i := done.length)
        (by simp) (hidle.congr rfl rfl rfl rfl)
      obtain ⟨events, front', hevents, hplay, hlength, hover⟩ := hrest (done ++ [c'])
      refine ⟨.move (.crawl done.length) :: events, c' :: front', by simpa using hevents, ?_, by simp [hlength], ?_⟩
      · rw [play_cons]
        show (Session.crawl _ _).play events = _
        rw [hcrawl]
        simpa using hplay
      · simpa [hc'] using hover
    · obtain ⟨events, front', hevents, hplay, hlength, hover⟩ := hrest (done ++ [c])
      exact ⟨events, c :: front', hevents, by simpa using hplay, by simp [hlength], by simpa [hP] using hover⟩

/-- Turns of crawls answer no requests. -/
theorem answeredBy_crawls {events : List Event} (h : ∀ e ∈ events, ∃ i, e = .move (.crawl i)) : AnsweredBy S s events := by
  intro before n a hpre
  obtain ⟨i, hi⟩ := h _ (hpre.subset (List.mem_append_right _ (List.mem_singleton_self _)))
  exact absurd hi (by simp)

end Session

/-- The references that the directives of a text make. -/
def directed (text : String) : List Reference :=
  let ds := Script.directives text.toList
  (Script.valuesOf .types ds).filterMap Reference.ofSpecifier? ++ (Script.valuesOf .path ds).filterMap Reference.ofPath? ++
    (Script.valuesOf .lib ds).map .lib

/-- The references of a text: what is written in it, and what its directives make. -/
theorem references_eq (text : String) : ∃ found, references text = found ++ directed text ∧
    ∀ r ∈ found, ∃ x : String, x ≠ "" ∧ x.toList <:+: text.toList ∧ Reference.ofSpecifier? x = some r := by
  refine ⟨(Script.references text).imports.filterMap Reference.ofSpecifier?, ?_, fun r hr => ?_⟩
  · unfold references directed
    dsimp only
    rw [List.filterMap_append, List.append_assoc, List.append_assoc, List.append_assoc]
    rfl
  · obtain ⟨x, hx, hr⟩ := List.mem_filterMap.1 hr
    obtain ⟨hne, hinfix⟩ := Script.imports_isInfix hx
    exact ⟨x, hne, hinfix, hr⟩

/-- The reference that a specifier makes is bare, or it begins with a dot. -/
theorem ofSpecifier?_cases {x : String} {r : Reference} (h : Reference.ofSpecifier? x = some r) : r = .bare x ∨
    r = .relative x ∧ (['.', '/'] <+: x.toList ∨ ['.', '.'] <+: x.toList ∨ x = ".") := by
  unfold Reference.ofSpecifier? at h
  split at h
  · exact absurd h (by simp)
  · exact Or.inl (Option.some.inj h).symm
  · next hkind =>
    refine Or.inr ⟨(Option.some.inj h).symm, ?_⟩
    unfold Specifier.kind at hkind
    split at hkind
    · exact absurd hkind (by simp)
    · split at hkind
      · next hdot =>
        simp only [Bool.or_eq_true, beq_iff_eq, startsWith, List.isPrefixOf_iff_prefix] at hdot
        rcases hdot with ((hdot | hdot) | hdot) | hdot
        · exact Or.inl hdot
        · exact Or.inr (Or.inl ((List.prefix_append ['.', '.'] ['/']).trans hdot))
        · exact Or.inr (Or.inr (String.toList_inj.1 hdot))
        · exact Or.inr (Or.inl (hdot ▸ List.prefix_rfl))
      · exact absurd hkind (by simp)

/-! ## Specifiers that are mapped -/

/-- What is written in a text, but for the empty text. -/
def pieces (text : String) : List String :=
  text.toList.tails.flatMap fun s => (s.inits.filter fun t => t ≠ []).map String.ofList

theorem mem_pieces {text x : String} (hne : x ≠ "") (hx : x.toList <:+: text.toList) : x ∈ pieces text := by
  obtain ⟨before, after, hx⟩ := hx
  refine List.mem_flatMap.2 ⟨x.toList ++ after, ?_, List.mem_map.2 ⟨x.toList, List.mem_filter.2 ⟨?_, ?_⟩, String.ofList_toList⟩⟩
  · rw [List.mem_tails, ← hx, List.append_assoc]
    exact List.suffix_append _ _
  · rw [List.mem_inits]
    exact List.prefix_append _ _
  · simpa using hne

/-- The import map that maps all that is written in a text, but for some specifiers. -/
def mapping (text : String) (kept : List String) : ImportMap where
  exact := ((pieces text).filter fun x => !kept.contains x).map fun x => (x, "")

theorem resolve_mapping {text x : String} {kept : List String} (hne : x ≠ "") (hx : x.toList <:+: text.toList)
    (hk : x ∉ kept) : ((mapping text kept).resolve x).isSome = true := by
  have hmem : (x, "") ∈ (mapping text kept).exact :=
    List.mem_map_of_mem (List.mem_filter.2 ⟨mem_pieces hne hx, by simpa using hk⟩)
  unfold ImportMap.resolve
  rcases h : (mapping text kept).exact.lookup x with _ | target
  · exact absurd (List.lookup_eq_none_iff.1 h _ hmem) (by simp)
  · rfl

/-- A specifier that is kept is not mapped. -/
theorem resolve_mapping_of_mem {text x : String} {kept : List String} (hk : x ∈ kept) :
    (mapping text kept).resolve x = none := by
  have hnone : (mapping text kept).exact.lookup x = none := by
    refine List.lookup_eq_none_iff.2 fun e he => ?_
    obtain ⟨y, hy, rfl⟩ := List.mem_map.1 he
    have hy : y ∉ kept := by simpa using (List.mem_filter.1 hy).2
    rw [bne_iff_ne]
    rintro rfl
    exact hy hk
  unfold ImportMap.resolve
  rw [hnone]
  rfl

end BareImports.Typings
