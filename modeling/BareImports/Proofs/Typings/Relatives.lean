import BareImports.Proofs.Typings.Entries
import BareImports.Proofs.Typings.Files
import BareImports.Proofs.Typings.Idle

/-!
# What relative references lead to

* `targets l reference` : the files that a relative reference of a declaration file may mean, in the order of the trials;
* `Traced s found` : such files are being tried, or the first of them that is to be had is known;
* `Followed s l content` : so they are for all relative references of a file;
* `Covered s` : every file that was asked for is a manifest, or its references are followed or about to be (`covered_play`);
* `relatives_closed` : what the relative references of a file lead to is next to it, in every copy of the package version.
-/

namespace BareImports.Typings

open Cdn Text
open Build (Site)

/-- The files that a relative reference of a declaration file may mean, in the order in which they are tried. -/
def targets (l : Location) (reference : String) : List Location :=
  (candidates reference.toList).filterMap (locate? l)

theorem packageOf_of_mem_targets {l k : Location} {reference : String} (h : k ∈ targets l reference) :
    k.pkg = l.pkg ∧ k.version = l.version := by
  obtain ⟨candidate, -, hlocate⟩ := List.mem_filterMap.1 h
  exact PackageVersion.mk.inj (packageOf_locate? hlocate)

namespace Session

variable {S : Site} {s s' : Session} {c : Crawl} {t : Turn} {l k : Location} {found : List Location} {e : Event}
  {content : String} {p q : Placed} {path : String}

theorem ofReference_relative (l : Location) (manifest : ManifestSource) (reference : String) :
    Crawl.ofReference (some l) manifest (.relative reference) =
      ⟨.relative (targets l reference), manifest, none, some l.pkg⟩ := by
  simp [Crawl.ofReference, targets]

/-! ## Trying files in turn -/

/-- A file that was asked for is not to be had. -/
def Missing (s : Session) (l : Location) : Prop := (l, .known none) ∈ s.assets

/-- A file that was asked for has a content. -/
def Had (s : Session) (l : Location) (content : String) : Prop := (l, .known (some content)) ∈ s.assets

/-- Files that a relative reference may mean are being tried, or the first of them that is to be had is known. -/
inductive Traced (s : Session) : List Location → Prop
  /-- A crawl has tried some of them and is about to try the others. -/
  | trying {done rest : List Location} {c : Crawl} (hdone : ∀ k ∈ done, s.Missing k) (hc : c ∈ s.crawls)
    (hstage : c.stage = .relative rest) : Traced s (done ++ rest)
  /-- One is there, and none of those before it. -/
  | there {done rest : List Location} {k : Location} {content : String} (hdone : ∀ k ∈ done, s.Missing k)
    (hk : s.Had k content) : Traced s (done ++ k :: rest)
  /-- None is there. -/
  | nowhere {found : List Location} (hfound : ∀ k ∈ found, s.Missing k) : Traced s found

/-- What a crawl does that tries files. -/
inductive Tries (s : Session) (found : List Location) (t : Turn) : Prop
  /-- It asks for the next one. -/
  | ask (ha : t.after = .relative found)
  /-- None is left. -/
  | exhaust (h : found = [])
  /-- The next one is not to be had. -/
  | next {l : Location} {rest : List Location} (h : found = l :: rest) (hl : s.Missing l) (ha : t.after = .relative rest)
  /-- The next one is there. -/
  | there {l : Location} {rest : List Location} {content : String} (h : found = l :: rest) (hl : s.Had l content)
    (hh : l ∈ s.handled ∨ t.handled = some l)

theorem Acts.tries (h : s.Acts t) (hstage : t.before.stage = .relative found) : s.Tries found t := by
  cases h with
  | ask => exact .ask hstage
  | exhaust hc =>
    obtain rfl := Stage.relative.inj (hstage.symm.trans hc)
    exact .exhaust rfl
  | next hc hl =>
    obtain rfl := Stage.relative.inj (hstage.symm.trans hc)
    exact .next rfl (Table.mem_of_lookup hl) rfl
  | meetRelative hc hl hh =>
    obtain rfl := Stage.relative.inj (hstage.symm.trans hc)
    exact .there rfl (Table.mem_of_lookup hl) (Or.inl hh)
  | followRelative hc hl hh =>
    obtain rfl := Stage.relative.inj (hstage.symm.trans hc)
    exact .there rfl (Table.mem_of_lookup hl) (Or.inr rfl)
  | inquire hl =>
    cases hl with
    | specifier hc | manifest hc => exact absurd (hstage.symm.trans hc) (by simp)
  | enter ht | meet ht | declare ht =>
    dsimp only at hstage
    exact absurd ht (by simp [told?, hstage])
  | leave hc | seek hc | stumble hc | wait hc | unresolved hc | stumbleEntry hc | meetEntry hc | declareEntry hc
  | follow hc | miss hc => exact absurd (hstage.symm.trans hc) (by simp)

/-- What is known of a file stays known. -/
theorem Does.known {content : Option String} (hd : s.Does e s') (h : (l, .known content) ∈ s.assets) :
    (l, .known content) ∈ s'.assets := by
  cases hd with
  | turn ht =>
    obtain ⟨t, log, -, -, rfl⟩ := ht
    exact List.mem_append_left _ h
  | @load j k w log hj =>
    obtain ⟨i, hi⟩ := List.mem_iff_getElem?.1 h
    have hij : j ≠ i := by
      rintro rfl
      exact absurd (Option.some.inj (hi.symm.trans hj)) (by simp)
    exact List.mem_of_getElem? (by rw [List.getElem?_set_ne hij, hi])
  | _ => exact h

/-- Files that are tried are tried further. -/
theorem Does.traced (hd : s.Does e s') (h : s.Traced found) : s'.Traced found := by
  cases h with
  | there hdone hk => exact .there (fun k hk => hd.known (hdone k hk)) (hd.known hk)
  | nowhere hfound => exact .nowhere fun k hk => hd.known (hfound k hk)
  | @trying done rest c hdone hc hstage =>
    have hdone' : ∀ k ∈ done, s'.Missing k := fun k hk => hd.known (hdone k hk)
    rcases hd.crawls hc with hc' | ⟨i, t, log, hacts, hb, rfl, rfl⟩
    · exact .trying hdone' hc' hstage
    have hnew := (mem_crawls_of_turn log hb).1
    cases hacts.tries hstage with
    | ask ha => exact .trying hdone' hnew ha
    | exhaust hrest => exact hrest ▸ .nowhere (by simpa using hdone')
    | @next l rest' hrest hl ha =>
      subst hrest
      rw [List.append_cons]
      exact .trying (fun k hk => (List.mem_append.1 hk).elim (hdone' k) fun hk => List.mem_singleton.1 hk ▸ hd.known hl) hnew ha
    | there hrest hl => exact hrest ▸ .there hdone' (hd.known hl)

/-! ## What is asked for is followed -/

/-- The relative references of a file are followed. -/
def Followed (s : Session) (l : Location) (content : String) : Prop :=
  ∀ reference, .relative reference ∈ references content → s.Traced (targets l reference)

theorem Does.followed (hd : s.Does e s') (h : s.Followed l content) : s'.Followed l content := fun reference hmem =>
  hd.traced (h reference hmem)

/-- The crawls that a file gives rise to follow its references. -/
theorem followed_after {manifest : ManifestSource} {i : Nat} {log : List Log.Entry}
    (hs : t.spawned = (references content).map (Crawl.ofReference (some l) manifest)) :
    (s.after i t log).Followed l content := by
  intro reference hmem
  have hc : Crawl.ofReference (some l) manifest (.relative reference) ∈ (s.after i t log).crawls :=
    List.mem_append_right _ (hs ▸ List.mem_map_of_mem hmem)
  rw [ofReference_relative] at hc
  have hnone : ∀ k ∈ ([] : List Location), (s.after i t log).Missing k := fun k hk => absurd hk List.not_mem_nil
  exact .trying hnone hc rfl

/-- Whether a crawl reads a file. -/
def Reading (s : Session) (l : Location) : Prop := ∃ c ∈ s.crawls, ∃ whole, c.stage = .declaration l whole

/-- Whether a crawl tries a file next. -/
def Trying (s : Session) (l : Location) : Prop := ∃ c ∈ s.crawls, ∃ rest, c.stage = .relative (l :: rest)

/-- What was asked for is accounted for. -/
structure Covered (s : Session) : Prop where
  /-- What is read was taken over. -/
  reading : ∀ l, s.Reading l → l ∈ s.handled
  /-- What was asked for is a manifest, or it was taken over, or it is not to be had, or a crawl tries it. -/
  asked : ∀ l ∈ s.assets.map (·.1), l.path = Manifest.fileName ∨ l ∈ s.handled ∨ s.Missing l ∨ s.Trying l
  /-- What was taken over is read, or it is not to be had, or its references are followed. -/
  handled : ∀ l ∈ s.handled, s.Reading l ∨ s.Missing l ∨ ∃ content, s.Had l content ∧ s.Followed l content

/-- A file that a crawl reads behind its turn was read by it before, or it is taken over in the turn. -/
theorem Acts.declaration {whole : Bool} (h : s.Acts t) (ha : t.after = .declaration l whole) :
    t.before.stage = .declaration l whole ∨ t.handled = some l := by
  cases h with
  | ask => exact Or.inl ha
  | declare | declareEntry =>
    obtain ⟨rfl, -⟩ := Stage.declaration.inj ha
    exact Or.inr rfl
  | @unresolved c l' w f =>
    dsimp only at ha
    unfold unresolvedStage fallBackStage at ha
    repeat' split at ha
    all_goals exact absurd ha (by simp)
  | @miss c l' whole' =>
    dsimp only at ha
    unfold fallBackStage at ha
    repeat' split at ha
    all_goals exact absurd ha (by simp)
  | _ => exact absurd ha (by simp)

/-- What is read is read further, or its references are followed, or it is not to be had. -/
theorem Does.reading (hd : s.Does e s') (h : s.Reading l) :
    s'.Reading l ∨ s'.Missing l ∨ ∃ content, s'.Had l content ∧ s'.Followed l content := by
  obtain ⟨c, hc, whole, hstage⟩ := h
  rcases hd.crawls hc with hc' | ⟨i, t, log, hacts, hb, rfl, rfl⟩
  · exact Or.inl ⟨c, hc', whole, hstage⟩
  cases hacts.reads hstage with
  | ask _ ha => exact Or.inl ⟨_, (mem_crawls_of_turn log hb).1, whole, ha⟩
  | miss hl => exact Or.inr (Or.inl (hd.known (Table.mem_of_lookup hl)))
  | follow hl hs =>
    exact Or.inr (Or.inr ⟨_, hd.known (Table.mem_of_lookup hl), followed_after hs⟩)

/-- What is tried next is tried further, or it was taken over, or it is not to be had. -/
theorem Does.trying (hd : s.Does e s') (h : s.Trying l) : l ∈ s'.handled ∨ s'.Missing l ∨ s'.Trying l := by
  obtain ⟨c, hc, rest, hstage⟩ := h
  rcases hd.crawls hc with hc' | ⟨i, t, log, hacts, hb, rfl, rfl⟩
  · exact Or.inr (Or.inr ⟨c, hc', rest, hstage⟩)
  cases hacts.tries hstage with
  | ask ha => exact Or.inr (Or.inr ⟨_, (mem_crawls_of_turn log hb).1, rest, ha⟩)
  | exhaust hnil => exact absurd hnil (by simp)
  | next heq hl =>
    obtain ⟨rfl, -⟩ := List.cons.inj heq
    exact Or.inr (Or.inl (hd.known hl))
  | there heq _ hh =>
    obtain ⟨rfl, -⟩ := List.cons.inj heq
    refine Or.inl ?_
    rcases hh with hh | hh
    · exact hd.handled_subset hh
    · exact List.mem_append_left _ (Option.mem_toList.2 hh)

/-- What a crawl asks for is a manifest, or it is read, or it is tried. -/
theorem wants?_cases (hw : c.wants? = some l) : l.path = Manifest.fileName ∨ (∃ whole, c.stage = .declaration l whole) ∨
    ∃ rest, c.stage = .relative (l :: rest) := by
  unfold Crawl.wants? at hw
  split at hw
  · exact Or.inl (Option.some.inj hw ▸ rfl)
  · exact Or.inl (Option.some.inj hw ▸ rfl)
  · next hstage => exact Or.inr (Or.inl ⟨_, Option.some.inj hw ▸ hstage⟩)
  · next hstage => exact Or.inr (Or.inr ⟨_, Option.some.inj hw ▸ hstage⟩)
  · exact absurd hw (by simp)

theorem Does.covered (hd : s.Does e s') (h : s.Covered) : s'.Covered where
  reading := by
    cases hd with
    | turn ht =>
      obtain ⟨t, log, hacts, hb, rfl⟩ := ht
      rintro l ⟨c, hc, whole, hstage⟩
      rcases mem_crawls_after hc with hc | rfl | hc
      · exact List.mem_append_right _ (h.reading l ⟨c, hc, whole, hstage⟩)
      · rcases hacts.declaration hstage with hbefore | hh
        · exact List.mem_append_right _ (h.reading l ⟨_, List.mem_of_getElem? hb, whole, hbefore⟩)
        · exact List.mem_append_left _ (Option.mem_toList.2 hh)
      · obtain ⟨k, manifest, r, rfl⟩ := hacts.spawned hc
        cases r <;> exact absurd hstage (by simp [Crawl.ofReference])
    | add _ hr =>
      rintro l ⟨c, hc, whole, hstage⟩
      rcases List.mem_append.1 hc with hc | hc
      · exact h.reading l ⟨c, hc, whole, hstage⟩
      · obtain ⟨r, -, rfl⟩ := List.mem_map.1 hc
        cases r <;> exact absurd hstage (by simp [Crawl.ofReference])
    | _ => exact h.reading
  asked l hl := by
    by_cases hold : l ∈ s.assets.map (·.1)
    · rcases h.asked l hold with hpath | hh | hmissing | htrying
      · exact Or.inl hpath
      · exact Or.inr (Or.inl (hd.handled_subset hh))
      · exact Or.inr (Or.inr (Or.inl (hd.known hmissing)))
      · exact Or.inr (hd.trying htrying)
    cases hd with
    | turn ht =>
      obtain ⟨t, log, hacts, hb, rfl⟩ := ht
      obtain ⟨⟨k, a⟩, he, rfl⟩ := List.mem_map.1 hl
      rcases mem_assets_after he with he | ⟨k', hasked, heq⟩
      · exact absurd (List.mem_map_of_mem he) hold
      · obtain ⟨rfl, -⟩ := Prod.mk.inj heq
        have hd := Does.turn ⟨t, log, hacts, hb, rfl⟩
        rcases wants?_cases (hacts.asked hasked).1 with hpath | ⟨whole, hstage⟩ | ⟨rest, hstage⟩
        · exact Or.inl hpath
        · exact Or.inr (Or.inl (hd.handled_subset (h.reading k ⟨_, List.mem_of_getElem? hb, whole, hstage⟩)))
        · exact Or.inr (hd.trying ⟨_, List.mem_of_getElem? hb, rest, hstage⟩)
    | @load j k w log hj =>
      refine absurd ?_ hold
      rw [show s.assets.map (·.1) = (s.assets.set j (k, Asset.ofStatus (s.cache.resume .file w).2)).map (·.1) by
        rw [List.map_set]
        exact (set_eq_self (by rw [List.getElem?_map, hj]; rfl)).symm]
      exact hl
    | _ => exact absurd hl hold
  handled l hl := by
    by_cases hold : l ∈ s.handled
    · rcases h.handled l hold with hreading | hmissing | ⟨content, hk, hfollowed⟩
      · exact hd.reading hreading
      · exact Or.inr (Or.inl (hd.known hmissing))
      · exact Or.inr (Or.inr ⟨content, hd.known hk, hd.followed hfollowed⟩)
    cases hd with
    | turn ht =>
      obtain ⟨t, log, hacts, hb, rfl⟩ := ht
      have hd := Does.turn ⟨t, log, hacts, hb, rfl⟩
      have hnew := (mem_crawls_of_turn log hb).1
      have hhandled : t.handled = some l := Option.mem_toList.1 ((List.mem_append.1 hl).resolve_right hold)
      rcases hacts.handled hhandled with (ha | ha) | ⟨content, manifest, hk, hs⟩
      · exact Or.inl ⟨_, hnew, false, ha⟩
      · exact Or.inl ⟨_, hnew, true, ha⟩
      · exact Or.inr (Or.inr ⟨content, hd.known (Table.mem_of_lookup hk), followed_after hs⟩)
    | _ => exact absurd hl hold

theorem covered_play (map : ImportMap) (url : String) (events : List Event) : ((fresh map url).play events).Covered :=
  play_induction (P := fun _ s => s.Covered) ⟨fun l ⟨c, hc, _⟩ => absurd hc (by simp [fresh]), by simp [fresh], by simp [fresh]⟩
    (fun _ _ h hd => hd.covered h) events

/-! ## When nothing is left to do -/

theorem isOver_of_mem (hover : s.isOver = true) (hc : c ∈ s.crawls) : Crawl.isOver c = true := by
  unfold isOver at hover
  exact List.all_eq_true.1 (Bool.and_eq_true_iff.1 hover).1 c hc

theorem not_reading (hover : s.isOver = true) : ¬ s.Reading l := by
  rintro ⟨c, hc, whole, hstage⟩
  exact absurd (isOver_of_mem hover hc) (by simp [Crawl.isOver, hstage])

theorem not_trying (hover : s.isOver = true) : ¬ s.Trying l := by
  rintro ⟨c, hc, rest, hstage⟩
  exact absurd (isOver_of_mem hover hc) (by simp [Crawl.isOver, hstage])

/-- In the end the relative references of each file have been followed. -/
theorem Covered.followed (h : s.Covered) (hs : s.Sound) (hover : s.isOver = true) (hl : s.Had l content)
    (hpath : l.path ≠ Manifest.fileName) : s.Followed l content := by
  have hfound : ¬ s.Missing l := fun hmissing =>
    absurd ((hs.lookup hl).symm.trans (hs.lookup hmissing)) (by simp)
  have hh : l ∈ s.handled := by
    rcases h.asked l (List.mem_map_of_mem (f := (·.1)) hl) with hmanifest | hh | hmissing | htrying
    · exact absurd hmanifest hpath
    · exact hh
    · exact absurd hmissing hfound
    · exact absurd htrying (not_trying hover)
  rcases h.handled l hh with hreading | hmissing | ⟨content', hl', hfollowed⟩
  · exact absurd hreading (not_reading hover)
  · exact absurd hmissing hfound
  · have hsame := (hs.lookup hl).symm.trans (hs.lookup hl')
    simp only [Option.some.injEq, Asset.known.injEq] at hsame
    exact hsame ▸ hfollowed

/-- In the end, the first of the files that a site has is there. -/
theorem Traced.had (h : s.Traced found) (hm : s.Mirrors S) (hover : s.isOver = true)
    (hfirst : (found.find? fun k => (textAt S k).isSome) = some k) (hk : textAt S k = some content) : s.Had k content := by
  have hmissing : ∀ {k}, s.Missing k → ¬ (textAt S k).isSome = true := fun {k} h => by simp [← hm.known k none h]
  cases h with
  | @trying done rest c _ hc hstage => exact absurd (isOver_of_mem hover hc) (by simp [Crawl.isOver, hstage])
  | nowhere hnone =>
    exact absurd (List.find?_some hfirst) (hmissing (hnone k (List.mem_of_find?_eq_some hfirst)))
  | @there done rest k' content' hdone hk' =>
    have hknown := hm.known _ _ hk'
    rw [List.find?_append, List.find?_eq_none.2 fun k hk => by simpa using hmissing (hdone k hk), Option.none_or,
      List.find?_cons_of_pos (by simp [← hknown])] at hfirst
    obtain rfl := Option.some.inj hfirst
    obtain rfl : content' = content := Option.some.inj (hknown.trans hk)
    exact hk'

namespace Notice

/-- A text that refers to a file. -/
def text : String := "/// <reference path=\"x\" />"

/-- The file with that text. -/
def page : Location := ⟨"a", "1.0.0", "y.d.ts"⟩

/-- The file that it refers to. -/
def leaf : Location := ⟨"a", "1.0.0", "x.d.ts"⟩

/-- Both files are served. -/
def board : Site := serving
  [(page, ⟨200, "https://c/a@1.0.0/y.d.ts", text, none⟩), (leaf, ⟨200, "https://c/a@1.0.0/x.d.ts", "", none⟩)]

/-- The file has the URL of the other one in the end, which is served for itself in a folder only. -/
def moved : Site := serving
  [(page, ⟨200, "https://c/a@1.0.0/x.d.ts", text, none⟩),
    (⟨"a", "1.0.0", "x/index.d.ts"⟩, ⟨200, "https://c/a@1.0.0/x/index.d.ts", "", none⟩)]

/-- Only the project's own specifiers are not mapped. -/
def names : ImportMap := mapping text []

/-- The project refers to both files, and they are fetched. -/
def fetching (S : Site) : List Event :=
  [.refer [.bare "a@1.0.0/y.d.ts", .bare "a@1.0.0/x.d.ts"] none, .move (.crawl 0), .move (.crawl 1), .move (.crawl 0),
    .move (.load 0), .move (.answer 0 (S.cdn "https://c/a@1.0.0/y.d.ts")), .move (.load 0), .move (.crawl 1), .move (.load 1),
    .move (.answer 1 (S.cdn "https://c/a@1.0.0/x.d.ts")), .move (.load 1)]

/-- The state in which they are read. -/
def fetched (S : Site) : Session := (fresh names "https://c").play (fetching S)

/-- The files are there, and a crawl reads each of them. -/
structure Ready (s : Session) (content : String) : Prop where
  /-- The crawls. -/
  crawls : s.crawls.map readBy? = [some page, some leaf]
  /-- The text. -/
  file : contentOf? s page = some text
  /-- The content of the other file. -/
  other : contentOf? s leaf = some content
  /-- They were taken over. -/
  handled : s.handled.contains leaf = true
  /-- The import map. -/
  map : s.map = names

theorem directed_text : directed text = [.relative "./x"] := by decide +kernel

theorem mem_references_text {r : Reference} (h : r ∈ references text) : r = .relative "./x" ∨
    ∃ x : String, x ≠ "" ∧ x.toList <:+: text.toList ∧ r = .bare x := by
  obtain ⟨found, heq, hfound⟩ := references_eq text
  rw [heq, directed_text] at h
  rcases List.mem_append.1 h with h | h
  · obtain ⟨x, hne, hinfix, hr⟩ := hfound r h
    have hdot : ∀ {p : List Char}, '.' ∈ p → ¬ p <:+: text.toList := fun hmem hp =>
      absurd (hp.subset hmem) (by decide)
    rcases ofSpecifier?_cases hr with rfl | ⟨-, hp | hp | rfl⟩
    · exact Or.inr ⟨x, hne, hinfix, rfl⟩
    · exact absurd (hp.isInfix.trans hinfix) (hdot (by simp))
    · exact absurd (hp.isInfix.trans hinfix) (hdot (by simp))
    · exact absurd hinfix (hdot (by decide))
  · exact Or.inl (List.mem_singleton.1 h)

theorem reference_mem : .relative "./x" ∈ references text := by
  obtain ⟨found, heq, -⟩ := references_eq text
  rw [heq, directed_text]
  exact List.mem_append_right _ (List.mem_singleton_self _)

/-- What the file refers to was taken over, or it is mapped. -/
theorem Ready.idle (h : Ready s content) {manifest : ManifestSource} {r : Reference} (hr : r ∈ references text)
    (hl : (targets l "./x").head? = some leaf) : s.Idle (Crawl.ofReference (some l) manifest r) := by
  rcases mem_references_text hr with rfl | ⟨x, hne, hinfix, rfl⟩
  · obtain ⟨rest, hrest⟩ := List.head?_eq_some_iff.1 hl
    have hstage : (Crawl.ofReference (some l) manifest (.relative "./x")).stage = .relative (leaf :: rest) := by
      rw [ofReference_relative, hrest]
    exact .met hstage (lookup_of_contentOf? h.other) (List.contains_iff_mem.1 h.handled)
  · refine .mapped rfl ?_
    rw [h.map]
    exact resolve_mapping hne hinfix (by simp)

/-- There is a way from such a state to the end of all crawls. -/
theorem Ready.exists_ended (h : Ready s content) (hcontent : content = "" ∨ content = text) :
    ∃ events : List Event, (∀ e ∈ events, ∃ i, e = .move (.crawl i)) ∧
      (∀ c ∈ (s.play events).crawls, Crawl.isOver c = true) ∧ (s.play events).assets = s.assets ∧
      (s.play events).roots = s.roots ∧ (s.play events).graph = s.graph := by
  obtain ⟨c₀, c₁, hcrawls, h₀, h₁⟩ : ∃ c₀ c₁, s.crawls = [c₀, c₁] ∧ readBy? c₀ = some page ∧ readBy? c₁ = some leaf := by
    have hmap := h.crawls
    rcases hs : s.crawls with _ | ⟨c₀, _ | ⟨c₁, _ | ⟨c₂, rest⟩⟩⟩
    all_goals rw [hs] at hmap
    · exact absurd hmap (by simp)
    · exact absurd hmap (by simp)
    · simp only [List.map_cons, List.map_nil, List.cons.injEq, and_true] at hmap
      exact ⟨c₀, c₁, rfl, hmap.1, hmap.2⟩
    · exact absurd hmap (by simp)
  obtain ⟨whole₀, hstage₀⟩ := stage_of_readBy? h₀
  obtain ⟨whole₁, hstage₁⟩ := stage_of_readBy? h₁
  -- both files are read
  let first := (references text).map (Crawl.ofReference (some page) (.package ⟨page.pkg, page.version⟩))
  let second := (references content).map (Crawl.ofReference (some leaf) (.package ⟨leaf.pkg, leaf.version⟩))
  have hfirst : s.crawl 0 = { s with crawls := [{ c₀ with stage := .ended none }, c₁] ++ first } := by
    rw [crawl_declaration (by rw [hcrawls]; rfl) hstage₀ (lookup_of_contentOf? h.file), follow_eq, hcrawls]
    rfl
  let crawls := [{ c₀ with stage := .ended none }, { c₁ with stage := .ended none }] ++ first ++ second
  have hsecond : (s.crawl 0).crawl 1 = { s with crawls := crawls ++ [] } := by
    rw [hfirst]
    have hread := crawl_declaration (s := { s with crawls := [{ c₀ with stage := .ended none }, c₁] ++ first })
      (i := 1) (c := c₁) rfl hstage₁ (lookup_of_contentOf? h.other)
    rw [hread, follow_eq, List.append_nil]
    rfl
  have hidle : ∀ c ∈ crawls, s.Idle c ∨ False := by
    intro c hc
    refine Or.inl ?_
    rcases List.mem_append.1 hc with hc | hc
    · rcases List.mem_append.1 hc with hc | hc
      · simp only [List.mem_cons, List.not_mem_nil, or_false] at hc
        rcases hc with rfl | rfl <;> exact .ended rfl
      · obtain ⟨r, hr, rfl⟩ := List.mem_map.1 hc
        exact h.idle hr (by decide +kernel)
    · obtain ⟨r, hr, rfl⟩ := List.mem_map.1 hc
      rcases hcontent with rfl | rfl
      · rw [references_empty] at hr
        exact absurd hr (by simp)
      · exact h.idle hr (by decide +kernel)
  obtain ⟨events, ended, hevents, hplay, -, hover⟩ := Session.exists_ended [] hidle
  refine ⟨.move (.crawl 0) :: .move (.crawl 1) :: events, by simpa using hevents, ?_⟩
  have hrun : s.play (.move (.crawl 0) :: .move (.crawl 1) :: events) = { s with crawls := ended ++ [] } := by
    rw [play_cons, play_cons]
    show ((s.crawl 0).crawl 1).play events = _
    rw [hsecond, hplay]
  rw [hrun, List.append_nil]
  exact ⟨fun c hc => (hover c hc).resolve_right id, rfl, rfl, rfl⟩

theorem ready_board : Ready (fetched board) "" := by
  have hall : (fetched board).crawls.map readBy? = [some page, some leaf] ∧ contentOf? (fetched board) page = some text ∧
      contentOf? (fetched board) leaf = some "" ∧ (fetched board).handled.contains leaf = true := by decide +kernel
  exact ⟨hall.1, hall.2.1, hall.2.2.1, hall.2.2.2, map_play ..⟩

theorem ready_moved : Ready (fetched moved) text := by
  have hall : (fetched moved).crawls.map readBy? = [some page, some leaf] ∧ contentOf? (fetched moved) page = some text ∧
      contentOf? (fetched moved) leaf = some text ∧ (fetched moved).handled.contains leaf = true := by decide +kernel
  exact ⟨hall.1, hall.2.1, hall.2.2.1, hall.2.2.2, map_play ..⟩

/-- There is a run to the end in front of such a site, with the files that were fetched. -/
theorem exists_run {S : Site} (h : Ready (fetched S) content) (hcontent : content = "" ∨ content = text)
    (hfetched : answered S (fresh names "https://c") (fetching S) = true ∧
      ((fetched S).assets.any fun (_, a) => Asset.isLoading a) = false) : ∃ events,
      AnsweredBy S (fresh names "https://c") events ∧ ((fresh names "https://c").play events).isOver = true ∧
      ((fresh names "https://c").play events).assets = (fetched S).assets ∧
      ((fresh names "https://c").play events).roots = (fetched S).roots ∧
      ((fresh names "https://c").play events).graph = (fetched S).graph := by
  obtain ⟨events, hevents, hover, hassets, hroots, hgraph⟩ := h.exists_ended hcontent
  refine ⟨fetching S ++ events, answeredBy_append (answeredBy_of_answered hfetched.1) (answeredBy_crawls hevents), ?_⟩
  have hrun : (fresh names "https://c").play (fetching S ++ events) = (fetched S).play events := play_append ..
  rw [hrun]
  refine ⟨?_, hassets, hroots, hgraph⟩
  unfold isOver
  rw [hassets]
  exact Bool.and_eq_true_iff.2 ⟨List.all_eq_true.2 hover, by rw [hfetched.2]; rfl⟩

end Notice

end Session

end BareImports.Typings
