import BareImports.Proofs.Typings.Relatives
import BareImports.Proofs.Url.Segments

/-!
# Relative references stay in their package

* `Contained l k` : a file of the same package version, named by a path below its root;
* `IsRelative` : a text that is followed as a relative reference (`isRelative_of_mem_references`);
* `contained_of_mem_candidates` : whatever such a text holds, the files that it may mean are contained;
* `Sourced s` : what is tried is what a reference of a file may mean that was fetched (`sourced_play`);
* `relatives_contained` : so no file of another package version is tried, and none above the root.
-/

namespace BareImports.Typings

open Text Url

/-- A file of the same package version, named by a path below its root. -/
structure Contained (l k : Location) : Prop where
  /-- The package is the same. -/
  package : k.pkg = l.pkg
  /-- Its version is. -/
  version : k.version = l.version
  /-- The path does not begin at a root. -/
  head : k.path.toList.head? ≠ some '/'
  /-- It has no step to itself and none upwards. -/
  steps : ∀ g ∈ k.path.toList.splitOn '/', ¬ IsDots g

/-- A text that is followed as a relative reference. -/
inductive IsRelative : String → Prop
  /-- It is classified as relative. -/
  | text {x : String} (h : Specifier.kind x.toList = .relative) : IsRelative x
  /-- It is made relative, a path in a directive that looks bare. -/
  | path {x : String} (h : Specifier.kind x.toList = .bare) : IsRelative ("./" ++ x)

theorem IsRelative.head? {x : String} (h : IsRelative x) : x.toList.head? = some '.' := by
  cases h with
  | text h => exact head?_of_relative h
  | path h => simp

/-- The relative references of a text are followed as such. -/
theorem isRelative_of_mem_references {content reference : String} (h : .relative reference ∈ references content) :
    IsRelative reference := by
  unfold references at h
  dsimp only at h
  rw [List.mem_append, List.mem_append, List.mem_filterMap, List.mem_filterMap, List.mem_map] at h
  rcases h with (⟨x, -, hx⟩ | ⟨x, -, hx⟩) | ⟨x, -, hx⟩
  · unfold Reference.ofSpecifier? at hx
    split at hx
    · exact absurd hx (by simp)
    · exact absurd hx (by simp)
    · next hkind =>
      obtain rfl : x = reference := by simpa using hx
      exact .text hkind
  · unfold Reference.ofPath? at hx
    split at hx
    · exact absurd hx (by simp)
    · next hkind =>
      obtain rfl : "./" ++ x = reference := by simpa using hx
      exact .path hkind
    · next hkind =>
      obtain rfl : x = reference := by simpa using hx
      exact .text hkind
  · exact absurd hx (by simp)

/-! ## The names that are tried -/

theorem head?_dropTrailing {s : List Char} (h : s.head? = some '.') : (dropTrailing (· == '/') s).head? = some '.' := by
  obtain ⟨t, ht⟩ : dropTrailing (· == '/') s <+: s := List.rdropWhile_prefix _ s
  rcases hkept : dropTrailing (· == '/') s with _ | ⟨c, kept⟩
  · -- the dot is no slash
    have hall := List.rdropWhile_eq_nil_iff.1 hkept '.' (List.mem_of_mem_head? h)
    exact absurd hall (by decide)
  · rw [← ht, hkept] at h
    exact h

theorem head?_toDeclaration {s : List Char} (h : s.head? = some '.') : (Manifest.toDeclaration s).head? = some '.' := by
  obtain ⟨n, hstem⟩ : ∃ n, FileName.stem s = s.take n := by
    unfold FileName.stem
    split
    · exact ⟨_, rfl⟩
    · dsimp only
      split
      · exact ⟨s.length, List.take_length.symm⟩
      · exact ⟨_, rfl⟩
  unfold Manifest.toDeclaration FileName.changeExtension
  rw [hstem, List.head?_append]
  cases n with
  | zero => simp
  | succ n => rw [List.head?_take, if_neg (by simp), h, Option.some_or]

/-- The files that a relative reference may mean have relative names, too. -/
theorem head?_of_mem_candidates {reference candidate : List Char} (h : reference.head? = some '.')
    (hc : candidate ∈ candidates reference) : candidate.head? = some '.' := by
  have hbehind : ∀ {s : List Char}, s.head? = some '.' → ∀ t, (s ++ t).head? = some '.' := fun hs t => by
    rw [List.head?_append, hs, Option.some_or]
  unfold candidates at hc
  dsimp only at hc
  split at hc
  · rwa [List.mem_singleton.1 hc]
  split at hc
  · rw [List.mem_singleton.1 hc]
    exact hbehind (head?_dropTrailing h) _
  split at hc
  · simp only [List.mem_cons, List.not_mem_nil, or_false] at hc
    rcases hc with rfl | rfl
    · exact hbehind h _
    · exact hbehind h _
  split at hc
  · rw [List.mem_singleton.1 hc]
    exact head?_toDeclaration h
  · exact absurd hc (by simp)

/-- What a relative reference may mean is contained, whatever steps, queries and parameters its text has. -/
theorem contained_of_mem_candidates {reference : String} (h : IsRelative reference) {candidate : List Char}
    (hc : candidate ∈ candidates reference.toList) (l : Location) :
    ∃ k, locate? l candidate = some k ∧ resolvePath? l.path.toList candidate = some ('/' :: k.path.toList) ∧
      Contained l k := by
  obtain ⟨path, hpath, hhead, hsteps⟩ := resolvePath?_rooted l.path.toList (head?_of_mem_candidates h.head? hc)
  have htext : (String.ofList path).toList = path := String.toList_ofList
  refine ⟨{ l with path := String.ofList path }, ?_, by rw [htext, hpath], rfl, rfl, by rwa [htext], by rwa [htext]⟩
  unfold locate?
  rw [hpath]
  rfl

theorem contained_of_mem_targets {l k : Location} {reference : String} (h : IsRelative reference)
    (hk : k ∈ targets l reference) : Contained l k := by
  obtain ⟨candidate, hc, hlocate⟩ := List.mem_filterMap.1 hk
  obtain ⟨k', hk', -, hcontained⟩ := contained_of_mem_candidates h hc l
  obtain rfl := Option.some.inj (hk'.symm.trans hlocate)
  exact hcontained

namespace Session

variable {s s' : Session} {t : Turn} {c : Crawl} {l : Location} {found : List Location} {e : Event}

/-! ## What is tried -/

/-- Files that are what a reference of a fetched file may mean, but for those that were tried before. -/
def Sourced (s : Session) (found : List Location) : Prop :=
  ∃ l content reference, s.Had l content ∧ .relative reference ∈ references content ∧ found <:+ targets l reference

theorem Sourced.tail (h : s.Sourced (l :: found)) : s.Sourced found := by
  obtain ⟨k, content, reference, hk, hmem, hfound⟩ := h
  exact ⟨k, content, reference, hk, hmem, (List.suffix_cons l found).trans hfound⟩

theorem Does.sourced (hd : s.Does e s') (h : s.Sourced found) : s'.Sourced found := by
  obtain ⟨k, content, reference, hk, hmem, hfound⟩ := h
  exact ⟨k, content, reference, hd.known hk, hmem, hfound⟩

/-- A crawl that tries files behind its turn has tried them before it, perhaps after another one. -/
theorem Acts.relative (h : s.Acts t) (ha : t.after = .relative found) :
    t.before.stage = .relative found ∨ ∃ l, t.before.stage = .relative (l :: found) := by
  cases h with
  | ask => exact Or.inl ha
  | next hc =>
    obtain rfl := Stage.relative.inj ha
    exact Or.inr ⟨_, hc⟩
  | unresolved =>
    dsimp only at ha
    unfold unresolvedStage fallBackStage at ha
    repeat' split at ha
    all_goals exact absurd ha (by simp)
  | miss =>
    dsimp only at ha
    unfold fallBackStage at ha
    repeat' split at ha
    all_goals exact absurd ha (by simp)
  | _ => exact absurd ha (by simp)

/-- The crawls that are added are for the references of a file that was fetched. -/
theorem Acts.spawned_for (h : s.Acts t) (hc : c ∈ t.spawned) : ∃ l content manifest, s.Had l content ∧
    ∃ r ∈ references content, c = Crawl.ofReference (some l) manifest r := by
  cases h with
  | @follow c l whole content _ hl =>
    dsimp only at hc
    obtain ⟨r, hr, heq⟩ := List.mem_map.1 hc
    exact ⟨l, content, _, Table.mem_of_lookup hl, r, hr, heq.symm⟩
  | @followRelative c l rest content _ hl =>
    dsimp only at hc
    obtain ⟨r, hr, heq⟩ := List.mem_map.1 hc
    exact ⟨l, content, _, Table.mem_of_lookup hl, r, hr, heq.symm⟩
  | _ => exact absurd hc (by simp)

theorem Does.crawls_sourced (hd : s.Does e s') (h : ∀ c ∈ s.crawls, ∀ found, c.stage = .relative found → s.Sourced found) :
    ∀ c ∈ s'.crawls, ∀ found, c.stage = .relative found → s'.Sourced found := by
  intro c hc found hstage
  refine hd.sourced ?_
  cases hd with
  | turn ht =>
    obtain ⟨t, log, hacts, hb, rfl⟩ := ht
    rcases mem_crawls_after hc with hc | rfl | hc
    · exact h c hc found hstage
    · rcases hacts.relative hstage with hbefore | ⟨l, hbefore⟩
      · exact h _ (List.mem_of_getElem? hb) found hbefore
      · exact (h _ (List.mem_of_getElem? hb) _ hbefore).tail
    · obtain ⟨l, content, manifest, hl, r, hr, rfl⟩ := hacts.spawned_for hc
      cases r with
      | relative reference =>
        rw [ofReference_relative] at hstage
        obtain rfl := Stage.relative.inj hstage
        exact ⟨l, content, reference, hl, hr, List.suffix_rfl⟩
      | bare | lib => exact absurd hstage (by simp [Crawl.ofReference])
  | add _ hr =>
    rcases List.mem_append.1 hc with hc | hc
    · exact h c hc found hstage
    · obtain ⟨r, hmem, rfl⟩ := List.mem_map.1 hc
      cases r with
      | relative => exact absurd (hr _ hmem) (by simp [Reference.isForeign])
      | bare | lib => exact absurd hstage (by simp [Crawl.ofReference])
  | _ => exact h c hc found hstage

theorem sourced_play (map : ImportMap) (url : String) (events : List Event) :
    ∀ c ∈ ((fresh map url).play events).crawls, ∀ found, c.stage = .relative found →
      ((fresh map url).play events).Sourced found :=
  play_induction (P := fun _ s => ∀ c ∈ s.crawls, ∀ found, c.stage = .relative found → s.Sourced found)
    (by simp [fresh]) (fun _ _ h hd => hd.crawls_sourced h) events

/-- A crawl that tries files asks for no other ones. -/
theorem assets_crawl_relative {i : Nat} (hb : s.crawls[i]? = some c) (hstage : c.stage = .relative found) {k : Location}
    (hk : k ∈ (s.crawl i).assets.map (·.1)) : k ∈ s.assets.map (·.1) ∨ k ∈ found := by
  rcases s.crawl_turns i with ⟨hsame, -⟩ | ⟨t, log, hacts, hb', heq⟩
  · rw [hsame] at hk
    exact Or.inl hk
  · obtain rfl := Option.some.inj (hb.symm.trans hb')
    rw [heq] at hk
    obtain ⟨a, ha, rfl⟩ := List.mem_map.1 hk
    rcases mem_assets_after ha with ha | ⟨k, hasked, rfl⟩
    · exact Or.inl (List.mem_map_of_mem ha)
    · obtain ⟨hwants, -⟩ := hacts.asked hasked
      rcases found with _ | ⟨l, rest⟩
      · exact absurd hwants (by simp [Crawl.wants?, hstage])
      · obtain rfl : l = k := by simpa [Crawl.wants?, hstage] using hwants
        exact Or.inr List.mem_cons_self

/-- Relative references never leave their package version: whatever a text holds that is followed as one, it is resolved to
one slash and a path below the root of the package version of its file; and whatever the order of the crawls, a crawl tries
only such files, seen from a file that was fetched and has the reference. -/
theorem relatives_contained (map : ImportMap) (url : String) (events : List Event) :
    (∀ (l : Location) (reference : String), IsRelative reference → ∀ candidate ∈ candidates reference.toList,
      ∃ k, locate? l candidate = some k ∧ resolvePath? l.path.toList candidate = some ('/' :: k.path.toList) ∧
        Contained l k) ∧
    ∀ i c found, ((fresh map url).play events).crawls[i]? = some c → c.stage = .relative found →
      (∀ k ∈ (((fresh map url).play events).crawl i).assets.map (·.1),
        k ∈ ((fresh map url).play events).assets.map (·.1) ∨ k ∈ found) ∧
      ∃ l content reference, ((fresh map url).play events).Had l content ∧ .relative reference ∈ references content ∧
        found <:+ targets l reference ∧ ∀ k ∈ found, Contained l k := by
  refine ⟨fun l reference h candidate hc => contained_of_mem_candidates h hc l, fun i c found hb hstage => ?_⟩
  refine ⟨fun k hk => assets_crawl_relative hb hstage hk, ?_⟩
  obtain ⟨l, content, reference, hl, hmem, hfound⟩ := sourced_play map url events c (List.mem_of_getElem? hb) found hstage
  exact ⟨l, content, reference, hl, hmem, hfound, fun k hk =>
    contained_of_mem_targets (isRelative_of_mem_references hmem) (hfound.subset hk)⟩

/-- A reference that climbs above the root, with an empty step, parameters and a query. -/
theorem relatives_contained_climbing : IsRelative "../../..//y;v=1/z;w?q=/../x.js" ∧
    Contained ⟨"a", "1.0.0", "lib/x.d.ts"⟩ ⟨"a", "1.0.0", "y;v=1/z;w"⟩ := by
  have hrelative : IsRelative "../../..//y;v=1/z;w?q=/../x.js" := .text (by decide +kernel)
  obtain ⟨k, hk, -, hcontained⟩ := (relatives_contained ⟨[], []⟩ "https://c" []).1 ⟨"a", "1.0.0", "lib/x.d.ts"⟩
    "../../..//y;v=1/z;w?q=/../x.js" hrelative "../../..//y;v=1/z;w?q=/../x.d.ts".toList (by decide +kernel)
  have hlocate : locate? ⟨"a", "1.0.0", "lib/x.d.ts"⟩ "../../..//y;v=1/z;w?q=/../x.d.ts".toList =
      some ⟨"a", "1.0.0", "y;v=1/z;w"⟩ := by decide +kernel
  obtain rfl := Option.some.inj (hk.symm.trans hlocate)
  exact ⟨hrelative, hcontained⟩

end Session

end BareImports.Typings
