import BareImports.Proofs.Build.Play
import BareImports.Proofs.Cdn.Pinning

/-!
# Where the paths of dependencies come from

The path of a dependency is taken as a specifier, a manifest or a final URL tells it.

* `File.Specifies N map f`, `Shows N base f` : a script, a file of the CDN tells paths with property `N` only;
* `Rough N l`, `Settled N l` : a location under way and one that is to be fetched;
* `Producer.Keeps N c p` : a producer deals with such locations; `Acts.keeps`, a turn keeps that;
* `Run.Keeps N r`, `keeps_play` : so do all producers, whatever is answered, as long as what is read tells such paths.
-/

namespace BareImports.Build

open Text Cdn Location

/-! ## What tells paths -/

section

variable (N : String → Prop)

/-- The path that a specifier tells has property `N`, if it is taken as it is. Without an extension only the CDN tells
which file is meant. -/
structure Specifies (map : ImportMap) (referrer name : String) : Prop where
  /-- A path behind the name of a package. -/
  bare : Specifier.kind name.toList = .bare → map.resolve name = none → ∀ l, parse? name.toList = some l →
    FileName.extension l.path.toList ≠ [] → N l.path
  /-- A path seen from a dependency file. -/
  relative : Specifier.kind name.toList = .relative → startsWith modulesFolder referrer.toList = true →
    ∀ path l, Url.resolvePath? referrer.toList name.toList = some path →
      parse? (path.drop (modulesFolder.length + 1)) = some l →
      FileName.extension name.toList ≠ [] ∨ FileName.extension l.path.toList ≠ [] → N l.path

/-- The specifiers of a script tell paths with property `N`. -/
def File.Specifies (map : ImportMap) (f : File) : Prop :=
  ∀ imports, Script.imports f.content = .ok imports → ∀ i ∈ imports, ∀ name, i.name = some name →
    Build.Specifies N map f.name name

/-- A file of the CDN tells paths with property `N`. -/
structure Shows (base : String) (f : Fetched) : Prop where
  /-- Its final URL does. -/
  url : ∀ k, parseUrl? base f.url = some k → N k.path
  /-- As a manifest, it does. -/
  entry : ∀ m, readManifest f = .ok m → FileName.extension (Manifest.entry m).toList ≠ [] → N (Manifest.entry m)

/-- What has been fetched tells paths with property `N`. -/
def CacheTells (c : Cache) : Prop := ∀ n f, c.outcome? n = some (.ok f) → Shows N c.base f

/-- A location under way: its path has property `N` if it has an extension. -/
structure Rough (l : Location) : Prop where
  /-- The package is one name. -/
  package : IsPackage l.pkg
  /-- The path has the property if it has an extension. -/
  path : FileName.extension l.path.toList ≠ [] → N l.path

/-- A location that is to be fetched. -/
structure Settled (l : Location) : Prop where
  /-- It is shaped. -/
  shaped : l.Shaped
  /-- Its path has property `N`. -/
  path : N l.path

/-- A stage deals with such locations. -/
def Stage.Keeps (c : Cache) : Stage → Prop
  | .range l => Rough N l
  | .entry l _ => IsPackage l.pkg
  | .canonical w => ∃ l, Rough N l ∧ c.Expects l w
  | .content l _ _ => Settled N l
  | .done _ => True

/-- A producer deals with such locations. -/
def Producer.Keeps (c : Cache) : Producer → Prop
  | .dependency l | .fetching l _ => Settled N l
  | .rewriting w _ => ∀ o ∈ w.left, o.stage.Keeps N c
  | .source _ _ | .script _ _ | .ended => True

end

section Keeps

variable {N : String → Prop} {map : ImportMap} {c c' : Cache} {l m : Location}

theorem Stage.Keeps.mono {st : Stage} (h : st.Keeps N c) (he : c.Extends c') : st.Keeps N c' := by
  cases st with
  | canonical w =>
    obtain ⟨l, hl, hw⟩ := h
    exact ⟨l, hl, hw.mono he⟩
  | range l => exact h
  | entry l w => exact h
  | content l w t => exact h
  | done x => exact h

theorem Producer.Keeps.mono {p : Producer} (h : p.Keeps N c) (he : c.Extends c') : p.Keeps N c' := by
  cases p with
  | rewriting w m => exact fun o ho => (h o ho).mono he
  | source items fails => exact h
  | dependency l => exact h
  | fetching l w => exact h
  | script f m => exact h
  | ended => exact h

/-! ## Caches -/

/-- A call brings no outcome. -/
theorem CacheTells.goes (h : CacheTells N c) {g : Goal} {o : Cache × Status g} (ho : c.Goes l o) :
    CacheTells N o.1 := by
  rcases ho.started with he | ⟨k, exact, he, -⟩
  · rw [he]
    exact h
  · intro n f hf
    rw [he] at hf ⊢
    unfold Cache.outcome? at hf
    rw [Cache.getElem?_startDownload] at hf
    split at hf
    · exact absurd hf (by simp)
    · exact h n f hf

theorem CacheTells.complete (h : CacheTells N c) {n : Nat} {a : Answer}
    (ha : ∀ r, a = .ok r → r.status = 200 → Shows N c.base r.fetched) : CacheTells N (c.complete n a) := by
  by_cases hfl : ∃ d, c.downloads[n]? = some d ∧ d.outcome = none
  swap
  · rw [Cache.complete_eq_self fun d hd ho => hfl ⟨d, hd, ho⟩]
    exact h
  obtain ⟨d, hd, ho⟩ := hfl
  intro k f hf
  rw [Cache.base_complete]
  unfold Cache.outcome? at hf
  rw [Cache.getElem?_complete hd ho] at hf
  split at hf
  · obtain ⟨r, rfl, h200, rfl, -⟩ := Cache.judge_eq_ok (Option.some.inj hf)
    exact ha r rfl h200
  · exact h k f hf

/-- What was served was fetched. -/
theorem CacheTells.served (h : CacheTells N c) (hc : c.Sound) {k : String} {f : Fetched}
    (hf : c.Served k (.ok f)) : Shows N c.base f := by
  rcases hf with ⟨n, d, hd, -, ho⟩ | ⟨f', hf', hff⟩
  · exact h n f (by simp [Cache.outcome?, hd, ho])
  · obtain ⟨-, n, hn⟩ := hc.known k f' hf'
    rw [Except.ok.inj hff]
    exact h n f' hn

/-- A call for a file or a manifest that succeeds has it from a file that was fetched. -/
theorem CacheTells.answers (h : CacheTells N c) (hc : c.Sound) {g : Goal} (hg : ∀ m, g.immediate? m = none)
    {a : g.Result} (ha : c.Answers l g (.ok a)) : ∃ f, Shows N c.base f ∧ g.finish c.base (.ok f) = .ok a := by
  generalize hr : Except.ok a = r at ha
  cases ha with
  | served hm hserved =>
    obtain ⟨f, rfl⟩ := Session.finish_eq_ok hr.symm
    exact ⟨f, h.served hc hserved, rfl⟩
  | immediate _ _ ha =>
    rw [hg] at ha
    exact absurd ha (by simp)

/-- A version that is known has no slash. -/
theorem version_of_resolves (h : c.Resolves l m) : '/' ∉ m.version.toList := by
  cases h with
  | exact he =>
    intro hmem
    have hchar := isVersionChar_of_isExact he _ hmem
    simp [isVersionChar] at hchar
  | pinned hx hn hv =>
    obtain ⟨f, k, -, hk, rfl⟩ := Cache.versionOf?_eq_some hv
    exact (Cache.parseUrl?_shaped hk).version

/-- The exact version and concrete path that a call comes to are those of a location to be fetched. -/
theorem CacheTells.answers_location (h : CacheTells N c) (hc : c.Sound) (hl : Rough N l) {k : Location}
    (ha : c.Answers l .location (.ok k)) : Settled N k := by
  generalize hr : (Except.ok k : Except Failure (Goal.Result .location)) = r at ha
  cases ha with
  | served hm hserved =>
    obtain ⟨f, rfl⟩ := Session.finish_eq_ok hr.symm
    have hread : readUrl c.base f.url = .ok k := hr.symm
    unfold readUrl at hread
    split at hread
    · next k' hk' =>
      obtain rfl := Except.ok.inj hread
      exact ⟨Cache.parseUrl?_shaped hk', (h.served hc hserved).url _ hk'⟩
    · exact absurd hread (by simp)
  | @immediate m m' a hm hm' ha =>
    obtain rfl := Except.ok.inj hr
    -- the path of the location has an extension
    unfold Goal.immediate? at ha
    dsimp only at ha
    split at ha
    swap
    · exact absurd ha (by simp)
    next hext =>
    obtain rfl := Option.some.inj ha
    obtain ⟨hpkg, hpath⟩ := Cache.Reaches.package (hm.tail hm')
    refine ⟨⟨?_, version_of_resolves hm'⟩, ?_⟩
    · rw [hpkg]
      exact hl.package
    · rw [hpath] at hext ⊢
      exact hl.path (by simpa using hext)

/-! ## Stages -/

theorem keeps_withPath (referrer : String) (hl : Rough N l) : (Stage.withPath referrer l).Keeps N c := by
  unfold Stage.withPath
  split
  · exact ⟨l, hl, .turn⟩
  · next h =>
    simp only [Bool.or_eq_true, Bool.not_eq_true', not_or, Bool.not_eq_false, List.isEmpty_iff] at h
    obtain ⟨hext, hexact⟩ := h
    exact ⟨⟨hl.package, version_of_resolves (c := c) (l := l) (.exact hexact)⟩, hl.path hext⟩

theorem keeps_withVersion (referrer : String) (hl : Rough N l) : (Stage.withVersion referrer l).Keeps N c := by
  unfold Stage.withVersion
  split
  · exact hl.package
  · exact keeps_withPath referrer hl

theorem keeps_ofBare (referrer : String) {specifier : String} (ranged : Bool)
    (h : ∀ l, parse? specifier.toList = some l → Rough N l) : (Stage.ofBare referrer specifier ranged).Keeps N c := by
  unfold Stage.ofBare
  split
  · exact trivial
  · next l hl =>
    have hrough := h l hl
    split
    · exact keeps_withVersion referrer hrough
    · split
      · exact hrough
      · exact keeps_withVersion referrer ⟨hrough.package, hrough.path⟩

theorem keeps_ofRelative {referrer specifier : String} (h : Specifies N map referrer specifier)
    (hkind : Specifier.kind specifier.toList = .relative) (hfolder : startsWith modulesFolder referrer.toList = true) :
    (Stage.ofRelative referrer specifier).Keeps N c := by
  unfold Stage.ofRelative
  rcases hpath : Url.resolvePath? referrer.toList specifier.toList with _ | path
  · exact trivial
  have htells := h.relative hkind hfolder path
  dsimp only
  split
  · apply keeps_ofBare
    intro l hl
    rw [String.toList_ofList] at hl
    exact ⟨(parse?_shaped hl).package, fun hext => htells l hpath hl (Or.inr hext)⟩
  · next hext =>
    split
    · exact trivial
    · next l hl => exact ⟨parse?_shaped hl, htells l hpath hl (Or.inl (by simpa using hext))⟩

theorem keeps_ofSpecifier {referrer specifier : String} (h : Specifies N map referrer specifier) :
    (Stage.ofSpecifier map referrer specifier).Keeps N c := by
  unfold Stage.ofSpecifier
  split
  · exact trivial
  · next hkind =>
    split
    · exact trivial
    · next hmap =>
      apply keeps_ofBare
      intro l hl
      exact ⟨(parse?_shaped hl).package, h.bare hkind hmap l hl⟩
  · next hkind =>
    split
    · next hfolder => exact keeps_ofRelative h hkind hfolder
    · exact trivial

/-- A step of a stage keeps it to such locations, and what it finds is one. -/
theorem Stage.Keeps.step {st st' : Stage} (h : st.Keeps N c) (hst : st.Stands c) (hc : c.Sound)
    (ht : CacheTells N c) {referrer : String} {known : Option (Option Value)} {found : Option Location}
    (hs : st.step referrer known c = (c', st', found)) :
    CacheTells N c' ∧ st'.Keeps N c' ∧ ∀ l, found = some l → Settled N l := by
  cases st with
  | range l =>
    have hl : Rough N l := h
    unfold Stage.step at hs
    dsimp only at hs
    split at hs
    · obtain ⟨rfl, rfl, rfl⟩ := by simpa using hs
      exact ⟨ht, h, by simp⟩
    · obtain ⟨rfl, rfl, rfl⟩ := by simpa using hs
      exact ⟨ht, keeps_withVersion referrer ⟨hl.package, hl.path⟩, by simp⟩
  | entry l w =>
    have hgoes := Cache.resume_goes (g := .manifest) hc hst
    unfold Stage.step at hs
    dsimp only at hs
    split at hs
    · next c₁ w₁ hr =>
      rw [hr] at hgoes
      obtain ⟨rfl, rfl, rfl⟩ := by simpa using hs
      exact ⟨ht.goes hgoes, h, by simp⟩
    · next c₁ m hr =>
      rw [hr] at hgoes
      obtain ⟨rfl, rfl, rfl⟩ := by simpa using hs
      have ht' := ht.goes hgoes
      obtain ⟨f, hf, hm⟩ := ht'.answers (hgoes.sound hc) (fun _ => rfl) hgoes.stands
      exact ⟨ht', keeps_withPath referrer ⟨h, hf.entry m hm⟩, by simp⟩
    · next c₁ e hr =>
      rw [hr] at hgoes
      obtain ⟨rfl, rfl, rfl⟩ := by simpa using hs
      exact ⟨ht.goes hgoes, trivial, by simp⟩
  | canonical w =>
    obtain ⟨l, hl, hw⟩ := h
    have hgoes := Cache.resume_goes (g := .location) hc hw
    unfold Stage.step at hs
    dsimp only at hs
    split at hs
    · next c₁ w₁ hr =>
      rw [hr] at hgoes
      obtain ⟨rfl, rfl, rfl⟩ := by simpa using hs
      exact ⟨ht.goes hgoes, ⟨l, hl, hgoes.stands⟩, by simp⟩
    · next c₁ k hr =>
      rw [hr] at hgoes
      obtain ⟨rfl, rfl, rfl⟩ := by simpa using hs
      have ht' := ht.goes hgoes
      exact ⟨ht', ht'.answers_location (hgoes.sound hc) hl hgoes.stands, by simp⟩
    · next c₁ e hr =>
      rw [hr] at hgoes
      obtain ⟨rfl, rfl, rfl⟩ := by simpa using hs
      exact ⟨ht.goes hgoes, trivial, by simp⟩
  | content l w t =>
    have hgoes := Cache.resume_goes (g := .file) hc hst
    unfold Stage.step at hs
    dsimp only at hs
    split at hs
    · next c₁ w₁ hr =>
      rw [hr] at hgoes
      obtain ⟨rfl, rfl, rfl⟩ := by simpa using hs
      exact ⟨ht.goes hgoes, h, by simp⟩
    · next c₁ f hr =>
      rw [hr] at hgoes
      obtain ⟨rfl, rfl, rfl⟩ := by simpa using hs
      refine ⟨ht.goes hgoes, trivial, fun l' hl' => ?_⟩
      obtain rfl := Option.some.inj hl'
      exact h
    · next c₁ e hr =>
      rw [hr] at hgoes
      obtain ⟨rfl, rfl, rfl⟩ := by simpa using hs
      exact ⟨ht.goes hgoes, trivial, by simp⟩
  | done x =>
    obtain ⟨rfl, rfl, rfl⟩ := by simpa [Stage.step] using hs
    exact ⟨ht, trivial, by simp⟩

/-- Fetching a manifest brings no outcome. -/
theorem CacheTells.load (ht : CacheTells N c) {m m' : ManifestSource} (h : m.Stands c) (hc : c.Sound)
    {needed : Bool} (hm : Run.load c needed m = (c', m')) : CacheTells N c' := by
  cases m with
  | loading w =>
    obtain ⟨l, hl⟩ := h
    have hgoes := Cache.resume_goes (g := .manifest) hc hl
    unfold Run.load at hm
    dsimp only at hm
    split at hm
    · split at hm
      · next hr =>
        rw [hr] at hgoes
        obtain ⟨rfl, rfl⟩ := Prod.mk.inj hm
        exact ht.goes hgoes
      · next hr =>
        rw [hr] at hgoes
        obtain ⟨rfl, rfl⟩ := Prod.mk.inj hm
        exact ht.goes hgoes
    · obtain ⟨rfl, rfl⟩ := Prod.mk.inj hm
      exact ht
  | project =>
    obtain ⟨rfl, rfl⟩ := Prod.mk.inj hm
    exact ht
  | known m =>
    obtain ⟨rfl, rfl⟩ := Prod.mk.inj hm
    exact ht

/-! ## Turns -/

theorem keeps_start {f : File} (h : f.Specifies N map) {imports : List Script.Import}
    (hi : Script.imports f.content = .ok imports) : ∀ o ∈ (Rewriting.start map f imports).left, o.stage.Keeps N c := by
  intro o ho
  obtain ⟨i, hmem, ho⟩ := List.mem_filterMap.1 ho
  obtain ⟨name, hname, rfl⟩ := Option.map_eq_some_iff.1 ho
  exact keeps_ofSpecifier (h imports hi i (List.mem_reverse.1 hmem) name hname)

/-- A turn of a producer that deals with such locations, if a script that it reads tells such paths. -/
theorem Run.Acts.keeps {r : Run} {t : Turn} (h : r.Acts t) (hc : r.cache.Sound) (hb : t.before.Stands r.cache)
    (ht : CacheTells N r.cache) (hk : t.before.Keeps N r.cache)
    (hscript : ∀ f m, t.before = .script f m → f.Specifies N r.map) :
    CacheTells N t.cache ∧ t.after.Keeps N t.cache ∧ ∀ p, t.child = some p → p.Keeps N t.cache := by
  cases h with
  | finish => exact ⟨ht, trivial, by simp⟩
  | report => exact ⟨ht, trivial, by simp⟩
  | read hs =>
    refine ⟨ht, trivial, fun p hp => ?_⟩
    obtain rfl := Option.some.inj hp
    exact trivial
  | manifest => exact ⟨ht, trivial, by simp⟩
  | crash => exact ⟨ht, trivial, by simp⟩
  | copy => exact ⟨ht, trivial, by simp⟩
  | known h => exact ⟨ht, trivial, by simp⟩
  | begin h => exact ⟨ht, hk, by simp⟩
  | @wait l w w' c h =>
    have hgoes := Cache.resume_goes (g := .file) hc hb
    rw [h] at hgoes
    exact ⟨ht.goes hgoes, hk, by simp⟩
  | @missing l w c e h =>
    have hgoes := Cache.resume_goes (g := .file) hc hb
    rw [h] at hgoes
    exact ⟨ht.goes hgoes, trivial, by simp⟩
  | @found l w c f h =>
    have hgoes := Cache.resume_goes (g := .file) hc hb
    rw [h] at hgoes
    exact ⟨ht.goes hgoes, trivial, by simp⟩
  | parse h => exact ⟨ht, keeps_start (hscript _ _ rfl) h, by simp⟩
  | fault h => exact ⟨ht, trivial, by simp⟩
  | give h => exact ⟨ht, trivial, by simp⟩
  | @settle w w' m o h =>
    obtain ⟨-, first, hleft⟩ := Run.settle?_left h
    refine ⟨ht, fun o ho => hk o ?_, by simp⟩
    rw [hleft]
    exact List.mem_cons_of_mem _ ho
  | @resolve w m m' k o c c' st l hget hm hs =>
    obtain ⟨hm₁, -⟩ := hb.1.load hc hm
    have hstands := (hb.2 o (List.mem_of_getElem? hget)).mono hm₁.grows
    have hkeeps := Stage.Keeps.mono (hk o (List.mem_of_getElem? hget)) hm₁.grows
    obtain ⟨ht', hst, hfound⟩ := hkeeps.step hstands hm₁.sound (ht.load hb.1 hc hm) hs
    have hgrows := hm₁.grows.trans (hstands.step hm₁.sound hs).1.grows
    refine ⟨ht', fun o' ho' => ?_, fun p hp => ?_⟩
    · rcases List.mem_or_eq_of_mem_set ho' with ho' | rfl
      · exact Stage.Keeps.mono (hk o' ho') hgrows
      · exact hst
    · obtain ⟨l', hl', rfl⟩ := Option.map_eq_some_iff.1 hp
      exact hfound l' hl'

end Keeps

/-! ## Runs -/

namespace Run

/-- All producers deal with such locations, and the files that were fetched tell such paths. -/
structure Keeps (N : String → Prop) (r : Run) : Prop where
  /-- The producers. -/
  producers : ∀ p ∈ r.producers, p.Keeps N r.cache
  /-- The files that were fetched. -/
  cache : CacheTells N r.cache

variable {N : String → Prop} {r r' : Run}

theorem Turns.keeps {i : Nat} {t : Turn} (h : r.Turns i t r') (hs : r.Sound) (hk : r.Keeps N)
    (hscript : ∀ f m, .script f m ∈ r.producers → f.Specifies N r.map) : r'.Keeps N := by
  obtain ⟨hcache, hafter, hchild⟩ := h.acts.keeps hs.cache (hs.stands _ h.mem_before) hk.cache
    (hk.producers _ h.mem_before) fun f m hf => hscript f m (hf ▸ h.mem_before)
  have hgrows := (h.acts.stands hs.cache (hs.stands _ h.mem_before)).1.grows
  refine ⟨fun p hp => ?_, ?_⟩
  · rw [h.cache]
    rcases h.mem_cases hp with hp | rfl | hp
    · exact (hk.producers p hp).mono hgrows
    · exact hafter
    · exact hchild p hp
  · rw [h.cache]
    exact hcache

/-- A move keeps all producers to such locations, if the scripts and the file that it brings tell such paths. -/
theorem Does.keeps {m : Move} (h : r.Does m r') (hs : r.Sound) (hk : r.Keeps N)
    (hscript : ∀ f m, .script f m ∈ r.producers → f.Specifies N r.map)
    (ha : ∀ n x, m = .answer n (.ok x) → x.status = 200 → Shows N r.cache.base x.fetched) : r'.Keeps N := by
  cases h with
  | turn h => exact h.keeps hs hk hscript
  | rest => exact hk
  | answer n a =>
    refine ⟨fun p hp => (hk.producers p hp).mono .complete, hk.cache.complete fun x hx => ha n x ?_⟩
    rw [hx]
  | take h => exact ⟨hk.producers, hk.cache⟩

theorem Does.grows {m : Move} (h : r.Does m r') (hs : r.Sound) : r.cache.Extends r'.cache := by
  cases h with
  | turn h =>
    rw [h.cache]
    exact (h.acts.stands hs.cache (hs.stands _ h.mem_before)).1.grows
  | rest => exact .refl _
  | answer n a => exact .complete
  | take h => exact .refl _

theorem Does.map {m : Move} (h : r.Does m r') : r'.map = r.map := by
  cases h with
  | turn h => exact h.map
  | rest => rfl
  | answer n a => rfl
  | take h => rfl

theorem Sound.grows_play (hs : r.Sound) (ms : List Move) : r.cache.Extends (r.play ms).cache := by
  induction ms using List.reverseRecOn with
  | nil => exact .refl _
  | append_singleton ms m ih =>
    rw [play_concat]
    exact ih.trans ((step_cases _ m).grows (hs.play ms))

theorem map_play (r : Run) (ms : List Move) : (r.play ms).map = r.map := by
  induction ms using List.reverseRecOn with
  | nil => rfl
  | append_singleton ms m ih =>
    rw [play_concat]
    exact (step_cases _ m).map.trans ih

/-! ## The past of a producer -/

/-- Producer `i` was this one at some time in some moves. -/
def Was (r : Run) (ms : List Move) (i : Nat) (p : Producer) : Prop :=
  ∃ before, before <+: ms ∧ (r.play before).producers[i]? = some p

variable {ms : List Move}

theorem Was.mono {i : Nat} {p : Producer} {ms' : List Move} (h : r.Was ms i p) (hms : ms <+: ms') : r.Was ms' i p := by
  obtain ⟨before, hbefore, hp⟩ := h
  exact ⟨before, hbefore.trans hms, hp⟩

theorem was_of_mem {p : Producer} (h : p ∈ (r.play ms).producers) : ∃ i, r.Was ms i p := by
  obtain ⟨i, hi⟩ := List.mem_iff_getElem?.1 h
  exact ⟨i, ms, List.prefix_rfl, hi⟩

/-- After any moves all producers deal with such locations, if the scripts that are read and the answers tell such paths. -/
theorem keeps_play (hs : r.Sound) (hk : r.Keeps N) (ms : List Move)
    (hscript : ∀ i f m, r.Was ms i (.script f m) → f.Specifies N r.map)
    (ha : ∀ n x, .answer n (.ok x) ∈ ms → x.status = 200 → Shows N r.cache.base x.fetched) :
    (r.play ms).Keeps N := by
  induction ms using List.reverseRecOn with
  | nil => exact hk
  | append_singleton ms m ih =>
    have hms : ms <+: ms ++ [m] := List.prefix_append ms [m]
    have hbefore := ih (fun i f m' hf => hscript i f m' (hf.mono hms)) fun n x hx => ha n x (List.mem_append_left _ hx)
    rw [play_concat]
    refine (step_cases _ m).keeps (hs.play ms) hbefore (fun f m' hf => ?_) fun n x hm h200 => ?_
    · obtain ⟨i, hi⟩ := was_of_mem hf
      rw [map_play]
      exact hscript i f m' (hi.mono hms)
    · rw [(hs.grows_play ms).base]
      exact ha n x (by simp [hm]) h200

end Run

end BareImports.Build
