import BareImports.Proofs.Typings.Entries
import BareImports.Proofs.Typings.Files
import BareImports.Proofs.Typings.Idle
import BareImports.Proofs.Url.Join

/-!
# Declarations from another package

* `typesOf l`, `parse?_typesPackage` : the package that holds the declarations of another one, which is read back;
* `Untyped S m l` : a site has no declarations for a package in its own folder;
* `Entered S m l s` : the declaration file of a package was taken over for a reference of the project to the whole package;
* `Promised S m l s` : the declarations of such a package are looked for elsewhere, or were taken over;
* `declarations_elsewhere` : then they are among the files.
-/

namespace BareImports.Typings

open Cdn Location Text
open Build (Site)

/-! ## Packages of declarations -/

/-- The package that holds the declarations of another one. -/
def typesOf (l : Location) : Location := ⟨typesPackage l.pkg, "", ""⟩

theorem toList_typesPackage {pkg : String} (h : IsPackage pkg) : ∃ name, (typesPackage pkg).toList = typesScope.toList ++ name ∧
    name ≠ [] ∧ ∀ c ∈ name, isNameChar c = true := by
  rcases h.parts with ⟨hne, hname⟩ | ⟨scope, name, hparts, ⟨-, hscope⟩, hne, hname⟩
  · refine ⟨pkg.toList, ?_, hne, hname⟩
    unfold typesPackage
    split
    · next s hs => exact absurd (hname '@' (by rw [hs]; simp)) (by decide)
    · exact String.toList_append
  · have hslash : '/' ∉ scope := fun hmem => absurd (hscope '/' hmem) (by decide)
    refine ⟨scope ++ '_' :: '_' :: name, ?_, by simp, fun c hc => ?_⟩
    · unfold typesPackage
      rw [hparts, List.cons_append]
      split
      · next s hs =>
        obtain rfl := (List.cons.inj hs).2
        rw [cut?_append hslash]
        dsimp only
        rw [String.toList_append, String.toList_ofList]
      · next hno => exact absurd rfl (hno _)
    · rcases List.mem_append.1 hc with hc | hc
      · exact hscope c hc
      · rcases List.mem_cons.1 hc with rfl | hc
        · decide
        · rcases List.mem_cons.1 hc with rfl | hc
          · decide
          · exact hname c hc

theorem cutPackage?_scoped {scope name : List Char} (hscope : scope ≠ [] ∧ ∀ c ∈ scope, isNameChar c = true)
    (hname : name ≠ [] ∧ ∀ c ∈ name, isNameChar c = true) :
    cutPackage? ('@' :: (scope ++ '/' :: name)) = some ('@' :: (scope ++ '/' :: name), []) := by
  have hrun : run? isNameChar (scope ++ '/' :: name) = some (scope, '/' :: name) :=
    run?_append hscope.1 hscope.2 (by simp [isNameChar])
  have hrest : run? isNameChar name = some (name, []) := by
    have happend := run?_append hname.1 hname.2 (r := []) (by simp)
    rwa [List.append_nil] at happend
  simp only [cutPackage?, hrun, hrest, Option.bind_eq_bind, Option.bind_some, Option.pure_def, List.cons_append]

/-- The package that holds the declarations of another one is a package. -/
theorem isPackage_typesPackage {pkg : String} (h : IsPackage pkg) : IsPackage (typesPackage pkg) := by
  obtain ⟨name, htext, hname⟩ := toList_typesPackage h
  have hscope : typesScope.toList = '@' :: ("types".toList ++ ['/']) := by decide
  have htext' : (typesPackage pkg).toList = '@' :: ("types".toList ++ '/' :: name) := by
    rw [htext, hscope, List.cons_append, List.append_assoc, List.singleton_append]
  unfold IsPackage
  rw [htext']
  exact cutPackage?_scoped ⟨by decide, List.all_eq_true.1 (by decide)⟩ hname

theorem parse?_typesPackage {pkg : String} (h : IsPackage pkg) :
    Location.parse? (typesPackage pkg).toList = some ⟨typesPackage pkg, "", ""⟩ := (isPackage_typesPackage h).parse?

namespace Session

variable {S : Site} {s s' : Session} {c : Crawl} {t : Turn} {l e : Location} {m : Option Value}

/-! ## Packages without declarations -/

/-- A site has no declarations for a package: no version in its range, or no declaration file. -/
inductive Untyped (S : Site) (m : Option Value) (l : Location) : Prop
  /-- No version. -/
  | unresolved {f : Failure} (hf : versionIn S l.pkg (rangeIn m l) = .error f) (hx : f.isExpected = true)
  /-- No declaration file. -/
  | absent {e : Location} (he : declarationsOf S m l = .ok e) (hnone : textAt S e = none)

/-- The declaration file of a package is read for a reference of the project to the whole package, with one manifest. -/
def Entered (S : Site) (m : Option Value) (l : Location) (s : Session) : Prop :=
  ∀ c ∈ s.crawls, ∀ e whole, declarationsOf S m l = .ok e → c.stage = .declaration e whole →
    whole = true ∧ c.referrer = none ∧ c.manifest = .given m

/-- A reference of the project is in some stage. -/
def Pursues (s : Session) (m : Option Value) (P : Stage → Prop) : Prop :=
  ∃ c ∈ s.crawls, c.manifest = .given m ∧ c.referrer = none ∧ P c.stage

/-- A stage behind which the declarations of a package are looked for elsewhere. -/
inductive FallsBack (S : Site) (s : Session) (m : Option Value) (l : Location) : Stage → Prop
  /-- Its declaration file is read. -/
  | entry {e : Location} (he : declarationsOf S m l = .ok e) : FallsBack S s m l (.declaration e true)
  /-- They are looked for elsewhere. -/
  | types {stage : Stage} (h : Seeks S s m (typesOf l) stage) : FallsBack S s m l stage

/-- The declarations of a package are looked for elsewhere, or were taken over. -/
def Promised (S : Site) (m : Option Value) (l : Location) (s : Session) : Prop :=
  s.Pursues m (FallsBack S s m l) ∨
    ∃ e, declarationsOf S m (typesOf l) = .ok e ∧ e ∈ s.handled ∧ s.Rooted (typesOf l).pkg

theorem Untyped.textAt (h : Untyped S m l) (he : declarationsOf S m l = .ok e) : Typings.textAt S e = none := by
  cases h with
  | unresolved hf =>
    unfold declarationsOf at he
    rw [hf] at he
    exact absurd he (by simp [bind, Except.bind])
  | absent he' hnone =>
    obtain rfl := Except.ok.inj (he'.symm.trans he)
    exact hnone

/-- What is looked for elsewhere. -/
structure Elsewhere (S : Site) (m : Option Value) (l : Location) (map : ImportMap) (e : Location) : Prop where
  /-- It is a package. -/
  package : IsPackage l.pkg
  /-- It is no package of declarations. -/
  scope : startsWith typesScope l.pkg.toList = false
  /-- It has no declarations of its own. -/
  untyped : Untyped S m l
  /-- The package of its declarations is not mapped. -/
  unmapped : map.resolve (typesPackage l.pkg) = none
  /-- The site has the declaration file of that. -/
  typed : declarationsOf S m (typesOf l) = .ok e

theorem Elsewhere.bare (h : Elsewhere S m l s.map e) : FallsBack S s m l (fallBackStage l.pkg) := by
  unfold fallBackStage
  rw [h.scope, if_neg (by simp)]
  exact .types (.bare h.unmapped (parse?_typesPackage h.package))

theorem FallsBack.mono {stage : Stage} (h : FallsBack S s m l stage) (hmap : s'.map = s.map)
    (hroots : ∀ v, s.roots.lookup (typesOf l).pkg = some v → s'.roots.lookup (typesOf l).pkg = some v) :
    FallsBack S s' m l stage := by
  cases h with
  | entry he => exact .entry he
  | types h => exact .types (h.mono hmap hroots)

theorem FallsBack.not_isOver (h : FallsBack S s m l c.stage) : Crawl.isOver c = false := by
  generalize hstage : c.stage = stage at h
  cases h with
  | entry he =>
    unfold Crawl.isOver
    rw [hstage]
  | types h => exact (hstage ▸ h : Seeks S s m (typesOf l) c.stage).not_isOver

/-- What is promised stays so. -/
theorem Does.promised {ev : Event} (hd : s.Does ev s') (hclear : Clear S s) (hS : Settles S)
    (helse : Elsewhere S m l s.map e) (h : Promised S m l s) : Promised S m l s' := by
  have hroots : ∀ v, s.roots.lookup (typesOf l).pkg = some v → s'.roots.lookup (typesOf l).pkg = some v :=
    fun v hv => hd.lookup_roots hv
  rcases h with ⟨c, hc, hm, hreferrer, hfalls⟩ | ⟨e', he', hh, hr⟩
  swap
  · exact Or.inr ⟨e', he', hd.handled_subset hh, hr.imp hroots⟩
  rcases hd.crawls hc with hc' | ⟨i, t, log, hacts, hb, rfl, rfl⟩
  · exact Or.inl ⟨c, hc', hm, hreferrer, hfalls.mono hd.map_eq hroots⟩
  have hnew := (mem_crawls_of_turn log hb).1
  generalize hstage : t.before.stage = stage at hfalls
  cases hfalls with
  | @entry k hk =>
    cases hacts.reads hstage with
    | ask _ ha => exact Or.inl ⟨_, hnew, hm, hreferrer, ha ▸ .entry hk⟩
    | follow hl => exact absurd ((hclear.known hl).trans (helse.untyped.textAt hk)) (by simp)
    | miss hl ha =>
      refine Or.inl ⟨_, hnew, hm, hreferrer, ?_⟩
      rw [ha, if_pos rfl, declarationsOf_pkg hk]
      exact helse.bare.mono hd.map_eq hroots
  | types hseeks =>
    rw [← hstage] at hseeks
    cases hseeks.leads i log hacts hclear hS hc hm hreferrer rfl with
    | seeks h => exact Or.inl ⟨_, hnew, hm, hreferrer, .types h⟩
    | unresolved hf =>
      have htyped := helse.typed
      unfold declarationsOf at htyped
      rw [hf] at htyped
      exact absurd htyped (by simp [bind, Except.bind])
    | stumbled _ hf => exact absurd (helse.typed.symm.trans hf) (by simp)
    | met he hr hh => exact Or.inr ⟨_, he, List.mem_append_right _ hh, hr.imp hroots⟩
    | declared he hr _ hh =>
      refine Or.inr ⟨_, he, List.mem_append_left _ ?_, hr.imp hroots⟩
      rw [hh]
      exact List.mem_singleton_self _

/-- When the declaration file of a package was taken over, its declarations are promised. -/
def Keeps (S : Site) (m : Option Value) (l : Location) (s : Session) : Prop :=
  ∀ e, declarationsOf S m l = .ok e → e ∈ s.handled → Promised S m l s

theorem Does.keeps {ev : Event} (hd : s.Does ev s') (hclear : Clear S s) (hS : Settles S)
    (helse : Elsewhere S m l s.map e) (h : Keeps S m l s) (hentered : Entered S m l s') : Keeps S m l s' := by
  intro k hk hh
  by_cases hold : k ∈ s.handled
  · exact hd.promised hclear hS helse (h k hk hold)
  cases hd with
  | turn ht =>
    obtain ⟨t, log, hacts, hb, rfl⟩ := ht
    have hnew := (mem_crawls_of_turn log hb).1
    have hhandled : t.handled = some k := Option.mem_toList.1 ((List.mem_append.1 hh).resolve_right hold)
    rcases hacts.handled hhandled with (ha | ha) | ⟨content, manifest, hl, -⟩
    · exact absurd (hentered _ hnew k false hk ha).1 (by simp)
    · obtain ⟨-, hreferrer, hm⟩ := hentered _ hnew k true hk ha
      exact Or.inl ⟨_, hnew, hm, hreferrer, ha ▸ .entry hk⟩
    · exact absurd ((hclear.known hl).trans (helse.untyped.textAt hk)) (by simp)
  | _ => exact absurd hh hold

/-- A reference to such a package looks for its declaration file, or its declarations are promised. -/
theorem Does.pursued {ev : Event} (hd : s.Does ev s') (hclear : Clear S s) (hS : Settles S)
    (helse : Elsewhere S m l s.map e) (hpath : l.path.isEmpty = true) (hkeeps : Keeps S m l s)
    (h : s.Pursues m (Seeks S s m l) ∨ Promised S m l s) : s'.Pursues m (Seeks S s' m l) ∨ Promised S m l s' := by
  rcases h with ⟨c, hc, hm, hreferrer, hseeks⟩ | h
  swap
  · exact Or.inr (hd.promised hclear hS helse h)
  rcases hd.crawls hc with hc' | ⟨i, t, log, hacts, hb, rfl, rfl⟩
  · exact Or.inl ⟨c, hc', hm, hreferrer, hseeks.mono hd.map_eq fun v hv => hd.lookup_roots hv⟩
  have hnew := (mem_crawls_of_turn log hb).1
  cases hseeks.leads i log hacts hclear hS hc hm hreferrer hpath with
  | seeks h => exact Or.inl ⟨_, hnew, hm, hreferrer, h⟩
  | @unresolved f hf ha =>
    refine Or.inr (Or.inl ⟨_, hnew, hm, hreferrer, ?_⟩)
    have hx : f.isExpected = true := by
      cases helse.untyped with
      | unresolved hf' hx => exact Except.error.inj (hf.symm.trans hf') ▸ hx
      | absent he =>
        unfold declarationsOf at he
        rw [hf] at he
        exact absurd he (by simp [bind, Except.bind])
    have hafter : t.after = fallBackStage l.pkg := by
      rw [ha, unresolvedStage, hx, hpath]
      rfl
    rw [hafter]
    exact helse.bare.mono hd.map_eq fun v hv => hd.lookup_roots hv
  | stumbled hv hf =>
    cases helse.untyped with
    | unresolved hf' => exact absurd (hv.symm.trans hf') (by simp)
    | absent he => exact absurd (he.symm.trans hf) (by simp)
  | met he _ hh => exact Or.inr (hd.promised hclear hS helse (hkeeps _ he hh))
  | declared he _ ha => exact Or.inr (Or.inl ⟨_, hnew, hm, hreferrer, ha ▸ .entry he⟩)

/-- Each bare reference that is added is pursued. -/
theorem pursues_refer {P : Stage → Prop} {references : List Reference} {specifier : String}
    (hspecifier : .bare specifier ∈ references) (hP : P (.bare specifier)) : (s.take (.refer references m)).Pursues m P :=
  ⟨_, List.mem_append_right _ (List.mem_map_of_mem (List.mem_filter.2 ⟨hspecifier, rfl⟩)), rfl, rfl, hP⟩

theorem follow_nothing {i : Nat} {manifest : ManifestSource} {content : String} (h : references content = []) :
    s.follow i c l manifest content = s.stop i c none := by
  unfold follow
  rw [h]
  simp

namespace Attic

/-- The package has a manifest only; its declarations are in another package. -/
def attic : Site := serving
  [(⟨"a", "latest", "package.json"⟩, ⟨200, "https://c/a@1.0.0/package.json", "{}", none⟩),
    (⟨"a", "1.0.0", "package.json"⟩, ⟨200, "https://c/a@1.0.0/package.json", "{}", none⟩),
    (⟨"@types/a", "latest", "package.json"⟩, ⟨200, "https://c/@types/a@2.0.0/package.json", "{}", none⟩),
    (⟨"@types/a", "2.0.0", "package.json"⟩, ⟨200, "https://c/@types/a@2.0.0/package.json", "{}", none⟩),
    (⟨"@types/a", "2.0.0", "index.d.ts"⟩, ⟨200, "https://c/@types/a@2.0.0/index.d.ts", "", none⟩)]

/-- A crawl has a turn. -/
def turn (i : Nat) : Event := .move (.crawl i)

/-- A file has a turn. -/
def get (j : Nat) : Event := .move (.load j)

/-- The site answers. -/
def reply (n : Nat) (url : String) : Event := .move (.answer n (attic.cdn url))

/-- Until the file of declarations is there. -/
def search : List Event :=
  [.refer [.bare "a"] none, turn 0, turn 0, turn 0, reply 0 "https://c/a@latest/package.json", turn 0, turn 0, get 0,
    turn 0, turn 0, get 1, reply 1 "https://c/a@1.0.0/index.d.ts", get 1, turn 0, turn 0, turn 0, turn 0,
    reply 2 "https://c/@types/a@latest/package.json", turn 0, turn 0, get 2, turn 0, turn 0, get 3,
    reply 3 "https://c/@types/a@2.0.0/index.d.ts", get 3]

/-- The state in which it is read. -/
def found : Session := (fresh {} "https://c").play search

/-- The crawl that has found it. -/
def finder : Crawl := ⟨.declaration ⟨"@types/a", "2.0.0", "index.d.ts"⟩ true, .given none, none, none⟩

/-- Whether all files of declarations that are read are read for references of the project to whole packages. -/
def plain (s : Session) : Bool := s.crawls.all fun c => match c.stage, c.referrer, c.manifest with
  | .declaration _ whole, none, .given none => whole
  | .declaration _ _, _, _ => false
  | _, _, _ => true

/-- Whether the finder is the only crawl. -/
def isFinder : List Crawl → Bool
  | [⟨.declaration l true, .given none, none, none⟩] => l == ⟨"@types/a", "2.0.0", "index.d.ts"⟩
  | _ => false

/-- Whether a file is there that is empty. -/
def isBlank : Option Asset → Bool
  | some (.known (some text)) => text == ""
  | _ => false

theorem finder_found : found.crawls[0]? = some finder := by
  have hb : isFinder found.crawls = true := by decide +kernel
  unfold isFinder at hb
  split at hb
  · next l hc => rw [hc, eq_of_beq hb]; rfl
  · exact absurd hb (by simp)

theorem known_found : found.assets.lookup ⟨"@types/a", "2.0.0", "index.d.ts"⟩ = some (.known (some "")) := by
  have hb : isBlank (found.assets.lookup ⟨"@types/a", "2.0.0", "index.d.ts"⟩) = true := by decide +kernel
  unfold isBlank at hb
  split at hb
  · next text ht => rw [ht, eq_of_beq hb]
  · exact absurd hb (by simp)

/-- The file refers to nothing. -/
theorem play_visit : (fresh {} "https://c").play (search ++ [turn 0]) = found.stop 0 finder none := by
  have hcrawl : found.crawl 0 = found.stop 0 finder none :=
    (crawl_declaration finder_found rfl known_found).trans (follow_nothing references_empty)
  rw [play_concat]
  exact hcrawl

theorem entered_of_plain (hp : plain s = true) : Entered S none l s := by
  intro c hc e whole _ hstage
  have hc := List.all_eq_true.1 hp c hc
  rw [hstage] at hc
  split at hc
  · next hs hr hm =>
    obtain ⟨-, rfl⟩ := Stage.declaration.inj hs
    exact ⟨hc, hr, hm⟩
  · exact absurd hc (by simp)
  · next hno _ => exact absurd rfl (hno e whole)

theorem plain_visit {before : List Event} (hpre : before <+: search ++ [turn 0]) :
    plain ((fresh {} "https://c").play before) = true := by
  have hall : (search.inits.all fun before => plain ((fresh {} "https://c").play before)) = true ∧
    plain (found.stop 0 finder none) = true := by decide +kernel
  rcases List.prefix_concat_iff.1 hpre with rfl | hpre
  · rw [play_visit]
    exact hall.2
  · exact List.all_eq_true.1 hall.1 before ((List.mem_inits ..).2 hpre)

end Attic

end Session

end BareImports.Typings
