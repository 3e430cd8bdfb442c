import BareImports.Location
import BareImports.Version
import Mathlib.Data.List.TakeDrop
import Mathlib.Data.List.TakeWhile

/-!
# Keys and the package versions that they name

* `IsPackage`: a text that is read as one package name from its beginning to its end;
* `Location.range`: the version of a location as keys write it;
* `Location.Shaped`: a location of which a key shows the package and the range;
* `Shaped.same_of_key` : shaped locations with one key have one package and one range;
* `isVersionChar_of_isExact` : an exact version has only characters of versions;
* `parse?_format`, `parse?_shaped` : a written location is read back, and what is read is shaped.
-/

namespace BareImports.Location

open Text

/-! ## Runs of characters -/

theorem run?_eq_some {p : Char → Bool} {s l r : List Char} :
    run? p s = some (l, r) ↔ l ≠ [] ∧ s.takeWhile p = l ∧ s.dropWhile p = r := by
  unfold run?
  rw [List.span_eq_takeWhile_dropWhile]
  cases h : s.takeWhile p with
  | nil => simp +contextual [eq_comm]
  | cons c l' =>
    constructor
    · intro he
      simp only [Option.some.injEq, Prod.mk.injEq] at he
      exact ⟨by rw [← he.1]; simp, he⟩
    · rintro ⟨-, he⟩
      rw [← he.1, he.2]

theorem run?_parts {p : Char → Bool} {s l r : List Char} (h : run? p s = some (l, r)) :
    s = l ++ r ∧ ∀ c ∈ l, p c = true := by
  obtain ⟨-, rfl, rfl⟩ := run?_eq_some.1 h
  exact ⟨(List.takeWhile_append_dropWhile).symm, fun c hc => List.mem_takeWhile_imp hc⟩

/-- A run is read the same in front of anything that does not go on with it. -/
theorem run?_append {p : Char → Bool} {l r : List Char} (hl : l ≠ []) (hp : ∀ c ∈ l, p c = true)
    (hr : ∀ c ∈ r.head?, p c = false) : run? p (l ++ r) = some (l, r) := by
  rw [run?_eq_some]
  refine ⟨hl, ?_, ?_⟩
  · rw [List.takeWhile_append_of_pos hp]
    cases r with
    | nil => simp
    | cons c r => simp [hr c (by simp)]
  · rw [List.dropWhile_append_of_pos hp]
    cases r with
    | nil => rfl
    | cons c r => simp [hr c (by simp)]

/-! ## Packages -/

/-- A text that is read as one package name from its beginning to its end. -/
def IsPackage (pkg : String) : Prop := cutPackage? pkg.toList = some (pkg.toList, [])

instance (pkg : String) : Decidable (IsPackage pkg) :=
  inferInstanceAs (Decidable (cutPackage? pkg.toList = some (pkg.toList, [])))

theorem cutPackage?_parts {s p r : List Char} (h : cutPackage? s = some (p, r)) : s = p ++ r := by
  unfold cutPackage? at h
  split at h
  · next s =>
    obtain ⟨⟨scope, r₁⟩, h₁, h'⟩ := Option.bind_eq_some_iff.1 h
    dsimp only at h'
    split at h'
    · next r₂ =>
      obtain ⟨⟨name, r₃⟩, h₂, h'⟩ := Option.bind_eq_some_iff.1 h'
      simp only [Option.pure_def, Option.some.injEq, Prod.mk.injEq] at h'
      obtain ⟨rfl, rfl⟩ := h'
      rw [(run?_parts h₁).1, (run?_parts h₂).1]
      simp
    · simp at h'
  · exact (run?_parts h).1

/-- A package is read the same in front of anything that does not go on with its name. -/
theorem cutPackage?_append {s p r t : List Char} (h : cutPackage? s = some (p, r))
    (ht : ∀ c ∈ t.head?, isNameChar c = false) : cutPackage? (p ++ t) = some (p, t) := by
  unfold cutPackage? at h
  split at h
  · next s =>
    obtain ⟨⟨scope, r₁⟩, h₁, h'⟩ := Option.bind_eq_some_iff.1 h
    dsimp only at h'
    split at h'
    · next r₂ =>
      obtain ⟨⟨name, r₃⟩, h₂, h'⟩ := Option.bind_eq_some_iff.1 h'
      simp only [Option.pure_def, Option.some.injEq, Prod.mk.injEq] at h'
      obtain ⟨rfl, rfl⟩ := h'
      have hscope := run?_append (run?_eq_some.1 h₁).1 (run?_parts h₁).2
        (r := '/' :: (name ++ t)) (by simp [isNameChar])
      have hname := run?_append (run?_eq_some.1 h₂).1 (run?_parts h₂).2 ht
      simp only [List.cons_append, List.append_assoc, cutPackage?, hscope, hname, Option.bind_eq_bind,
        Option.bind_some, Option.pure_def]
    · simp at h'
  · next hne =>
    obtain ⟨hl, -⟩ := run?_eq_some.1 h
    obtain ⟨rfl, hp⟩ := run?_parts h
    have hrun := run?_append hl hp ht
    cases p with
    | nil => exact absurd rfl hl
    | cons c p =>
      rw [List.cons_append] at hrun ⊢
      unfold cutPackage?
      split
      · next heq =>
        obtain ⟨rfl, -⟩ := List.cons.inj heq
        exact absurd rfl (hne (p ++ r))
      · exact hrun

theorem isPackage_of_cutPackage? {s p r : List Char} (h : cutPackage? s = some (p, r)) :
    IsPackage (String.ofList p) := by
  have := cutPackage?_append h (t := []) (by simp)
  unfold IsPackage
  rw [String.toList_ofList]
  simpa using this

/-- A package is a name, or a scope and a name. -/
theorem IsPackage.parts {pkg : String} (h : IsPackage pkg) :
    (pkg.toList ≠ [] ∧ ∀ c ∈ pkg.toList, isNameChar c = true) ∨
    ∃ scope name, pkg.toList = ('@' :: scope) ++ '/' :: name ∧ (scope ≠ [] ∧ ∀ c ∈ scope, isNameChar c = true) ∧
      name ≠ [] ∧ ∀ c ∈ name, isNameChar c = true := by
  have hrun : ∀ {s l r : List Char}, run? isNameChar s = some (l, r) → l ≠ [] ∧ ∀ c ∈ l, isNameChar c = true :=
    fun h => ⟨(run?_eq_some.1 h).1, (run?_parts h).2⟩
  unfold IsPackage at h
  generalize pkg.toList = p at h ⊢
  generalize hs : (p, ([] : List Char)) = out at h
  unfold cutPackage? at h
  split at h
  · next s =>
    obtain ⟨⟨scope, r₁⟩, h₁, h'⟩ := Option.bind_eq_some_iff.1 h
    dsimp only at h'
    split at h'
    · next r₂ =>
      obtain ⟨⟨name, r₃⟩, h₂, h'⟩ := Option.bind_eq_some_iff.1 h'
      rw [← hs] at h'
      simp only [Option.pure_def, Option.some.injEq, Prod.mk.injEq] at h'
      exact Or.inr ⟨scope, name, h'.1.symm, hrun h₁, hrun h₂⟩
    · simp at h'
  · rw [← hs] at h
    exact Or.inl (hrun h)

/-- A text splits in one way only into a package and a rest that begins with a mark. -/
theorem IsPackage.append_mark_inj {p q : String} (hp : IsPackage p) (hq : IsPackage q) {mark : Char}
    (hmark : isNameChar mark = false) {s t : List Char} (h : p.toList ++ mark :: s = q.toList ++ mark :: t) :
    p = q ∧ s = t := by
  have hp' := cutPackage?_append hp (t := mark :: s) (by simpa using hmark)
  have hq' := cutPackage?_append hq (t := mark :: t) (by simpa using hmark)
  rw [h, hq'] at hp'
  simp only [Option.some.injEq, Prod.mk.injEq, List.cons.injEq, true_and] at hp'
  exact ⟨String.toList_inj.1 hp'.1.symm, hp'.2.symm⟩

theorem IsPackage.append_inj {p q : String} (hp : IsPackage p) (hq : IsPackage q) {s t : List Char}
    (h : p.toList ++ '@' :: s = q.toList ++ '@' :: t) : p = q ∧ s = t :=
  hp.append_mark_inj hq (by decide) h

/-! ## Ranges -/

/-- The version of a location as keys write it. -/
def range (l : Location) : String := if l.version.isEmpty then defaultVersion else l.version

theorem pkgVersion_eq (l : Location) : l.pkgVersion = l.pkg ++ "@" ++ l.range := rfl

theorem not_isExact_empty : Version.isExact "" = false := by decide

theorem not_isExact_defaultVersion : Version.isExact defaultVersion = false := by decide

theorem isExact_range (l : Location) : Version.isExact l.range = Version.isExact l.version := by
  unfold range
  split
  · next h => rw [String.isEmpty_iff.1 h, not_isExact_empty, not_isExact_defaultVersion]
  · rfl

theorem range_of_isExact {l : Location} (h : Version.isExact l.version = true) : l.range = l.version := by
  unfold range
  split
  · next he => rw [String.isEmpty_iff.1 he, not_isExact_empty] at h; exact absurd h (by simp)
  · rfl

/-- A location of which a key shows the package and the range. -/
structure Shaped (l : Location) : Prop where
  /-- The package is one name. -/
  package : IsPackage l.pkg
  /-- The version ends where the path begins. -/
  version : '/' ∉ l.version.toList

theorem Shaped.range {l : Location} (h : l.Shaped) : '/' ∉ l.range.toList := by
  unfold Location.range
  split
  · decide
  · exact h.version

/-! ## Keys -/

theorem endsWith_slash (s : List Char) : endsWith "/" s = (s.getLast? == some '/') := by
  unfold endsWith
  rw [Bool.eq_iff_iff, List.isSuffixOf_iff_suffix, beq_iff_eq, List.getLast?_eq_some_iff]
  exact ⟨fun ⟨t, h⟩ => ⟨t, h.symm⟩, fun ⟨t, h⟩ => ⟨t, h.symm⟩⟩

theorem dropFinalSlash_append (s : List Char) {t : List Char} (ht : t ≠ []) :
    dropFinalSlash (s ++ t) = s ++ dropFinalSlash t := by
  unfold dropFinalSlash
  rw [endsWith_slash, endsWith_slash, List.getLast?_append, List.getLast?_eq_some_getLast ht, Option.some_or,
    List.dropLast_append_of_ne_nil ht]
  split <;> rfl

/-- What is left of a slash and a path without a final slash is nothing or still begins with the slash. -/
theorem head?_dropFinalSlash_slash (s : List Char) : ∀ c ∈ (dropFinalSlash ('/' :: s)).head?, c = '/' := by
  unfold dropFinalSlash
  intro c hc
  split at hc
  · cases s with
    | nil => simp at hc
    | cons d s => simpa using hc.symm
  · simpa using hc.symm

theorem key_toList (l : Location) : l.key.toList =
    l.pkg.toList ++ '@' :: (l.range.toList ++ dropFinalSlash ('/' :: dropLeadingSlash l.path.toList)) := by
  rw [key, String.toList_ofList, dropFinalSlash_append _ (by simp), pkgVersion_eq]
  simp

/-- Up to its first slash, what follows the package in a key is the range. -/
theorem Shaped.takeWhile_key {l : Location} (h : l.Shaped) :
    (l.range.toList ++ dropFinalSlash ('/' :: dropLeadingSlash l.path.toList)).takeWhile (· != '/') =
      l.range.toList := by
  have hall : ∀ c ∈ l.range.toList, (c != '/') = true := fun c hc => by
    rw [bne_iff_ne]
    rintro rfl
    exact h.range hc
  rw [List.takeWhile_append_of_pos hall]
  have hhead := head?_dropFinalSlash_slash (dropLeadingSlash l.path.toList)
  cases hd : dropFinalSlash ('/' :: dropLeadingSlash l.path.toList) with
  | nil => simp
  | cons c s =>
    obtain rfl : c = '/' := hhead c (by simp [hd])
    simp

/-- Locations with one key have one package and one range. -/
theorem Shaped.same_of_key {l m : Location} (hl : l.Shaped) (hm : m.Shaped) (h : l.key = m.key) :
    l.pkg = m.pkg ∧ l.range = m.range := by
  have hkey := congrArg String.toList h
  rw [key_toList, key_toList] at hkey
  obtain ⟨hpkg, hrest⟩ := hl.package.append_inj hm.package hkey
  refine ⟨hpkg, String.toList_inj.1 ?_⟩
  rw [← hl.takeWhile_key, ← hm.takeWhile_key, hrest]

theorem Shaped.pkgVersion_of_key {l m : Location} (hl : l.Shaped) (hm : m.Shaped) (h : l.key = m.key) :
    l.pkgVersion = m.pkgVersion := by
  obtain ⟨hpkg, hrange⟩ := hl.same_of_key hm h
  rw [pkgVersion_eq, pkgVersion_eq, hpkg, hrange]

theorem Shaped.isExact_of_key {l m : Location} (hl : l.Shaped) (hm : m.Shaped) (h : l.key = m.key) :
    Version.isExact l.version = Version.isExact m.version := by
  rw [← isExact_range l, ← isExact_range m, (hl.same_of_key hm h).2]

/-- A package and a range are shown by their joint text too. -/
theorem same_of_pkgVersion {l m : Location} (hl : IsPackage l.pkg) (hm : IsPackage m.pkg)
    (h : l.pkgVersion = m.pkgVersion) : l.pkg = m.pkg ∧ l.range = m.range := by
  have htext := congrArg String.toList h
  rw [pkgVersion_eq, pkgVersion_eq] at htext
  simp only [String.toList_append, List.append_assoc] at htext
  obtain ⟨hpkg, hrange⟩ := hl.append_inj hm htext
  exact ⟨hpkg, String.toList_inj.1 hrange⟩

theorem range_of_ne_empty {l : Location} (h : l.version ≠ "") : l.range = l.version := by
  unfold range
  rw [if_neg (by simpa [String.isEmpty_iff] using h)]

theorem dropLeadingSlash_eq_self {s : List Char} (h : s.head? ≠ some '/') : dropLeadingSlash s = s := by
  unfold dropLeadingSlash
  split
  · exact absurd rfl h
  · rfl

theorem dropFinalSlash_slash {s : List Char} (h : s.getLast? ≠ some '/') :
    dropFinalSlash ('/' :: s) = if s = [] then [] else '/' :: s := by
  unfold dropFinalSlash
  rw [endsWith_slash, List.getLast?_cons]
  cases hlast : s.getLast? with
  | none =>
    obtain rfl := List.getLast?_eq_none_iff.1 hlast
    rfl
  | some c =>
    have hne : s ≠ [] := by
      rintro rfl
      exact absurd hlast (by simp)
    have hc : c ≠ '/' := by
      rintro rfl
      exact h hlast
    rw [if_neg (by simpa using hc), if_neg hne]

/-- The key of a location with a version and a path that begins and ends without a slash. -/
theorem key_of_plain {pkg v p : String} (hv : v ≠ "") (hhead : p.toList.head? ≠ some '/')
    (hlast : ∃ c, p.toList.getLast? = some c ∧ c ≠ '/') :
    (⟨pkg, v, p⟩ : Location).key = pkg ++ "@" ++ v ++ "/" ++ p := by
  have hrange : (⟨pkg, v, p⟩ : Location).range = v := range_of_ne_empty hv
  have hlead : dropLeadingSlash p.toList = p.toList := dropLeadingSlash_eq_self hhead
  have hfinal : dropFinalSlash ('/' :: p.toList) = '/' :: p.toList := by
    obtain ⟨c, hc, hne⟩ := hlast
    rw [dropFinalSlash_slash (by simpa [hc] using hne), if_neg fun hnil => by simp [hnil] at hc]
  rw [← String.toList_inj, key_toList, hrange, hlead, hfinal]
  simp

/-- Shaped locations with one written form are one location. -/
theorem Shaped.eq_of_written {l m : Location} (hl : l.Shaped) (hm : m.Shaped)
    (h : l.pkg ++ "@" ++ l.version ++ "/" ++ l.path = m.pkg ++ "@" ++ m.version ++ "/" ++ m.path) : l = m := by
  have htext := congrArg String.toList h
  simp only [String.toList_append, List.append_assoc] at htext
  obtain ⟨hpkg, hrest⟩ := hl.package.append_inj hm.package htext
  have hrest : l.version.toList ++ ("/".toList ++ l.path.toList) = m.version.toList ++ ("/".toList ++ m.path.toList) :=
    hrest
  have htake : ∀ (k : Location), k.Shaped →
      (k.version.toList ++ ("/".toList ++ k.path.toList)).takeWhile (· != '/') = k.version.toList := by
    intro k hk
    rw [List.takeWhile_append_of_pos]
    · simp
    · intro c hc
      rw [bne_iff_ne]
      rintro rfl
      exact hk.version hc
  have hversion : l.version.toList = m.version.toList := by rw [← htake l hl, ← htake m hm, hrest]
  rw [hversion, List.append_cancel_left_eq] at hrest
  have hpath : l.path.toList = m.path.toList := by simpa using hrest
  obtain ⟨lp, lv, lpath⟩ := l
  obtain ⟨mp, mv, mpath⟩ := m
  simp only [String.toList_inj] at hpkg hversion hpath
  rw [hpkg, hversion, hpath]

/-! ## Exact versions -/

theorem mem_behind (mark : Char) {c : Char} {s : List Char} (h : c ∈ s) :
    c ∈ (Version.behind mark s).1 ∨ c = mark ∨ ∃ r ∈ (Version.behind mark s).2, c ∈ r := by
  unfold Version.behind
  split
  · next l r heq =>
    obtain ⟨rfl, -⟩ := cut?_eq_some heq
    simpa [or_assoc] using h
  · exact Or.inl h

theorem mem_splitOn (mark : Char) {c : Char} {s : List Char} (h : c ∈ s) : c = mark ∨ ∃ g ∈ s.splitOn mark, c ∈ g := by
  induction s with
  | nil => simp at h
  | cons x s ih =>
    rw [List.splitOn_cons_eq_if_modifyHead]
    obtain ⟨g, gs, hg⟩ := List.exists_cons_of_ne_nil (List.splitOn_ne_nil mark s)
    rw [hg] at ih ⊢
    split
    · next hx =>
      rcases List.mem_cons.1 h with rfl | h
      · exact Or.inl (by simpa using hx)
      · simpa using ih h
    · rcases List.mem_cons.1 h with rfl | h
      · exact Or.inr ⟨c :: g, by simp, by simp⟩
      · rcases ih h with hc | ⟨g', hg', hc⟩
        · exact Or.inl hc
        · rcases List.mem_cons.1 hg' with rfl | hg'
          · exact Or.inr ⟨x :: g', by simp, by simp [hc]⟩
          · exact Or.inr ⟨g', by simp [hg'], hc⟩

theorem mem_dropFinalLineFeed {c : Char} {s : List Char} (h : c ∈ s) :
    c = '\n' ∨ c ∈ Version.dropFinalLineFeed s := by
  unfold Version.dropFinalLineFeed
  split
  · next hend =>
    obtain ⟨t, rfl⟩ := List.isSuffixOf_iff_suffix.1 hend
    rw [show "\n".toList = ['\n'] from rfl] at h ⊢
    rw [List.dropLast_concat]
    simpa [or_comm] using h
  · exact Or.inr h

/-- A class that leaves out the three marks holds characters of versions only. -/
theorem isVersionChar_of_class {p : Char → Bool} (hp : p '/' = false ∧ p '\\' = false ∧ p '%' = false)
    {c : Char} (h : p c = true) : isVersionChar c = true := by
  obtain ⟨hslash, hback, hpercent⟩ := hp
  by_contra hc
  simp only [isVersionChar, Bool.not_eq_true', Bool.or_eq_true, beq_iff_eq, Bool.not_eq_false] at hc
  rcases hc with (rfl | rfl) | rfl
  · rw [hslash] at h; exact absurd h (by simp)
  · rw [hback] at h; exact absurd h (by simp)
  · rw [hpercent] at h; exact absurd h (by simp)

/-- Texts between points that pass a test have only characters of versions if the test asks for them. -/
theorem isVersionChar_of_pieces {q : List Char → Bool} {p : Char → Bool}
    (hq : ∀ s, q s = true → s.all p = true) (hp : p '/' = false ∧ p '\\' = false ∧ p '%' = false)
    {s : List Char} (h : ∀ g ∈ s.splitOn '.', q g = true) : ∀ c ∈ s, isVersionChar c = true := by
  intro c hc
  rcases mem_splitOn '.' hc with rfl | ⟨g, hg, hcg⟩
  · decide
  · exact isVersionChar_of_class hp (List.all_eq_true.1 (hq g (h g hg)) c hcg)

theorem all_isTagChar_of_isBuildId {s : List Char} (h : Version.isBuildId s = true) :
    s.all Version.isTagChar = true := by
  unfold Version.isBuildId at h
  exact (Bool.and_eq_true_iff.1 h).2

theorem all_isTagChar_of_isPreId {s : List Char} (h : Version.isPreId s = true) :
    s.all Version.isTagChar = true := by
  unfold Version.isPreId at h
  exact all_isTagChar_of_isBuildId (Bool.and_eq_true_iff.1 h).1

theorem all_isDecimalDigit_of_isNumber {s : List Char} (h : Version.isNumber s = true) :
    s.all isDecimalDigit = true := by
  unfold Version.isNumber at h
  simp only [Bool.and_eq_true] at h
  exact h.1.1.2

/-- An exact version has only characters of versions. -/
theorem isVersionChar_of_isExact {v : String} (h : Version.isExact v = true) :
    ∀ c ∈ v.toList, isVersionChar c = true := by
  intro c hc
  unfold Version.isExact at h
  simp only [Bool.and_eq_true, Option.all_eq_true] at h
  obtain ⟨⟨hcore, hpre⟩, hbuild⟩ := h
  rcases mem_dropFinalLineFeed hc with rfl | hc
  · decide
  rcases mem_behind '+' hc with hc | rfl | ⟨b, hb, hc⟩
  · rcases mem_behind '-' hc with hc | rfl | ⟨p, hp, hc⟩
    · refine isVersionChar_of_pieces (q := Version.isNumber) (fun s => all_isDecimalDigit_of_isNumber)
        (by decide) (fun g hg => ?_) c hc
      split at hcore
      · next heq =>
        simp only [Bool.and_eq_true] at hcore
        rw [heq] at hg
        simp only [List.mem_cons, List.not_mem_nil, or_false] at hg
        rcases hg with rfl | rfl | rfl
        · exact hcore.1.1
        · exact hcore.1.2
        · exact hcore.2
      · exact absurd hcore (by simp)
    · decide
    · exact isVersionChar_of_pieces (fun s => all_isTagChar_of_isPreId) (by decide)
        (List.all_eq_true.1 (hpre p hp)) c hc
  · decide
  · exact isVersionChar_of_pieces (fun s => all_isTagChar_of_isBuildId) (by decide)
      (List.all_eq_true.1 (hbuild b hb)) c hc

theorem ne_empty_of_isExact {v : String} (h : Version.isExact v = true) : v ≠ "" := by
  rintro rfl
  rw [not_isExact_empty] at h
  exact absurd h (by simp)

/-! ## Written locations are read back -/

theorem parse?_parts {s : List Char} {l : Location} (h : parse? s = some l) :
    ∃ r, cutPackage? s = some (l.pkg.toList, r) ∧
      ∃ r', cutVersion? r = some (l.version.toList, r') ∧ readPath? r' = some l.path.toList := by
  obtain ⟨⟨pkg, version, path⟩, hparts, rfl⟩ := Option.map_eq_some_iff.1 h
  obtain ⟨⟨pkg', r⟩, hpkg, hparts⟩ := Option.bind_eq_some_iff.1 hparts
  obtain ⟨⟨version', r'⟩, hversion, hparts⟩ := Option.bind_eq_some_iff.1 hparts
  obtain ⟨path', hpath, hparts⟩ := Option.bind_eq_some_iff.1 hparts
  simp only [Option.pure_def, Option.some.injEq, Prod.mk.injEq] at hparts
  obtain ⟨rfl, rfl, rfl⟩ := hparts
  exact ⟨r, by simpa using hpkg, r', by simpa using hversion, by simpa using hpath⟩

theorem cutVersion?_chars {s v r : List Char} (h : cutVersion? s = some (v, r)) :
    ∀ c ∈ v, isVersionChar c = true := by
  unfold cutVersion? at h
  split at h
  · exact (run?_parts h).2
  · simp only [Option.some.injEq, Prod.mk.injEq] at h
    rw [← h.1]
    simp

/-- What a text is read as is shaped. -/
theorem parse?_shaped {s : List Char} {l : Location} (h : parse? s = some l) : l.Shaped := by
  obtain ⟨r, hpkg, r', hversion, -⟩ := parse?_parts h
  refine ⟨?_, fun hmem => ?_⟩
  · simpa using isPackage_of_cutPackage? hpkg
  · have := cutVersion?_chars hversion _ hmem
    simp [isVersionChar] at this

/-- A line that is read with a version and a path is written from them. -/
theorem eq_of_parse? {s : List Char} {l : Location} (h : parse? s = some l) (hline : '\n' ∉ s) (hv : l.version ≠ "")
    (hp : l.path ≠ "") : s = l.pkg.toList ++ '@' :: (l.version.toList ++ '/' :: l.path.toList) := by
  obtain ⟨r, hpkg, r', hversion, hpath⟩ := parse?_parts h
  have hs := cutPackage?_parts hpkg
  have hr : r = '@' :: (l.version.toList ++ r') := by
    unfold cutVersion? at hversion
    split at hversion
    · rw [← (run?_parts hversion).1]
    · obtain ⟨hnil, -⟩ := Prod.mk.inj (Option.some.inj hversion)
      exact absurd (String.toList_eq_nil_iff.1 hnil.symm) hv
  have hr' : r' = '/' :: l.path.toList := by
    have hline' : '\n' ∉ r' := fun hc => hline (by rw [hs, hr]; simp [hc])
    unfold readPath? at hpath
    split at hpath
    · exact absurd (String.toList_eq_nil_iff.1 (Option.some.inj hpath).symm) hp
    · next t =>
      have hall : ∀ c ∈ t, (c != '\n') = true := fun c hc => by
        rw [bne_iff_ne]
        rintro rfl
        exact hline' (by simp [hc])
      rw [List.span_eq_takeWhile_dropWhile, List.takeWhile_eq_self_iff.2 hall, List.dropWhile_eq_nil_iff.2 hall] at hpath
      rw [← Option.some.inj hpath]
    · exact absurd hpath (by simp)
  rw [← hr', ← hr]
  exact hs

/-- A package alone is read back. -/
theorem IsPackage.parse? {pkg : String} (h : IsPackage pkg) : Location.parse? pkg.toList = some ⟨pkg, "", ""⟩ := by
  unfold Location.parse? parseParts?
  rw [show cutPackage? pkg.toList = some (pkg.toList, []) from h]
  simp [cutVersion?, readPath?]

/-- A package with a version and a path on one line is read back. -/
theorem parse?_format {pkg v p : String} (hpkg : IsPackage pkg) (hv : v ≠ "")
    (hchars : ∀ c ∈ v.toList, isVersionChar c = true) (hp : '\n' ∉ p.toList) :
    parse? (pkg.toList ++ '@' :: (v.toList ++ '/' :: p.toList)) = some ⟨pkg, v, p⟩ := by
  have hcut := cutPackage?_append hpkg (t := '@' :: (v.toList ++ '/' :: p.toList)) (by simp [isNameChar])
  have hne : v.toList ≠ [] := fun h => hv (String.toList_eq_nil_iff.1 h)
  have hrun := run?_append hne hchars (r := '/' :: p.toList) (by simp [isVersionChar])
  have hline : ∀ c ∈ p.toList, (c != '\n') = true := fun c hc => by
    rw [bne_iff_ne]
    rintro rfl
    exact hp hc
  have hspan : p.toList.span (· != '\n') = (p.toList, []) := by
    rw [List.span_eq_takeWhile_dropWhile, List.takeWhile_eq_self_iff.2 hline, List.dropWhile_eq_nil_iff.2 hline]
  unfold parse? parseParts?
  simp only [hcut, cutVersion?, hrun, readPath?, hspan, Option.bind_eq_bind, Option.bind_some, Option.pure_def,
    Option.map_some, List.length_nil, Nat.zero_le, if_true, String.ofList_toList]

end BareImports.Location
