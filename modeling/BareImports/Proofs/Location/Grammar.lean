import BareImports.Cdn.Cache
import BareImports.Proofs.Location.Key
import Mathlib.Data.List.Basic

/-!
# The grammar of specifiers

* `Spelling` : the parts of a text `[@scope/]name[@version][/path]`, `Spelling.text` the text that they make and
  `Spelling.location` the location that it names;
* `parse?_text` : the text of every spelling is read; `exists_spelling` : nothing else is;
* `text_injective` : a text has one spelling;
* `parse?_key` : the key of a location with a version and a path without slashes at its ends is read back;
* `parse?_grammar` : all of this.
-/

namespace BareImports.Location

open Text

/-! ## Spellings -/

/-- A scope or a name. -/
def IsWord (w : List Char) : Prop := w ≠ [] ∧ ∀ c ∈ w, c ∉ ['/', '\\', '%', '@']

/-- A version. -/
def IsTag (v : List Char) : Prop := v ≠ [] ∧ ∀ c ∈ v, c ∉ ['/', '\\', '%']

-- by the characters of the text, and not by all there are
instance (w : List Char) : Decidable (IsWord w) := @instDecidableAnd _ _ inferInstance (List.decidableBAll _ w)

instance (v : List Char) : Decidable (IsTag v) := @instDecidableAnd _ _ inferInstance (List.decidableBAll _ v)

/-- The parts of a text `[@scope/]name[@version][/path]`, which a line feed may end if it has a path. -/
@[ext]
structure Spelling where
  /-- The scope, if there is one. -/
  scope? : Option (List Char)
  /-- The name. -/
  name : List Char
  /-- The version, if there is one. -/
  version? : Option (List Char)
  /-- The path, if there is one; it may be empty. -/
  path? : Option (List Char)
  /-- Whether a line feed follows the path. -/
  lineFeed : Bool
  isWord_scope : ∀ w ∈ scope?, IsWord w
  isWord_name : IsWord name
  isTag_version : ∀ v ∈ version?, IsTag v
  not_mem_path : ∀ p ∈ path?, '\n' ∉ p
  isSome_path : lineFeed = true → path?.isSome = true

namespace Spelling

/-- The package: the name, behind its scope. -/
def pkg (d : Spelling) : List Char :=
  match d.scope? with
  | some w => '@' :: w ++ '/' :: d.name
  | none => d.name

/-- What follows the version: the path behind a slash, and the line feed. -/
def rest (d : Spelling) : List Char :=
  (match d.path? with
    | some p => '/' :: p
    | none => []) ++ if d.lineFeed then ['\n'] else []

/-- What follows the package: the version behind its mark, and the rest. -/
def behind (d : Spelling) : List Char :=
  (match d.version? with
    | some v => '@' :: v
    | none => []) ++ d.rest

/-- The text that the parts make. -/
def text (d : Spelling) : List Char := d.pkg ++ d.behind

/-- The location that the text names. -/
def location (d : Spelling) : Location :=
  ⟨String.ofList d.pkg, String.ofList (d.version?.getD []), String.ofList (d.path?.getD [])⟩

end Spelling

variable {s : List Char} {l : Location} {d e : Spelling}

theorem isNameChar_iff {c : Char} : isNameChar c = true ↔ c ∉ ['/', '\\', '%', '@'] := by
  simp [isNameChar, not_or, and_assoc]

theorem isVersionChar_iff {c : Char} : isVersionChar c = true ↔ c ∉ ['/', '\\', '%'] := by
  simp [isVersionChar, not_or, and_assoc]

theorem isWord_iff {w : List Char} : IsWord w ↔ w ≠ [] ∧ ∀ c ∈ w, isNameChar c = true := by
  simp only [IsWord, isNameChar_iff]

theorem isTag_iff {v : List Char} : IsTag v ↔ v ≠ [] ∧ ∀ c ∈ v, isVersionChar c = true := by
  simp only [IsTag, isVersionChar_iff]

namespace Spelling

/-! ## The text of a spelling is read -/

theorem cutPackage?_pkg (d : Spelling) : cutPackage? d.pkg = some (d.pkg, []) := by
  obtain ⟨hname, hchars⟩ := isWord_iff.1 d.isWord_name
  have hrun : run? isNameChar d.name = some (d.name, []) := by
    simpa using run?_append hname hchars (r := []) (by simp)
  unfold pkg
  split
  · next w hw =>
    obtain ⟨hne, hscope⟩ := isWord_iff.1 (d.isWord_scope w hw)
    have hfront : run? isNameChar (w ++ '/' :: d.name) = some (w, '/' :: d.name) :=
      run?_append hne hscope (by simp [isNameChar])
    simp [cutPackage?, hfront, hrun]
  · -- a name does not begin with the mark of a scope
    unfold cutPackage?
    split
    · next r hr =>
      have hmark := hchars '@' (hr ▸ List.mem_cons_self)
      exact absurd hmark (by decide)
    · exact hrun

/-- A line feed stands behind a path only. -/
theorem lineFeed_of_path?_eq_none (h : d.path? = none) : d.lineFeed = false := by
  by_contra hfeed
  have hsome := d.isSome_path (by simpa using hfeed)
  rw [h] at hsome
  exact absurd hsome (by simp)

theorem head?_rest (d : Spelling) : ∀ c ∈ d.rest.head?, c = '/' := by
  unfold rest
  split
  · simp
  · next h => simp [lineFeed_of_path?_eq_none h]

theorem head?_behind (d : Spelling) : ∀ c ∈ d.behind.head?, isNameChar c = false := by
  unfold behind
  split
  · simp [isNameChar]
  · intro c hc
    obtain rfl := d.head?_rest c hc
    decide

theorem cutVersion?_behind (d : Spelling) : cutVersion? d.behind = some (d.version?.getD [], d.rest) := by
  unfold behind
  split
  · next v hv =>
    obtain ⟨hne, hchars⟩ := isTag_iff.1 (d.isTag_version v hv)
    rw [hv]
    refine run?_append hne hchars fun c hc => ?_
    obtain rfl := d.head?_rest c hc
    decide
  · next hv =>
    rw [hv, List.nil_append]
    unfold cutVersion?
    split
    · next r hr =>
      have hmark := d.head?_rest '@' (by rw [hr]; rfl)
      exact absurd hmark (by decide)
    · rfl

theorem span_line {p t : List Char} (hp : '\n' ∉ p) (ht : ∀ c ∈ t.head?, c = '\n') :
    (p ++ t).span (· != '\n') = (p, t) := by
  have hall : ∀ c ∈ p, (c != '\n') = true := fun c hc => bne_iff_ne.2 fun h => hp (h ▸ hc)
  rw [List.span_eq_takeWhile_dropWhile, List.takeWhile_append_of_pos hall, List.dropWhile_append_of_pos hall]
  cases t with
  | nil => simp
  | cons c t =>
    obtain rfl := ht c rfl
    simp

theorem readPath?_rest (d : Spelling) : readPath? d.rest = some (d.path?.getD []) := by
  unfold rest
  split
  · next p hp =>
    have hspan := span_line (d.not_mem_path p hp) (t := if d.lineFeed then ['\n'] else []) (by split <;> simp)
    rw [hp, List.cons_append]
    simp only [readPath?, hspan]
    split <;> simp
  · next hp =>
    rw [hp, lineFeed_of_path?_eq_none hp]
    rfl

/-- The text of a spelling is read as the location that it names. -/
theorem parse?_text (d : Spelling) : parse? d.text = some d.location := by
  unfold parse? parseParts? text
  rw [cutPackage?_append d.cutPackage?_pkg d.head?_behind]
  simp [cutVersion?_behind, readPath?_rest, location]

/-! ## What is read has a spelling -/

theorem exists_words {pkg : String} (h : IsPackage pkg) :
    ∃ (scope? : Option (List Char)) (name : List Char), (∀ w ∈ scope?, IsWord w) ∧ IsWord name ∧
      pkg.toList = match scope? with
        | some w => '@' :: w ++ '/' :: name
        | none => name := by
  rcases h.parts with hname | ⟨scope, name, htext, hscope, hname⟩
  · exact ⟨none, pkg.toList, by simp, isWord_iff.2 hname, rfl⟩
  · exact ⟨some scope, name, by simpa [isWord_iff] using hscope, isWord_iff.2 hname, htext⟩

theorem exists_tag {r r' v : List Char} (h : cutVersion? r = some (v, r')) :
    ∃ version? : Option (List Char), (∀ v ∈ version?, IsTag v) ∧ version?.getD [] = v ∧
      r = (match version? with
        | some v => '@' :: v
        | none => []) ++ r' := by
  unfold cutVersion? at h
  split at h
  · obtain ⟨htext, hchars⟩ := run?_parts h
    refine ⟨some v, ?_, rfl, by rw [htext]; rfl⟩
    simpa [isTag_iff] using ⟨(run?_eq_some.1 h).1, hchars⟩
  · obtain ⟨rfl, rfl⟩ := Prod.mk.inj (Option.some.inj h)
    exact ⟨none, by simp, rfl, rfl⟩

theorem exists_line {r p : List Char} (h : readPath? r = some p) :
    ∃ (path? : Option (List Char)) (lineFeed : Bool), (∀ p ∈ path?, '\n' ∉ p) ∧
      (lineFeed = true → path?.isSome = true) ∧ path?.getD [] = p ∧
      r = (match path? with
        | some p => '/' :: p
        | none => []) ++ if lineFeed then ['\n'] else [] := by
  unfold readPath? at h
  split at h
  · obtain rfl := Option.some.inj h
    exact ⟨none, false, by simp, by simp, rfl, rfl⟩
  · next t =>
    rw [List.span_eq_takeWhile_dropWhile] at h
    dsimp only at h
    split at h
    swap
    · exact absurd h (by simp)
    next hshort =>
    obtain rfl := Option.some.inj h
    have hline : '\n' ∉ t.takeWhile (· != '\n') := fun hmem => by simpa using List.mem_takeWhile_imp hmem
    have htext : t = t.takeWhile (· != '\n') ++ t.dropWhile (· != '\n') := List.takeWhile_append_dropWhile.symm
    -- what the path leaves is nothing or the line feed that ended it
    rcases hrest : t.dropWhile (· != '\n') with _ | ⟨c, u⟩
    · refine ⟨some (t.takeWhile (· != '\n')), false, by simpa using hline, by simp, rfl, ?_⟩
      rw [hrest, List.append_nil] at htext
      simp [← htext]
    · rw [hrest] at hshort htext
      obtain rfl : u = [] := by simpa using hshort
      have hc : c = '\n' := by
        have hhead := List.head?_dropWhile_not (· != '\n') t
        rw [hrest] at hhead
        simpa using hhead
      refine ⟨some (t.takeWhile (· != '\n')), true, by simpa using hline, by simp, rfl, ?_⟩
      rw [hc] at htext
      simp [← htext]
  · exact absurd h (by simp)

/-- What is read is the text of a spelling. -/
theorem exists_spelling (h : parse? s = some l) : ∃ d : Spelling, d.text = s ∧ d.location = l := by
  obtain ⟨r, hpkg, r', hversion, hpath⟩ := parse?_parts h
  obtain ⟨scope?, name, hscope, hname, hpkg'⟩ := exists_words (parse?_shaped h).package
  obtain ⟨version?, htag, hv, hr⟩ := exists_tag hversion
  obtain ⟨path?, lineFeed, hline, hfeed, hp, hr'⟩ := exists_line hpath
  let d : Spelling := ⟨scope?, name, version?, path?, lineFeed, hscope, hname, htag, hline, hfeed⟩
  have hd : d.pkg = l.pkg.toList := hpkg'.symm
  refine ⟨d, ?_, ?_⟩
  · have hbehind : d.behind = r := by rw [hr, hr']; rfl
    unfold text
    rw [hd, hbehind, ← cutPackage?_parts hpkg]
  · unfold location
    rw [hd, show d.version?.getD [] = _ from hv, show d.path?.getD [] = _ from hp]
    simp

/-! ## A text has one spelling -/

theorem pkg_injective (h : d.pkg = e.pkg) : d.scope? = e.scope? ∧ d.name = e.name := by
  have hmark : ∀ {k : Spelling} {t : List Char}, k.name ≠ '@' :: t := fun {k t} hk =>
    k.isWord_name.2 '@' (hk ▸ List.mem_cons_self) (by decide)
  unfold pkg at h
  rcases hd : d.scope? with _ | w <;> rcases he : e.scope? with _ | x <;> rw [hd, he] at h
  · exact ⟨rfl, h⟩
  · exact absurd h hmark
  · exact absurd h.symm hmark
  · -- the scope ends at the only slash
    have hscope : '/' ∉ w := fun hmem => (d.isWord_scope w hd).2 '/' hmem (by decide)
    have hname : '/' ∉ d.name := fun hmem => d.isWord_name.2 '/' hmem (by decide)
    have hbehind : w ++ '/' :: d.name = x ++ '/' :: e.name := (List.cons.inj h).2
    obtain ⟨rfl, -, hsame⟩ := (List.append_cons_inj_of_notMem hscope hname).1 hbehind
    exact ⟨rfl, hsame⟩

theorem version?_injective (h : d.version?.getD [] = e.version?.getD []) : d.version? = e.version? := by
  have hne : ∀ {k : Spelling} {v : List Char}, k.version? = some v → v ≠ [] := fun {k v} hk =>
    (k.isTag_version v hk).1
  rcases hd : d.version? with _ | v <;> rcases he : e.version? with _ | x <;> rw [hd, he] at h
  · exact absurd h.symm (hne he)
  · exact absurd h (hne hd)
  · exact congrArg some h

theorem rest_injective (hrest : d.rest = e.rest) (hpath : d.path?.getD [] = e.path?.getD []) :
    d.path? = e.path? ∧ d.lineFeed = e.lineFeed := by
  have hnil : ∀ {k : Spelling}, k.path? = none → k.rest = [] := fun {k} hk => by
    unfold rest
    rw [hk, lineFeed_of_path?_eq_none hk]
    rfl
  have hcons : ∀ {k : Spelling} {p : List Char}, k.path? = some p → k.rest ≠ [] := fun {k p} hk => by
    unfold rest
    rw [hk]
    simp
  rcases hd : d.path? with _ | p <;> rcases he : e.path? with _ | q
  · exact ⟨rfl, by rw [lineFeed_of_path?_eq_none hd, lineFeed_of_path?_eq_none he]⟩
  · exact absurd (hrest.symm.trans (hnil hd)) (hcons he)
  · exact absurd (hrest.trans (hnil he)) (hcons hd)
  · rw [hd, he] at hpath
    obtain rfl : p = q := hpath
    unfold rest at hrest
    rw [hd, he, List.append_cancel_left_eq] at hrest
    refine ⟨rfl, ?_⟩
    cases hfeed : d.lineFeed <;> cases hfeed' : e.lineFeed <;> simp [hfeed, hfeed'] at hrest ⊢

/-- A text has one spelling. -/
theorem text_injective (h : d.text = e.text) : d = e := by
  have hlocation : d.location = e.location := by
    have hread := d.parse?_text
    rw [h, e.parse?_text] at hread
    exact (Option.some.inj hread).symm
  have hpkg : d.pkg = e.pkg := String.ofList_injective (congrArg Location.pkg hlocation)
  have hversion := version?_injective (String.ofList_injective (congrArg Location.version hlocation))
  have hpath := String.ofList_injective (congrArg Location.path hlocation)
  have hrest : d.rest = e.rest := by
    unfold text behind at h
    rwa [hpkg, hversion, List.append_cancel_left_eq, List.append_cancel_left_eq] at h
  obtain ⟨hpath, hfeed⟩ := rest_injective hrest hpath
  exact Spelling.ext (pkg_injective hpkg).1 (pkg_injective hpkg).2 hversion hpath hfeed

/-! ## Keys -/

/-- The spelling without a line feed, and without a path that is empty. -/
def plain (d : Spelling) : Spelling where
  scope? := d.scope?
  name := d.name
  version? := d.version?
  path? := if d.path?.getD [] = [] then none else d.path?
  lineFeed := false
  isWord_scope := d.isWord_scope
  isWord_name := d.isWord_name
  isTag_version := d.isTag_version
  not_mem_path := by
    intro p hp
    split at hp
    · exact absurd hp (by simp)
    · exact d.not_mem_path p hp
  isSome_path := by simp

theorem location_plain (d : Spelling) : d.plain.location = d.location := by
  have hpath : d.plain.path?.getD [] = d.path?.getD [] := by
    show (if _ then _ else _ : Option (List Char)).getD [] = _
    split
    · next h => exact h.symm
    · rfl
  unfold location
  rw [hpath]
  rfl

theorem rest_plain (d : Spelling) : d.plain.rest = if d.path?.getD [] = [] then [] else '/' :: d.path?.getD [] := by
  unfold rest plain
  by_cases hempty : d.path?.getD [] = []
  · simp [hempty]
  · obtain ⟨p, hp⟩ : ∃ p, d.path? = some p := Option.ne_none_iff_exists'.1 fun hnone => hempty (by rw [hnone]; rfl)
    have hne : p ≠ [] := by simpa [hp] using hempty
    simp [hp, hne]

theorem behind_plain {v : List Char} (h : d.version? = some v) : d.plain.behind = '@' :: (v ++ d.plain.rest) := by
  have hplain : d.plain.version? = some v := h
  unfold behind
  rw [hplain]
  rfl

/-- A location with a version and a path without slashes at its ends has the text of its plain spelling as its key. -/
theorem toList_key (hversion : d.location.version ≠ "") (hhead : d.location.path.toList.head? ≠ some '/')
    (hlast : d.location.path.toList.getLast? ≠ some '/') : d.location.key.toList = d.plain.text := by
  obtain ⟨v, hv⟩ : ∃ v, d.version? = some v := Option.ne_none_iff_exists'.1 fun hnone => hversion (by
    unfold location
    rw [hnone]
    rfl)
  have hrange : d.location.range.toList = v := by
    rw [range_of_ne_empty hversion]
    unfold location
    rw [hv]
    exact String.toList_ofList
  have hpath : d.location.path.toList = d.path?.getD [] := String.toList_ofList
  have hpkg : d.location.pkg.toList = d.plain.pkg := String.toList_ofList
  rw [key_toList, dropLeadingSlash_eq_self hhead, dropFinalSlash_slash hlast, hrange, hpath, hpkg, ← rest_plain,
    ← behind_plain hv]
  rfl

/-- The key of a location with a version and a path without slashes at its ends is read back. -/
theorem parse?_key (hversion : d.location.version ≠ "") (hhead : d.location.path.toList.head? ≠ some '/')
    (hlast : d.location.path.toList.getLast? ≠ some '/') : parse? d.location.key.toList = some d.location := by
  rw [toList_key hversion hhead hlast, parse?_text, location_plain]

/-- So is the URL of a download of it. -/
theorem readUrl_urlOf {c : Cdn.Cache} {r : Cdn.Download} (hr : r.location = d.location)
    (hversion : d.location.version ≠ "") (hhead : d.location.path.toList.head? ≠ some '/')
    (hlast : d.location.path.toList.getLast? ≠ some '/') : Cdn.readUrl c.base (c.urlOf r) = .ok d.location := by
  unfold Cdn.readUrl Cdn.parseUrl? Cdn.Cache.urlOf
  rw [hr, String.toList_append, after?_append, Option.bind_some, parse?_key hversion hhead hlast]

end Spelling

/-! ## Reading and writing -/

/-- What is read are the texts of spellings, each of which has one only; the key of a location with a version and a path
without slashes at its ends is read back, and so is its URL. -/
theorem parse?_grammar :
    (∀ s l, parse? s = some l ↔ ∃ d : Spelling, d.text = s ∧ d.location = l) ∧
    (∀ d e : Spelling, d.text = e.text → d = e) ∧
    ∀ l : Location, (∃ d : Spelling, d.location = l) → l.version ≠ "" → l.path.toList.head? ≠ some '/' →
      l.path.toList.getLast? ≠ some '/' →
      parse? l.key.toList = some l ∧
      ∀ (c : Cdn.Cache) (r : Cdn.Download), r.location = l → Cdn.readUrl c.base (c.urlOf r) = .ok l := by
  refine ⟨fun s l => ⟨Spelling.exists_spelling, ?_⟩, fun d e => Spelling.text_injective, ?_⟩
  · rintro ⟨d, rfl, rfl⟩
    exact d.parse?_text
  · rintro l ⟨d, rfl⟩ hversion hhead hlast
    exact ⟨Spelling.parse?_key hversion hhead hlast, fun c r hr => Spelling.readUrl_urlOf hr hversion hhead hlast⟩

/-- `@scope/foo@1.0@x/lib/x.js` and a line feed: a version may hold the mark that it begins with. -/
def tagged : Spelling where
  scope? := some "scope".toList
  name := "foo".toList
  version? := some "1.0@x".toList
  path? := some "lib/x.js".toList
  lineFeed := true
  isWord_scope := by decide
  isWord_name := by decide
  isTag_version := by decide
  not_mem_path := by decide
  isSome_path := by decide

theorem parse?_grammar_tagged :
    parse? "@scope/foo@1.0@x/lib/x.js\n".toList = some ⟨"@scope/foo", "1.0@x", "lib/x.js"⟩ ∧
    parse? "@scope/foo@1.0@x/lib/x.js".toList = some ⟨"@scope/foo", "1.0@x", "lib/x.js"⟩ :=
  ⟨(parse?_grammar.1 _ _).2 ⟨tagged, by decide, by decide⟩,
    (parse?_grammar.2.2 ⟨"@scope/foo", "1.0@x", "lib/x.js"⟩ ⟨tagged, by decide⟩ (by decide) (by decide) (by decide)).1⟩

end BareImports.Location
