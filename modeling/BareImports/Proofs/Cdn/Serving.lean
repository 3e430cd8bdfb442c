import BareImports.Proofs.Build.Reference

/-!
# Sites with a few files

* `serving rows` : the site that has some files, each for the URL of a location;
* `cdn_serving` : what it answers for a location;
* `key_beq` : whether two locations have one URL;
* `listing rows pkg range` : what a site has for a package and a range; `cdn_of_listing`, it tells all its answers;
* `serving_ranges` : every range is answered like an exact version if the rows say so.
-/

namespace BareImports.Cdn

open Build (Site)
open Location

theorem fetch_eq_get {S : Site} (l : Location) : S.fetch l = S.get (S.base ++ l.key) := rfl

/-- A site that has some files; all others are missing. -/
def serving (rows : List (Location × Response)) : Site where
  base := "https://c/"
  cdn url := match rows.find? fun row => "https://c/" ++ row.1.key == url with
    | some row => .ok row.2
    | none => .error (.refused 404 "Not Found")

theorem cdn_serving (rows : List (Location × Response)) (l : Location) : (serving rows).cdn ("https://c/" ++ l.key) =
    match rows.find? fun row => row.1.key == l.key with
    | some row => .ok row.2
    | none => .error (.refused 404 "Not Found") := by
  have hsame : ∀ row : Location × Response, ("https://c/" ++ row.1.key == "https://c/" ++ l.key) =
      (row.1.key == l.key) := by
    intro row
    rw [Bool.eq_iff_iff, beq_iff_eq, beq_iff_eq, ← String.toList_inj, String.toList_append, String.toList_append,
      List.append_cancel_left_eq, String.toList_inj]
  unfold serving
  simp only [hsame]

/-- A file that a site has comes from one of its rows. -/
theorem of_fetch_serving {rows : List (Location × Response)} {l : Location} {f : Fetched}
    (h : (serving rows).fetch l = .ok f) : ∃ row ∈ rows, f = row.2.fetched := by
  rw [fetch_eq_get, Site.get, show (serving rows).base = "https://c/" from rfl, cdn_serving] at h
  cases hrow : rows.find? fun row => row.1.key == l.key with
  | none =>
    rw [hrow] at h
    exact absurd h (by simp)
  | some row =>
    refine ⟨row, List.mem_of_find?_eq_some hrow, ?_⟩
    rw [hrow] at h
    dsimp only at h
    split at h
    · exact absurd h (by simp)
    · exact (Except.ok.inj h).symm

/-- Shaped locations have one key exactly if they have one package, one range and one path but for its slashes. -/
theorem key_beq {l m : Location} (hl : l.Shaped) (hm : m.Shaped) : (l.key == m.key) =
    ((decide (l.pkg = m.pkg) && decide (l.range = m.range)) &&
      decide (dropFinalSlash ('/' :: dropLeadingSlash l.path.toList) =
        dropFinalSlash ('/' :: dropLeadingSlash m.path.toList))) := by
  rw [Bool.eq_iff_iff, beq_iff_eq, Bool.and_eq_true, Bool.and_eq_true, decide_eq_true_iff, decide_eq_true_iff,
    decide_eq_true_iff]
  constructor
  · intro h
    obtain ⟨hpkg, hrange⟩ := hl.same_of_key hm h
    have htext := congrArg String.toList h
    rw [key_toList, key_toList, hpkg, hrange] at htext
    simpa [hpkg, hrange] using htext
  · rintro ⟨⟨hpkg, hrange⟩, hpath⟩
    rw [← String.toList_inj, key_toList, key_toList, hpkg, hrange, hpath]

/-! ## Ranges -/

/-- What a site has for a package and a range: the ends of the URLs with the answers. -/
def listing (rows : List (Location × Response)) (pkg range : String) : List (List Char × Response) :=
  rows.filterMap fun row =>
    if row.1.pkg = pkg ∧ row.1.range = range then some (dropFinalSlash ('/' :: dropLeadingSlash row.1.path.toList), row.2)
    else none

section Listing

variable {rows : List (Location × Response)} {l m : Location}

theorem cdn_listing (hrows : ∀ row ∈ rows, row.1.Shaped) (hl : l.Shaped) : (serving rows).cdn ("https://c/" ++ l.key) =
    match (listing rows l.pkg l.range).find? fun e => e.1 == dropFinalSlash ('/' :: dropLeadingSlash l.path.toList) with
    | some e => .ok e.2
    | none => .error (.refused 404 "Not Found") := by
  rw [cdn_serving]
  unfold listing
  induction rows with
  | nil => rfl
  | cons row rows ih =>
    have ih := ih fun row' hrow => hrows row' (List.mem_cons_of_mem row hrow)
    rw [List.find?_cons, key_beq (hrows row List.mem_cons_self) hl, List.filterMap_cons]
    by_cases hsame : row.1.pkg = l.pkg ∧ row.1.range = l.range
    · rw [if_pos hsame, decide_eq_true hsame.1, decide_eq_true hsame.2]
      dsimp only
      rw [List.find?_cons, Bool.and_self, Bool.true_and]
      by_cases hpath : dropFinalSlash ('/' :: dropLeadingSlash row.1.path.toList) =
          dropFinalSlash ('/' :: dropLeadingSlash l.path.toList)
      · rw [decide_eq_true hpath, beq_iff_eq.2 hpath]
      · rw [decide_eq_false hpath, beq_eq_false_iff_ne.2 hpath]
        exact ih
    · have hother : (decide (row.1.pkg = l.pkg) && decide (row.1.range = l.range)) = false := by
        rw [← Bool.decide_and, decide_eq_false hsame]
      rw [if_neg hsame, hother, Bool.false_and]
      exact ih

/-- Locations with one path and one listing are answered alike. -/
theorem cdn_of_listing (hrows : ∀ row ∈ rows, row.1.Shaped) (hl : l.Shaped) (hm : m.Shaped) (hpath : l.path = m.path)
    (hsame : listing rows l.pkg l.range = listing rows m.pkg m.range) :
    (serving rows).cdn ("https://c/" ++ l.key) = (serving rows).cdn ("https://c/" ++ m.key) := by
  rw [cdn_listing hrows hl, cdn_listing hrows hm, hpath, hsame]

/-- If each range of which there is something is listed like `v`, and of version `w` there is nothing, then every range is
answered like an exact version. -/
theorem serving_ranges {v w : String} (hrows : ∀ row ∈ rows, row.1.Shaped) (hv : Version.isExact v = true)
    (hw : Version.isExact w = true) (hlike : ∀ row ∈ rows, Version.isExact row.1.version = false →
      listing rows row.1.pkg row.1.range = listing rows row.1.pkg v) (hfree : ∀ row ∈ rows, row.1.range ≠ w)
    {pkg range : String} (hpkg : IsPackage pkg) (hrange : '/' ∉ range.toList) (hx : Version.isExact range = false) :
    ∃ u, Version.isExact u = true ∧ ∀ path, (serving rows).cdn ("https://c/" ++ (⟨pkg, range, path⟩ : Location).key) =
      (serving rows).cdn ("https://c/" ++ (⟨pkg, u, path⟩ : Location).key) := by
  have hshaped : ∀ {u : String}, Version.isExact u = true → ∀ path : String, (⟨pkg, u, path⟩ : Location).Shaped :=
    fun hu path => ⟨hpkg, fun hslash => absurd (isVersionChar_of_isExact hu _ hslash) (by decide)⟩
  have hlocal : ∀ path : String, (⟨pkg, range, path⟩ : Location).range = (⟨pkg, range, ""⟩ : Location).range :=
    fun _ => rfl
  have hexact : ∀ {u : String}, Version.isExact u = true → ∀ path : String, (⟨pkg, u, path⟩ : Location).range = u :=
    fun hu path => range_of_isExact (l := ⟨pkg, _, path⟩) hu
  by_cases hlisted : ∃ row ∈ rows, row.1.pkg = pkg ∧ row.1.range = (⟨pkg, range, ""⟩ : Location).range
  · obtain ⟨row, hrow, hp, hr⟩ := hlisted
    have hxrow : Version.isExact row.1.version = false := by
      rw [← isExact_range, hr, isExact_range]
      exact hx
    have hsame := hlike row hrow hxrow
    rw [hp, hr] at hsame
    refine ⟨v, hv, fun path => cdn_of_listing hrows ⟨hpkg, hrange⟩ (hshaped hv path) rfl ?_⟩
    rw [hlocal, hexact hv]
    exact hsame
  · refine ⟨w, hw, fun path => cdn_of_listing hrows ⟨hpkg, hrange⟩ (hshaped hw path) rfl ?_⟩
    have hnone : listing rows pkg (⟨pkg, range, ""⟩ : Location).range = [] := by
      refine List.filterMap_eq_nil_iff.2 fun row hrow => if_neg fun hsame => hlisted ⟨row, hrow, hsame⟩
    have hfreed : listing rows pkg w = [] := by
      refine List.filterMap_eq_nil_iff.2 fun row hrow => if_neg fun hsame => hfree row hrow hsame.2
    rw [hlocal, hexact hw]
    exact hnone.trans hfreed.symm

end Listing

end BareImports.Cdn
