import BareImports.Proofs.Placement.Contents

/-!
# The copies of the finished layout

* `Layout.Apart placed` : no two copies are at one trail;
* `apart_place` : those of the finished layout are apart;
* `required_of_mem_trail` : whatever encloses one of its copies is required, too;
* `exists_copy` : every package version that is required has a copy.
-/

namespace BareImports.Layout

variable {roots : List (String × String)} {g : Graph} {placed : List Placed} {c : Placed} {s : State} {t : Task}

theorem exists_of_at? {trail : List String} {v : String} (h : at? placed trail = some v) :
    ∃ c ∈ placed, c.trail = trail ∧ c.version = v := by
  obtain ⟨c, hfound, hv⟩ := Option.map_eq_some_iff.1 h
  exact ⟨c, List.mem_of_find?_eq_some hfound, by simpa using List.find?_some hfound, hv⟩

/-- Every copy is the one that is found at its trail. -/
def Apart (placed : List Placed) : Prop := ∀ c ∈ placed, at? placed c.trail = some c.version

theorem Apart.eq (h : Apart placed) {d : Placed} (hc : c ∈ placed) (hd : d ∈ placed) (ht : c.trail = d.trail) :
    c = d := by
  have hv : some c.version = some d.version := by rw [← h c hc, ht, h d hd]
  obtain ⟨trail, version⟩ := c
  obtain ⟨trail', version'⟩ := d
  obtain rfl : trail = trail' := ht
  obtain rfl : version = version' := Option.some.inj hv
  rfl

theorem Apart.place (h : Apart placed) (hc : Fits g placed c) : Apart (placed ++ [c]) := by
  intro d hd
  rcases List.mem_append.1 hd with hd | hd
  · exact at?_place_of_some (h d hd)
  · rw [List.mem_singleton.1 hd]
    exact hc.at?_place

theorem apart_place (hn : (roots.map (·.1)).Nodup) (hg : DistinctNames g) : Apart (place roots g) := by
  refine place_induction hn hg (fun c hc => ?_) fun s c hc h => h.place hc.fits
  obtain ⟨r, hr, rfl⟩ := List.mem_map.1 hc
  show at? (roots.map rootCopy) [r.1] = some r.2
  rw [at?_roots, if_pos rfl]
  exact lookup_of_mem hn hr

/-- A copy has a trail, and what is on it is required. -/
theorem required_of_mem_trail (hn : (roots.map (·.1)).Nodup) (hg : DistinctNames g) (hc : c ∈ place roots g) :
    c.trail ≠ [] ∧ ∀ name ∈ c.trail, ∃ v, Required roots g (name, v) := by
  obtain ⟨s, hplaced, -, hs⟩ := settled_place hn hg
  have hsound := hs.sound
  rw [hplaced] at hsound
  have hat := apart_place hn hg c hc
  refine ⟨fun hnil => ?_, fun name hname => ?_⟩
  · rw [hnil, hsound.root] at hat
    exact absurd hat (by simp)
  · obtain ⟨inner, outer, htrail⟩ := List.append_of_mem hname
    have hthere : at? (place roots g) (name :: outer) ≠ none :=
      hsound.enclosing inner (by simp) (by rw [← htrail, hat]; simp)
    obtain ⟨v, hv⟩ := Option.ne_none_iff_exists'.1 hthere
    obtain ⟨d, hd, hdt, -⟩ := exists_of_at? hv
    have hpkg : d.pkg = name := by rw [Placed.pkg, hdt]; rfl
    exact ⟨d.version, hpkg ▸ ((warranted_initial roots g).work (taskLimit roots g)).placed d hd⟩

/-- What is required has a copy. -/
theorem exists_copy (hn : (roots.map (·.1)).Nodup) (hg : DistinctNames g) {pkg version : String}
    (h : Required roots g (pkg, version)) : ∃ c ∈ place roots g, c.pkg = pkg ∧ c.version = version := by
  obtain ⟨c, hc, heq⟩ := PackageTree.exists_of_mem_contents ((mem_contents_place roots g hn hg (pkg, version)).2 h)
  obtain ⟨rfl, rfl⟩ := Prod.mk.inj heq
  exact ⟨c, hc, rfl, rfl⟩

end BareImports.Layout
