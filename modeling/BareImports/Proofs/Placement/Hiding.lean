import BareImports.Proofs.Placement.Copies

/-!
# Why a copy is nested

* `PackageTree.remove path t` : a tree without the copy at a path, `resolve?_remove`;
* `Layout.Hides placed` : what a nested copy hides is of another version, `hides_place`;
* `Layout.Topped placed` : of every package that is placed there is a copy at the top, `topped_place`;
* `needed_place` : the finished layout has no needless copy.
-/

namespace BareImports

namespace PackageTree

/-- The entries of a directory, with what is below those of one name changed. -/
def changeBelow (name : String) (f : PackageTree → PackageTree) (entries : List (String × String × PackageTree)) :
    List (String × String × PackageTree) :=
  entries.map fun (n, v, t) => (n, v, if n == name then f t else t)

/-- A directory without the copy at a path, the outermost package first. -/
def remove : List String → PackageTree → PackageTree
  | [], t => t
  | [name], .dir entries => .dir (entries.filter fun e => e.1 != name)
  | name :: next :: path, .dir entries => .dir (changeBelow name (remove (next :: path)) entries)

theorem lookup_changeBelow (name : String) (f : PackageTree → PackageTree)
    (entries : List (String × String × PackageTree)) (n : String) : (changeBelow name f entries).lookup n =
      (entries.lookup n).map fun (v, t) => (v, if n == name then f t else t) := by
  induction entries with
  | nil => rfl
  | cons e entries ih =>
    obtain ⟨k, v, t⟩ := e
    unfold changeBelow at ih ⊢
    rw [List.map_cons, List.lookup_cons, List.lookup_cons, ih]
    by_cases hn : n = k
    · subst hn
      simp
    · rw [beq_eq_false_iff_ne.2 hn]

/-- The versions in a directory stay when something below is changed. -/
theorem version_changeBelow (name : String) (f : PackageTree → PackageTree)
    (entries : List (String × String × PackageTree)) (n : String) :
    ((changeBelow name f entries).lookup n).map (·.1) = (entries.lookup n).map (·.1) := by
  rw [lookup_changeBelow, Option.map_map]
  rfl

theorem lookup_filter_ne (name : String) (entries : List (String × String × PackageTree)) :
    (entries.filter fun e => e.1 != name).lookup name = none := by
  induction entries with
  | nil => rfl
  | cons e entries ih =>
    rw [List.filter_cons]
    split
    · next h =>
      obtain ⟨n, v, t⟩ := e
      rw [List.lookup_cons, show (name == n) = false by simpa using Ne.symm (by simpa using h)]
      exact ih
    · exact ih

/-- Without its own copy of a package, a copy finds what is found from the copy that encloses it. -/
theorem resolve?_remove (t : PackageTree) (outer : List String) (name pkg : String) :
    (remove (outer ++ [name, pkg]) t).resolve? (outer ++ [name]) pkg = t.resolve? outer pkg := by
  induction outer generalizing t with
  | nil =>
    obtain ⟨entries⟩ := t
    simp only [List.nil_append, remove, resolve?, version_changeBelow]
    rw [lookup_changeBelow]
    cases entries.lookup name with
    | none => rfl
    | some e =>
      obtain ⟨v, ⟨below⟩⟩ := e
      simp only [Option.map_some, Option.bind_some, beq_self_eq_true, if_true, remove, resolve?, lookup_filter_ne,
        Option.map_none, Option.none_or]
  | cons first outer ih =>
    obtain ⟨entries⟩ := t
    have hremove : remove (first :: (outer ++ [name, pkg])) (.dir entries) =
        .dir (changeBelow first (remove (outer ++ [name, pkg])) entries) := by
      cases outer <;> rfl
    rw [List.cons_append, List.cons_append, hremove]
    simp only [resolve?, version_changeBelow]
    rw [lookup_changeBelow]
    cases entries.lookup first with
    | none => rfl
    | some e => simp only [Option.map_some, Option.bind_some, beq_self_eq_true, if_true, ih]

end PackageTree

namespace Layout

variable {roots : List (String × String)} {g : Graph} {placed : List Placed} {s : State} {c : Placed}

/-! ## What a nested copy hides -/

/-- From the directory above a nested copy, another version of its package is found. -/
def Hides (placed : List Placed) : Prop :=
  ∀ (a b : String) (outer : List String) (v : String), at? placed (a :: b :: outer) = some v →
    ∃ w, nearest? placed a outer = some w ∧ w ≠ v

/-- A copy that is placed in a directory that encloses a nested one is of another package. -/
theorem Adds.trail_ne (hc : Adds g s c) {a b : String} {outer trail : List String}
    (hat : at? s.placed (a :: b :: outer) ≠ none) (htrail : trail <:+ outer) (hne : trail ≠ []) :
    c.trail ≠ a :: trail := by
  obtain ⟨hp, hputs, -, -⟩ := hc
  intro hct
  rcases hputs.trail with htop | hbelow
  · exact hne (List.cons.inj (hct.symm.trans htop)).2
  · -- the copy that encloses the nested one has had its turn only if nothing below it is left to do
    obtain ⟨-, rfl⟩ := List.cons.inj (hct.symm.trans hbelow)
    have henc : at? s.placed (b :: outer) ≠ none := hp.sound.enclosing [a] (by simp) hat
    have hlen := htrail.length_le
    obtain ⟨w, hw, hwt⟩ := hp.queued_of_below (htrail.trans (List.suffix_cons b outer))
      (fun heq => by rw [heq, List.length_cons] at hlen; omega) henc
    exact hat (hwt ▸ (hp.queued w hw).leaf a)

theorem Hides.place (h : Hides s.placed) (hc : Adds g s c) : Hides (s.placed ++ [c]) := by
  intro a b outer v hv
  by_cases hct : c.trail = a :: b :: outer
  · obtain ⟨hp, hputs, hfits, -⟩ := hc
    have hhere := hfits.at?_place
    rw [hct, hv] at hhere
    have hfree := hfits.free
    rw [hct] at hfree
    cases hputs with
    | top hnone => exact absurd (List.cons.inj hct).2 (by simp)
    | @below found hfound hne =>
      obtain ⟨rfl, htrail⟩ := List.cons.inj hct
      rw [htrail, nearest?_cons, hfree, Option.none_or] at hfound
      refine ⟨found, nearest?_place hfound fun trail ho _ heq => ?_, Option.some.inj hhere ▸ hne⟩
      have hlen := ho.length_le
      rw [← (List.cons.inj heq).2, htrail, List.length_cons] at hlen
      omega
  · rw [at?_place_of_ne hct] at hv
    obtain ⟨w, hw, hne⟩ := h a b outer v hv
    exact ⟨w, nearest?_place hw fun trail ho htrail => hc.trail_ne (by rw [hv]; simp) ho htrail, hne⟩

theorem hides_place (hn : (roots.map (·.1)).Nodup) (hg : DistinctNames g) : Hides (place roots g) := by
  refine place_induction hn hg (fun a b outer v hv => ?_) fun s c hc h => h.place hc
  rw [at?_roots, if_neg (by simp)] at hv
  exact absurd hv (by simp)

/-! ## Names at the top -/

/-- Of every package that is placed there is a copy at the top. -/
def Topped (placed : List Placed) : Prop :=
  ∀ (name : String) (trail : List String), at? placed (name :: trail) ≠ none → at? placed [name] ≠ none

theorem Topped.place (h : Topped s.placed) (hc : Adds g s c) : Topped (s.placed ++ [c]) := by
  have hkeep : ∀ name, at? s.placed [name] ≠ none → at? (s.placed ++ [c]) [name] ≠ none := fun name hname => by
    obtain ⟨v, hv⟩ := Option.ne_none_iff_exists'.1 hname
    rw [at?_place_of_some hv]
    simp
  obtain ⟨-, hputs, hfits, -⟩ := hc
  intro name trail hat
  by_cases hct : c.trail = name :: trail
  · have hhere := hfits.at?_place
    cases hputs with
    | top hnone =>
      obtain ⟨rfl, -⟩ := List.cons.inj hct
      rw [hhere]
      simp
    | below hfound hne =>
      obtain ⟨rfl, -⟩ := List.cons.inj hct
      obtain ⟨outer, hthere⟩ := occurs_of_nearest? hfound
      exact hkeep _ (h _ outer (by rw [hthere]; simp))
  · rw [at?_place_of_ne hct] at hat
    exact hkeep name (h name trail hat)

theorem topped_place (hn : (roots.map (·.1)).Nodup) (hg : DistinctNames g) : Topped (place roots g) := by
  refine place_induction hn hg (fun name trail hat => ?_) fun s c hc h => h.place hc
  rw [at?_roots] at hat ⊢
  split at hat
  · rwa [if_pos rfl]
  · exact absurd rfl hat

/-- For every root map and graph, in the finished layout the roots are at the top in their versions, every package that
is somewhere is at the top too, and from the directory above a nested copy another version of its package is found: that
one is what the copy that encloses it would find if the nested copy were removed. -/
theorem needed_place (roots : List (String × String)) (g : Graph) (hn : (roots.map (·.1)).Nodup)
    (hg : DistinctNames g) :
    (∀ r ∈ roots, (PackageTree.ofPlaced (place roots g)).version? [r.1] = some r.2) ∧
    (∀ p ∈ (PackageTree.ofPlaced (place roots g)).contents,
      ∃ v, (PackageTree.ofPlaced (place roots g)).version? [p.1] = some v) ∧
    ∀ outer pkg dep v, (PackageTree.ofPlaced (place roots g)).version? (outer ++ [pkg, dep]) = some v →
      (PackageTree.ofPlaced (place roots g)).resolve? (outer ++ [pkg]) dep = some v ∧
      ∃ w, w ≠ v ∧ (PackageTree.ofPlaced (place roots g)).resolve? outer dep = some w ∧
        ((PackageTree.ofPlaced (place roots g)).remove (outer ++ [pkg, dep])).resolve? (outer ++ [pkg]) dep =
          some w := by
  obtain ⟨s, hplaced, -, hsettled⟩ := settled_place hn hg
  have hsound := hsettled.sound
  rw [hplaced] at hsound
  refine ⟨fun r hr => ?_, fun p hp => ?_, fun outer pkg dep v hv => ?_⟩
  · rw [hsound.tree]
    exact at?_place_root hn hr
  · obtain ⟨c, hc, rfl⟩ := PackageTree.exists_of_mem_contents hp
    obtain ⟨name, trail, htrail⟩ := List.exists_cons_of_ne_nil (required_of_mem_trail hn hg hc).1
    have hat := apart_place hn hg c hc
    have hpkg : c.pkg = name := by rw [Placed.pkg, htrail, List.headD_cons]
    rw [htrail] at hat
    rw [hsound.tree, hpkg]
    exact Option.ne_none_iff_exists'.1 (topped_place hn hg name trail (by rw [hat]; simp))
  · have hat := hv
    rw [hsound.tree, List.reverse_append] at hat
    obtain ⟨w, hw, hne⟩ := hides_place hn hg dep pkg outer.reverse v hat
    rw [← hsound.resolve?_eq, List.reverse_reverse] at hw
    refine ⟨?_, w, hne, hw, (PackageTree.resolve?_remove _ outer pkg dep).trans hw⟩
    rw [PackageTree.resolve?_append, hv, Option.some_or]

/-- A copy of another version is nested: without it, the one at the top would be found. -/
theorem needed_place_nested :
    (PackageTree.ofPlaced (place [("foo", "1"), ("bar", "1")]
      [("foo", [("1", [("bar", "2")])]), ("bar", [("2", [("baz", "2")])])])).version? ["foo", "bar"] = some "2" ∧
    ∃ w, w ≠ "2" ∧ ((PackageTree.ofPlaced (place [("foo", "1"), ("bar", "1")]
      [("foo", [("1", [("bar", "2")])]), ("bar", [("2", [("baz", "2")])])])).remove ["foo", "bar"]).resolve? ["foo"]
        "bar" = some w := by
  have hv : (PackageTree.ofPlaced (place [("foo", "1"), ("bar", "1")]
      [("foo", [("1", [("bar", "2")])]), ("bar", [("2", [("baz", "2")])])])).version? ["foo", "bar"] = some "2" := by
    decide +kernel
  obtain ⟨-, w, hne, -, hw⟩ := (needed_place [("foo", "1"), ("bar", "1")]
    [("foo", [("1", [("bar", "2")])]), ("bar", [("2", [("baz", "2")])])] (by decide)
    (distinctNames_of_all (by decide))).2.2 [] "foo" "bar" "2" hv
  exact ⟨hv, w, hne, hw⟩

end Layout

end BareImports
