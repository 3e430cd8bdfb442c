import BareImports.Proofs.Placement.Tree

/-!
# One more copy

* `Layout.DistinctNames g` : the names that a package version depends on are distinct;
* `Layout.lineage placed trail` : the package versions from a copy up to the top;
* `Layout.Sound g placed` : a copy below another one is there for a dependency of it;
* `Layout.Fits g placed c` : a copy can be placed, which keeps the copies sound (`Sound.place`);
* `nearest?_place`, `nearest?_place_top` : what is found from a copy once another one was placed.
-/

namespace BareImports.Layout

/-! ## Dependencies -/

/-- What a package version depends on is listed in the graph. -/
theorem dependencies_cases (g : Graph) (pkg version : String) : g.dependencies pkg version = [] ∨
    ∃ versions, (pkg, versions) ∈ g ∧ (version, g.dependencies pkg version) ∈ versions := by
  unfold Graph.dependencies
  rcases hp : List.lookup pkg g with _ | versions
  · exact Or.inl rfl
  rcases hv : versions.lookup version with _ | deps
  · exact Or.inl (by rw [Option.bind_some, hv, Option.getD_none])
  obtain ⟨l, l', hl, -⟩ := List.lookup_eq_some_iff.1 hp
  obtain ⟨k, k', hk, -⟩ := List.lookup_eq_some_iff.1 hv
  refine Or.inr ⟨versions, by simp [hl], ?_⟩
  rw [Option.bind_some, hv, Option.getD_some, hk]
  simp

/-- The names that a package version depends on are distinct. -/
def DistinctNames (g : Graph) : Prop := ∀ pkg version, ((g.dependencies pkg version).map (·.1)).Nodup

theorem distinctNames_of_all {g : Graph} (h : ∀ e ∈ g, ∀ v ∈ e.2, (v.2.map (·.1)).Nodup) : DistinctNames g := by
  intro pkg version
  rcases dependencies_cases g pkg version with hnil | ⟨versions, hp, hv⟩
  · rw [hnil]
    simp
  · exact h _ hp _ hv

/-! ## Copies at trails -/

theorem at?_append (placed : List Placed) (c : Placed) (trail : List String) : at? (placed ++ [c]) trail =
    (at? placed trail).or (if c.trail = trail then some c.version else none) := by
  unfold at?
  rw [List.find?_append, Option.map_or]
  congr 1
  by_cases h : c.trail = trail
  · simp [h]
  · simp [h]

theorem at?_cons (c : Placed) (placed : List Placed) (trail : List String) : at? (c :: placed) trail =
    if c.trail = trail then some c.version else at? placed trail := by
  unfold at?
  rw [List.find?_cons]
  by_cases h : c.trail = trail
  · simp [h]
  · simp [h, beq_eq_false_iff_ne.2 h]

/-- The package versions from a copy up to the top. -/
def lineage (placed : List Placed) : List String → List (String × String)
  | [] => []
  | name :: trail => (name, (at? placed (name :: trail)).getD "") :: lineage placed trail

/-- Every copy but those at the top is there for a dependency of the copy that encloses it, and the nested directories
show the copies. -/
structure Sound (g : Graph) (placed : List Placed) : Prop where
  /-- A copy is of some package. -/
  root : at? placed [] = none
  /-- A copy below another one is there for a dependency of it. -/
  parent : ∀ (a b : String) (trail : List String) (v : String), at? placed (a :: b :: trail) = some v →
    ∃ w, at? placed (b :: trail) = some w ∧ (a, v) ∈ g.dependencies b w
  /-- The nested directories show the copies. -/
  tree : ∀ path, (PackageTree.ofPlaced placed).version? path = at? placed path.reverse

/-- A copy can be placed: nothing is there yet, and a copy that would enclose it depends on it. -/
structure Fits (g : Graph) (placed : List Placed) (c : Placed) : Prop where
  /-- The copy is of some package. -/
  nonempty : c.trail ≠ []
  /-- Nothing is there yet. -/
  free : at? placed c.trail = none
  /-- The copy that would enclose it depends on it. -/
  parent : ∀ (a b : String) (trail : List String), c.trail = a :: b :: trail →
    ∃ w, at? placed (b :: trail) = some w ∧ (a, c.version) ∈ g.dependencies b w

section Place

variable {g : Graph} {placed : List Placed} {c : Placed} {trail : List String}

theorem at?_place_of_some {v : String} (h : at? placed trail = some v) : at? (placed ++ [c]) trail = some v := by
  rw [at?_append, h, Option.some_or]

theorem at?_place_of_ne (h : c.trail ≠ trail) : at? (placed ++ [c]) trail = at? placed trail := by
  rw [at?_append, if_neg h, Option.or_none]

theorem Fits.at?_place (h : Fits g placed c) : at? (placed ++ [c]) c.trail = some c.version := by
  rw [at?_append, h.free, if_pos rfl, Option.none_or]

theorem Sound.place (hs : Sound g placed) (hc : Fits g placed c) : Sound g (placed ++ [c]) where
  root := by rw [at?_place_of_ne hc.nonempty, hs.root]
  parent a b trail v h := by
    by_cases hct : c.trail = a :: b :: trail
    · rw [← hct, hc.at?_place] at h
      obtain ⟨w, hw, hdep⟩ := hc.parent a b trail hct
      exact ⟨w, at?_place_of_some hw, Option.some.inj h ▸ hdep⟩
    · rw [at?_place_of_ne hct] at h
      obtain ⟨w, hw, hdep⟩ := hs.parent a b trail v h
      exact ⟨w, at?_place_of_some hw, hdep⟩
  tree path := by
    have hnew : (PackageTree.ofPlaced placed).version? c.trail.reverse = none := by
      rw [hs.tree, List.reverse_reverse, hc.free]
    have hparent : c.trail.reverse.dropLast ≠ [] →
        (PackageTree.ofPlaced placed).version? c.trail.reverse.dropLast ≠ none := by
      intro hne
      rw [hs.tree, List.dropLast_reverse, List.reverse_reverse]
      match htrail : c.trail with
      | [] => exact absurd htrail hc.nonempty
      | [a] => simp [htrail] at hne
      | a :: b :: trail =>
        obtain ⟨w, hw, -⟩ := hc.parent a b trail htrail
        rw [List.tail_cons, hw]
        simp
    have hof : PackageTree.ofPlaced (placed ++ [c]) =
        PackageTree.insert c.version c.trail.reverse (PackageTree.ofPlaced placed) := by
      unfold PackageTree.ofPlaced
      rw [List.foldl_append, List.foldl_cons, List.foldl_nil]
    rw [hof, PackageTree.version?_insert _ _ _ _ (by simpa using hc.nonempty) hnew hparent, hs.tree]
    by_cases hpath : path = c.trail.reverse
    · rw [if_pos hpath, hpath, List.reverse_reverse, hc.at?_place]
    · rw [if_neg hpath, at?_place_of_ne]
      intro hct
      rw [hct, List.reverse_reverse] at hpath
      exact hpath rfl

/-- What encloses a copy is there too. -/
theorem Sound.enclosing (hs : Sound g placed) (inner : List String) (ht : trail ≠ [])
    (h : at? placed (inner ++ trail) ≠ none) : at? placed trail ≠ none := by
  induction inner with
  | nil => exact h
  | cons a inner ih =>
    refine ih ?_
    obtain ⟨b, rest, hb⟩ := List.exists_cons_of_ne_nil (l := inner ++ trail) (by simp [ht])
    obtain ⟨v, hv⟩ := Option.ne_none_iff_exists'.1 h
    rw [List.cons_append, hb] at hv
    obtain ⟨w, hw, -⟩ := hs.parent a b rest v hv
    rw [hb, hw]
    simp

theorem Sound.lineage_place (hs : Sound g placed) (hc : Fits g placed c) (h : trail = [] ∨ at? placed trail ≠ none) :
    lineage (placed ++ [c]) trail = lineage placed trail := by
  induction trail with
  | nil => rfl
  | cons name trail ih =>
    have hne : at? placed (name :: trail) ≠ none := h.resolve_left (by simp)
    have hrest : trail = [] ∨ at? placed trail ≠ none := by
      by_cases ht : trail = []
      · exact Or.inl ht
      · exact Or.inr (hs.enclosing [name] ht hne)
    have hat : at? (placed ++ [c]) (name :: trail) = at? placed (name :: trail) := by
      refine at?_place_of_ne fun he => hne ?_
      rw [← he, hc.free]
    unfold lineage
    rw [hat, ih hrest]

/-! ## Looking up after a copy was placed -/

theorem nearest?_cons (pkg name : String) (trail : List String) : nearest? placed pkg (name :: trail) =
    (at? placed (pkg :: name :: trail)).or (nearest? placed pkg trail) := by
  rw [nearest?, Option.orElse_eq_orElse, Option.orElse_eq_or]

theorem at?_singleton_of_nearest? {pkg : String} (h : nearest? placed pkg trail = none) : at? placed [pkg] = none := by
  induction trail with
  | nil => exact h
  | cons name trail ih =>
    rw [nearest?_cons, Option.or_eq_none_iff] at h
    exact ih h.2

/-- What was found stays found unless the new copy is of that package and in a directory on the way. -/
theorem nearest?_place {pkg v : String} (h : nearest? placed pkg trail = some v)
    (hc : ∀ outer, outer <:+ trail → outer ≠ [] → c.trail ≠ pkg :: outer) : nearest? (placed ++ [c]) pkg trail = some v := by
  induction trail with
  | nil => exact at?_place_of_some h
  | cons name trail ih =>
    rw [nearest?_cons, Option.or_eq_some_iff] at h ⊢
    rw [at?_place_of_ne (hc _ (List.suffix_refl _) (by simp))]
    refine h.imp_right fun ⟨hat, hrest⟩ => ⟨hat, ih hrest fun outer ho => hc outer ?_⟩
    exact ho.trans (List.suffix_cons _ _)

/-- What was not found is found at the top once it is placed there. -/
theorem nearest?_place_top {pkg : String} (h : nearest? placed pkg trail = none) (hc : c.trail = [pkg]) :
    nearest? (placed ++ [c]) pkg trail = some c.version := by
  induction trail with
  | nil =>
    have hat : at? placed [pkg] = none := h
    show at? (placed ++ [c]) [pkg] = some c.version
    rw [at?_append, hat, if_pos hc, Option.none_or]
  | cons name trail ih =>
    rw [nearest?_cons, Option.or_eq_none_iff] at h
    rw [nearest?_cons, at?_place_of_ne (by simp [hc]), h.1, Option.none_or, ih h.2]

end Place

end BareImports.Layout
