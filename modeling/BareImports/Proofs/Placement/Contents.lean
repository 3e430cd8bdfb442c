import BareImports.Proofs.Placement.Resolution

/-!
# The package versions of the finished layout

* `PackageTree.contents t` : every package version that is in a directory, at any depth;
* `Layout.Required roots g p` : the roots, and with a package version what it depends on under other names;
* `Layout.Warranted roots g s` : only required package versions are placed or wait for their turn;
* `mem_contents_place` : the finished layout holds exactly the package versions that are required.
-/

namespace BareImports

namespace PackageTree

mutual

/-- The package versions in a directory, at any depth. -/
def contents : PackageTree → List (String × String)
  | .dir entries => contentsOf entries

/-- The package versions in some entries of a directory, at any depth. -/
def contentsOf : List (String × String × PackageTree) → List (String × String)
  | [] => []
  | (name, version, t) :: entries => (name, version) :: (contents t ++ contentsOf entries)

end

theorem contentsOf_append (entries entries' : List (String × String × PackageTree)) :
    contentsOf (entries ++ entries') = contentsOf entries ++ contentsOf entries' := by
  induction entries with
  | nil => rfl
  | cons e entries ih =>
    obtain ⟨name, version, t⟩ := e
    simp only [List.cons_append, contentsOf, ih, List.append_assoc]

/-- What an entry holds is in the directory. -/
theorem subset_contentsOf {entries : List (String × String × PackageTree)} {name version : String} {t : PackageTree}
    (h : entries.lookup name = some (version, t)) :
    (name, version) ∈ contentsOf entries ∧ t.contents ⊆ contentsOf entries := by
  obtain ⟨before, behind, rfl, -⟩ := List.lookup_eq_some_iff.1 h
  rw [contentsOf_append, contentsOf]
  refine ⟨by simp, fun p hp => ?_⟩
  exact List.mem_append_right _ (List.mem_cons_of_mem _ (List.mem_append_left _ hp))

/-- A copy that is found at a path is in the tree. -/
theorem mem_contents_of_version? {t : PackageTree} {outer : List String} {pkg version : String}
    (h : t.version? (outer ++ [pkg]) = some version) : (pkg, version) ∈ t.contents := by
  induction outer generalizing t with
  | nil =>
    obtain ⟨entries⟩ := t
    obtain ⟨⟨v, below⟩, hlook, rfl⟩ := Option.map_eq_some_iff.1 h
    exact (subset_contentsOf hlook).1
  | cons name outer ih =>
    obtain ⟨entries⟩ := t
    rw [List.cons_append, version?_cons_append] at h
    obtain ⟨⟨v, below⟩, hlook, hbelow⟩ := Option.bind_eq_some_iff.1 h
    exact (subset_contentsOf hlook).2 (ih hbelow)

/-- Adding a copy puts no other package version into a tree. -/
theorem contents_insert_subset (version : String) (path : List String) (t : PackageTree) :
    (insert version path t).contents ⊆ (path.getLastD "", version) :: t.contents := by
  induction path generalizing t with
  | nil =>
    rw [insert]
    exact List.subset_cons_self _ _
  | cons name path ih =>
    obtain ⟨entries⟩ := t
    cases path with
    | nil =>
      rw [insert, contents, contentsOf_append]
      intro p hp
      rw [contents]
      simpa [contentsOf, contents, or_comm] using hp
    | cons next path =>
      rw [insert, contents, contents, show (name :: next :: path).getLastD "" = (next :: path).getLastD "" from rfl]
      induction entries with
      | nil => simp [insertBelow, contentsOf]
      | cons e entries ihe =>
        obtain ⟨n, v, below⟩ := e
        unfold insertBelow
        -- the entry that is changed is the first of its name
        split
        · have hbelow := ih below
          intro p hp
          simp only [contentsOf, List.mem_cons, List.mem_append] at hp ⊢
          rcases hp with rfl | hp | hp
          · exact Or.inr (Or.inl rfl)
          · rcases List.mem_cons.1 (hbelow hp) with hnew | hold
            · exact Or.inl hnew
            · exact Or.inr (Or.inr (Or.inl hold))
          · exact Or.inr (Or.inr (Or.inr hp))
        · intro p hp
          simp only [contentsOf, List.mem_cons, List.mem_append] at hp ⊢
          rcases hp with rfl | hp | hp
          · exact Or.inr (Or.inl rfl)
          · exact Or.inr (Or.inr (Or.inl hp))
          · rcases List.mem_cons.1 (ihe hp) with hnew | hold
            · exact Or.inl hnew
            · exact Or.inr (Or.inr (Or.inr hold))

/-- What is in the nested directories is a copy that was placed. -/
theorem exists_of_mem_contents {placed : List Placed} {p : String × String} (h : p ∈ (ofPlaced placed).contents) :
    ∃ c ∈ placed, p = (c.pkg, c.version) := by
  induction placed using List.reverseRecOn with
  | nil => exact absurd h (by simp [ofPlaced, contents, contentsOf])
  | append_singleton placed c ih =>
    have hof : ofPlaced (placed ++ [c]) = insert c.version c.trail.reverse (ofPlaced placed) := by
      unfold ofPlaced
      rw [List.foldl_append, List.foldl_cons, List.foldl_nil]
    rw [hof] at h
    rcases List.mem_cons.1 (contents_insert_subset _ _ _ h) with hnew | hold
    · refine ⟨c, by simp, ?_⟩
      rw [hnew, Placed.pkg]
      cases c.trail <;> simp
    · obtain ⟨d, hd, hp⟩ := ih hold
      exact ⟨d, List.mem_append_left _ hd, hp⟩

end PackageTree

namespace Layout

variable {roots : List (String × String)} {g : Graph} {placed : List Placed} {s : State} {t : Task}

/-! ## What is placed is required -/

/-- The package versions that root dependencies need: the roots and, with a package version, everything that it depends
on under another name. -/
inductive Required (roots : List (String × String)) (g : Graph) : String × String → Prop
  /-- A root dependency. -/
  | root {p : String × String} (h : p ∈ roots) : Required roots g p
  /-- A dependency on a package of another name. -/
  | dependency {p d : String × String} (hp : Required roots g p) (hd : d ∈ g.dependencies p.1 p.2) (hne : d.1 ≠ p.1) :
      Required roots g d

/-- What is placed is required, and so is what waits for its turn. -/
structure Warranted (roots : List (String × String)) (g : Graph) (s : State) : Prop where
  /-- The copies. -/
  placed : ∀ c ∈ s.placed, Required roots g (c.pkg, c.version)
  /-- The copies that wait for their turn. -/
  queued : ∀ t ∈ s.queue, Required roots g (t.copy.pkg, t.copy.version)

theorem placeOne_self {dep : String × String} (h : dep.1 = t.copy.pkg) : placeOne t s dep = s := by
  simp [placeOne, h]

theorem Warranted.placeOne (h : Warranted roots g s) (ht : Required roots g (t.copy.pkg, t.copy.version))
    {dep : String × String} (hdep : dep ∈ g.dependencies t.copy.pkg t.copy.version) :
    Warranted roots g (placeOne t s dep) := by
  by_cases hself : dep.1 = t.copy.pkg
  · rw [placeOne_self hself]
    exact h
  rcases placeOne_cases t s dep with ⟨hs, -⟩ | ⟨-, c, u, hp, hs⟩
  · rw [hs]
    exact h
  have hreq : Required roots g (c.pkg, c.version) := by
    have hpkg : c.pkg = dep.1 := by rcases hp.trail with htrail | htrail <;> rw [Placed.pkg, htrail] <;> rfl
    rw [hpkg, hp.version]
    exact .dependency ht hdep hself
  rw [hs]
  refine ⟨fun d hd => ?_, fun w hw => ?_⟩
  · rcases List.mem_append.1 hd with hd | hd
    · exact h.placed d hd
    · rw [List.mem_singleton.1 hd]
      exact hreq
  · rcases List.mem_append.1 hw with hw | hw
    · exact h.queued w hw
    · rw [List.mem_singleton.1 hw, hp.copy]
      exact hreq

theorem Warranted.foldl (h : Warranted roots g s) (ht : Required roots g (t.copy.pkg, t.copy.version))
    {deps : List (String × String)} (hdeps : deps ⊆ g.dependencies t.copy.pkg t.copy.version) :
    Warranted roots g (deps.foldl (Layout.placeOne t) s) := by
  induction deps generalizing s with
  | nil => exact h
  | cons dep deps ih =>
    rw [List.foldl_cons]
    exact ih (h.placeOne ht (hdeps (by simp))) fun d hd => hdeps (List.mem_cons_of_mem _ hd)

theorem Warranted.work (h : Warranted roots g s) (fuel : Nat) : Warranted roots g (work g fuel s) := by
  induction fuel generalizing s with
  | zero => exact h
  | succ fuel ih =>
    unfold Layout.work
    split
    · exact h
    · next t queue hq =>
      have hrest : Warranted roots g { s with queue := queue } :=
        ⟨h.placed, fun w hw => h.queued w (by rw [hq]; exact List.mem_cons_of_mem _ hw)⟩
      exact ih (hrest.foldl (h.queued t (by simp [hq])) fun d hd => hd)

theorem warranted_initial (roots : List (String × String)) (g : Graph) : Warranted roots g (initial roots) := by
  rw [initial_eq]
  refine ⟨fun c hc => ?_, fun t ht => ?_⟩
  · obtain ⟨r, hr, rfl⟩ := List.mem_map.1 hc
    exact .root hr
  · obtain ⟨r, hr, rfl⟩ := List.mem_map.1 ht
    exact .root hr

/-! ## What is required is placed -/

/-- What is placed stays. -/
theorem placed_placeOne (t : Task) (s : State) (dep : String × String) : s.placed <+: (placeOne t s dep).placed := by
  rcases placeOne_cases t s dep with ⟨hs, -⟩ | ⟨-, c, u, -, hs⟩
  · rw [hs]
  · rw [hs]
    exact List.prefix_append _ _

theorem placed_foldl (t : Task) (deps : List (String × String)) (s : State) :
    s.placed <+: (deps.foldl (placeOne t) s).placed := by
  induction deps generalizing s with
  | nil => exact List.prefix_rfl
  | cons dep deps ih =>
    rw [List.foldl_cons]
    exact (placed_placeOne t s dep).trans (ih _)

theorem placed_work (g : Graph) (fuel : Nat) (s : State) : s.placed <+: (work g fuel s).placed := by
  induction fuel generalizing s with
  | zero => exact List.prefix_rfl
  | succ fuel ih =>
    unfold work
    split
    · exact List.prefix_rfl
    · next t queue hq => exact (placed_foldl t _ { s with queue := queue }).trans (ih _)

/-- A package version is somewhere among the copies. -/
def Occurs (placed : List Placed) (p : String × String) : Prop := ∃ outer, at? placed (p.1 :: outer) = some p.2

/-- The roots are at the top. -/
theorem at?_place_root (hn : (roots.map (·.1)).Nodup) {p : String × String} (hp : p ∈ roots) :
    at? (place roots g) [p.1] = some p.2 := by
  obtain ⟨more, hmore⟩ := placed_work g (taskLimit roots g) (initial roots)
  have hroot : at? (initial roots).placed [p.1] = some p.2 := by
    rw [initial_eq, at?_roots, if_pos rfl]
    exact lookup_of_mem hn hp
  unfold place
  rw [← hmore]
  unfold at? at hroot ⊢
  rw [List.find?_append, Option.map_or, hroot, Option.some_or]

theorem occurs_of_nearest? {pkg v : String} {trail : List String} (h : nearest? placed pkg trail = some v) :
    Occurs placed (pkg, v) := by
  induction trail with
  | nil => exact ⟨[], h⟩
  | cons name trail ih =>
    rw [nearest?_cons, Option.or_eq_some_iff] at h
    rcases h with h | ⟨-, h⟩
    · exact ⟨name :: trail, h⟩
    · exact ih h

theorem Sound.occurs_of_lineage (hs : Sound g placed) {trail : List String} (ht : trail = [] ∨ at? placed trail ≠ none)
    {p : String × String} (h : p ∈ lineage placed trail) : Occurs placed p := by
  induction trail with
  | nil => exact absurd h (by simp [lineage])
  | cons name trail ih =>
    have hne : at? placed (name :: trail) ≠ none := ht.resolve_left (by simp)
    obtain ⟨v, hv⟩ := Option.ne_none_iff_exists'.1 hne
    rw [lineage, hv] at h
    rcases List.mem_cons.1 h with rfl | h
    · exact ⟨trail, hv⟩
    · refine ih ?_ h
      by_cases hnil : trail = []
      · exact Or.inl hnil
      · exact Or.inr (hs.enclosing [name] hnil hne)

/-- A dependency of a copy whose dependencies are resolved is somewhere among the copies. -/
theorem Settled.occurs (hs : Settled g s) (hq : s.queue = []) {p d : String × String} (hp : Occurs s.placed p)
    (hd : d ∈ g.dependencies p.1 p.2) (hne : d.1 ≠ p.1) : Occurs s.placed d := by
  obtain ⟨outer, hat⟩ := hp
  rcases hs.settled p.1 outer p.2 hat (by simp [hq]) d hd hne with hfound | hencloses
  · exact occurs_of_nearest? hfound
  · exact hs.sound.occurs_of_lineage (Or.inr (by rw [hat]; simp)) hencloses

/-- The finished layout of a root map and a graph holds, at any depth, exactly the roots and, with each package version,
what the graph lists for it under other names. -/
theorem mem_contents_place (roots : List (String × String)) (g : Graph) (hn : (roots.map (·.1)).Nodup)
    (hg : DistinctNames g) (p : String × String) :
    p ∈ (PackageTree.ofPlaced (place roots g)).contents ↔ Required roots g p := by
  constructor
  · intro hp
    obtain ⟨c, hc, rfl⟩ := PackageTree.exists_of_mem_contents hp
    exact ((warranted_initial roots g).work (taskLimit roots g)).placed c hc
  · intro hp
    obtain ⟨s, hplaced, hqueue, hs⟩ := settled_place hn hg
    have hoccurs : Occurs s.placed p := by
      induction hp with
      | root hr => exact ⟨[], by rw [hplaced]; exact at?_place_root hn hr⟩
      | dependency _ hd hne ih => exact hs.occurs hqueue ih hd hne
    obtain ⟨outer, hat⟩ := hoccurs
    rw [← hplaced]
    have hversion : (PackageTree.ofPlaced s.placed).version? (outer.reverse ++ [p.1]) = some p.2 := by
      rw [hs.sound.tree, List.reverse_append, List.reverse_reverse]
      exact hat
    exact PackageTree.mem_contents_of_version? hversion

/-- Two packages that depend on each other, one of them also on another version of itself: both are there, the other
version is not. -/
theorem mem_contents_place_cycle :
    ("b", "1") ∈ (PackageTree.ofPlaced (place [("a", "1")]
      [("a", [("1", [("a", "2"), ("b", "1")])]), ("b", [("1", [("a", "1")])])])).contents ∧
    ("a", "2") ∉ (PackageTree.ofPlaced (place [("a", "1")]
      [("a", [("1", [("a", "2"), ("b", "1")])]), ("b", [("1", [("a", "1")])])])).contents :=
  ⟨(mem_contents_place [("a", "1")] [("a", [("1", [("a", "2"), ("b", "1")])]), ("b", [("1", [("a", "1")])])]
    (by decide) (distinctNames_of_all (by decide)) ("b", "1")).2
    (.dependency (.root (p := ("a", "1")) (by decide)) (by decide) (by decide)), by decide +kernel⟩

end Layout

end BareImports
