import BareImports.Proofs.Placement.Potential
import Mathlib.Logic.Relation

/-!
# Looking dependencies up in the finished layout

* `Layout.settled_initial`, `Layout.settled_place` : the dependencies of every copy of the finished layout are resolved;
* `Layout.place_induction` : what every new copy keeps holds of the finished layout;
* `Layout.Acyclic g` : no package version can reach itself;
* `resolve?_place` : every dependency is found in the version that it was resolved to, unless that version encloses the
  copy, which it never does in an acyclic graph;
* `self_edge` : a package that depends on another version of itself finds its own copy.
-/

namespace BareImports.Layout

variable {roots : List (String × String)} {g : Graph} {placed : List Placed}

/-! ## The roots -/

/-- A root dependency as a copy at the top. -/
def rootCopy (r : String × String) : Placed := ⟨[r.1], r.2⟩

theorem initial_eq (roots : List (String × String)) :
    initial roots = ⟨roots.map rootCopy, roots.map fun r => ⟨rootCopy r, [r]⟩⟩ := by
  unfold initial
  simp only [List.map_map]
  rfl

theorem at?_roots (roots : List (String × String)) (name : String) (trail : List String) :
    at? (roots.map rootCopy) (name :: trail) = if trail = [] then roots.lookup name else none := by
  induction roots with
  | nil => simp [at?]
  | cons r roots ih =>
    obtain ⟨n, v⟩ := r
    rw [List.map_cons, at?_cons, ih, List.lookup_cons]
    by_cases ht : trail = []
    · by_cases hn : n = name
      · simp [rootCopy, ht, hn]
      · have hne : (name == n) = false := by simpa using Ne.symm hn
        simp [rootCopy, ht, hn, hne]
    · simp [rootCopy, ht, Ne.symm ht]

theorem lookup_of_mem {name version : String} (hn : (roots.map (·.1)).Nodup) (h : (name, version) ∈ roots) :
    roots.lookup name = some version := by
  induction roots with
  | nil => exact absurd h (by simp)
  | cons r roots ih =>
    obtain ⟨n, v⟩ := r
    rw [List.map_cons, List.nodup_cons] at hn
    rw [List.lookup_cons]
    rcases List.mem_cons.1 h with heq | hmem
    · obtain ⟨rfl, rfl⟩ := Prod.mk.inj heq
      simp
    · have hne : (name == n) = false := by
        rw [beq_eq_false_iff_ne]
        rintro rfl
        exact hn.1 (List.mem_map.2 ⟨_, hmem, rfl⟩)
      rw [hne]
      exact ih hn.2 hmem

theorem sound_nil (g : Graph) : Sound g [] where
  root := rfl
  parent := by simp [at?]
  tree path := by
    show (PackageTree.dir []).version? path = none
    match path with
    | [] => rfl
    | [name] => rfl
    | name :: next :: path => rfl

theorem Sound.placeRoots (hs : Sound g placed) (hn : (roots.map (·.1)).Nodup)
    (hfree : ∀ r ∈ roots, at? placed [r.1] = none) : Sound g (placed ++ roots.map rootCopy) := by
  induction roots generalizing placed with
  | nil => simpa using hs
  | cons r roots ih =>
    rw [List.map_cons, List.nodup_cons] at hn
    rw [List.map_cons, ← List.singleton_append, ← List.append_assoc]
    have hfits : Fits g placed (rootCopy r) := ⟨by simp [rootCopy], hfree r (by simp), by simp [rootCopy]⟩
    refine ih (hs.place hfits) hn.2 fun q hq => ?_
    rw [at?_place_of_ne, hfree q (by simp [hq])]
    intro heq
    have heq' : r.1 = q.1 := by simpa [rootCopy] using heq
    exact hn.1 (heq' ▸ List.mem_map_of_mem hq)

theorem settled_initial (g : Graph) (hn : (roots.map (·.1)).Nodup) : Settled g (initial roots) := by
  have hsound : Sound g (roots.map rootCopy) := by
    simpa using (sound_nil g).placeRoots hn (by simp [at?])
  rw [initial_eq]
  refine ⟨hsound, fun t ht => ?_, ?_, fun name trail v hv hq => ?_⟩
  · obtain ⟨⟨name, version⟩, hr, rfl⟩ := List.mem_map.1 ht
    have hat : at? (roots.map rootCopy) [name] = some version := by
      rw [at?_roots, if_pos rfl, lookup_of_mem hn hr]
    refine ⟨hat, ?_, fun a => ?_⟩
    · simp only [rootCopy, lineage]
      rw [show at? (roots.map rootCopy) [name] = some version from hat, Option.getD_some]
    · exact (at?_roots roots a [name]).trans (if_neg (by simp))
  · have htrails : (roots.map fun r => (⟨rootCopy r, [r]⟩ : Task)).map (·.copy.trail) =
        (roots.map (·.1)).map fun n => [n] := by
      rw [List.map_map, List.map_map]
      rfl
    rw [htrails]
    exact hn.map fun a b hab => (List.cons.inj hab).1
  · -- every root is in the queue
    exfalso
    rw [at?_roots] at hv
    split at hv
    · next ht =>
      obtain ⟨l, l', hl, -⟩ := List.lookup_eq_some_iff.1 hv
      exact hq ⟨rootCopy (name, v), [(name, v)]⟩ (List.mem_map.2 ⟨(name, v), by simp [hl], rfl⟩) (by simp [rootCopy, ht])
    · exact absurd hv (by simp)

theorem bounded_initial (g : Graph) (hn : (roots.map (·.1)).Nodup) : Bounded roots g (initial roots) ∧
    potential roots g (initial roots) < taskLimit roots g := by
  have htops : tops (roots.map rootCopy) = roots.map (·.1) := by
    unfold tops
    have hlen : ∀ p ∈ roots.map rootCopy, (p.trail.length == 1) = true := fun p hp => by
      obtain ⟨r, -, rfl⟩ := List.mem_map.1 hp
      rfl
    rw [List.filter_eq_self.2 hlen, List.map_map]
    rfl
  rw [initial_eq]
  refine ⟨⟨?_, ?_, fun t ht => ?_⟩, ?_⟩
  · rwa [htops]
  · rw [htops, List.map_append]
    exact List.subset_append_left _ _
  · obtain ⟨r, hr, rfl⟩ := List.mem_map.1 ht
    exact ⟨by simp, by simpa using Or.inl hr⟩
  · have hsum : ((roots.map fun r => (⟨rootCopy r, [r]⟩ : Task)).map
        fun t => weight roots g t.ancestry.length).sum = roots.length * weight roots g 1 := by
      rw [List.map_map]
      simp [Function.comp_def]
    unfold potential taskLimit
    dsimp only
    rw [hsum, htops, List.length_map, ← Nat.add_mul]
    have hweight : weight roots g 1 * 1 ≤ weight roots g 1 * (g.edges.length + 1) := Nat.mul_le_mul_left _ (by omega)
    have htotal : roots.length + (total roots g - roots.length) ≤ total roots g + 1 := by
      unfold total
      omega
    have hle := Nat.mul_le_mul htotal hweight
    have hpow : weight roots g 1 * (g.edges.length + 1) = (g.edges.length + 1).pow (total roots g + 1) := rfl
    rw [hpow, Nat.mul_one] at hle
    exact Nat.lt_succ_of_le hle

/-! ## The finished layout -/

theorem settled_place (hn : (roots.map (·.1)).Nodup) (hg : DistinctNames g) :
    ∃ s : State, s.placed = place roots g ∧ s.queue = [] ∧ Settled g s := by
  have hs := settled_initial g hn
  obtain ⟨hb, hlt⟩ := bounded_initial g hn
  exact ⟨work g (taskLimit roots g) (initial roots), rfl, queue_work hg hs hb hlt, hs.work hg _⟩

/-- What holds of the roots and what every new copy keeps, holds of the finished layout. -/
theorem place_induction {P : List Placed → Prop} (hn : (roots.map (·.1)).Nodup) (hg : DistinctNames g)
    (hroots : P (roots.map rootCopy)) (hstep : ∀ s c, Adds g s c → P s.placed → P (s.placed ++ [c])) :
    P (place roots g) := by
  refine (settled_initial g hn).work_induction hg hstep ?_ _
  rw [initial_eq]
  exact hroots

/-- Looking up in the nested directories is looking up among the copies. -/
theorem Sound.resolve?_eq (hs : Sound g placed) (trail : List String) (pkg : String) :
    (PackageTree.ofPlaced placed).resolve? trail.reverse pkg = nearest? placed pkg trail := by
  induction trail with
  | nil =>
    have hat := hs.tree [pkg]
    rw [List.reverse_singleton] at hat
    rw [List.reverse_nil, nearest?, ← hat]
    obtain ⟨entries⟩ := PackageTree.ofPlaced placed
    rfl
  | cons name trail ih =>
    rw [List.reverse_cons, PackageTree.resolve?_append, ih, hs.tree, nearest?_cons]
    simp

/-- The chain to a copy in the nested directories is its lineage among the copies. -/
theorem Sound.chain_eq (hs : Sound g placed) {trail : List String} (h : trail = [] ∨ at? placed trail ≠ none) :
    (PackageTree.ofPlaced placed).chain trail.reverse = (lineage placed trail).reverse := by
  induction trail with
  | nil => rfl
  | cons name trail ih =>
    have hne : at? placed (name :: trail) ≠ none := h.resolve_left (by simp)
    have hrest : trail = [] ∨ at? placed trail ≠ none := by
      by_cases ht : trail = []
      · exact Or.inl ht
      · exact Or.inr (hs.enclosing [name] ht hne)
    obtain ⟨v, hv⟩ := Option.ne_none_iff_exists'.1 hne
    rw [List.reverse_cons, PackageTree.chain_append, ih hrest, hs.tree, lineage, List.reverse_cons,
      List.reverse_append, List.reverse_reverse, List.reverse_singleton, List.singleton_append, hv]
    rfl

/-! ## Cycles -/

/-- A package version depends on another one. -/
def Needs (g : Graph) (a b : String × String) : Prop := b ∈ g.dependencies a.1 a.2

/-- No package version can reach itself. -/
def Acyclic (g : Graph) : Prop := ∀ a, ¬ Relation.TransGen (Needs g) a a

/-- What encloses a copy reaches it. -/
theorem Sound.reaches (hs : Sound g placed) {name v : String} {trail : List String} {a : String × String}
    (hv : at? placed (name :: trail) = some v) (ha : a ∈ lineage placed (name :: trail)) :
    Relation.ReflTransGen (Needs g) a (name, v) := by
  induction trail generalizing name v with
  | nil =>
    rw [lineage, hv] at ha
    rw [List.mem_singleton.1 ha]
    exact .refl
  | cons b trail ih =>
    rw [lineage, hv] at ha
    obtain ⟨w, hw, hdep⟩ := hs.parent name b trail v hv
    rcases List.mem_cons.1 ha with rfl | ha
    · exact .refl
    · exact (ih hw ha).tail hdep

/-- For every root map and graph, a dependency on a package of another name is found from every copy in exactly the
version that it was resolved to, unless that package version is one of those from the top-level entry down to the copy.
In an acyclic graph it always is. -/
theorem resolve?_place (roots : List (String × String)) (g : Graph) (hn : (roots.map (·.1)).Nodup)
    (hg : DistinctNames g) (outer : List String) (pkg version : String)
    (hcopy : (PackageTree.ofPlaced (place roots g)).version? (outer ++ [pkg]) = some version)
    (dep depVersion : String) (hdep : (dep, depVersion) ∈ g.dependencies pkg version) (hne : dep ≠ pkg) :
    ((PackageTree.ofPlaced (place roots g)).resolve? (outer ++ [pkg]) dep = some depVersion ∨
      (dep, depVersion) ∈ (PackageTree.ofPlaced (place roots g)).chain (outer ++ [pkg])) ∧
    (Acyclic g → (PackageTree.ofPlaced (place roots g)).resolve? (outer ++ [pkg]) dep = some depVersion) := by
  obtain ⟨s, hplaced, hqueue, hs⟩ := settled_place hn hg
  rw [← hplaced] at hcopy ⊢
  have htrail : (pkg :: outer.reverse).reverse = outer ++ [pkg] := by simp
  rw [hs.sound.tree, ← htrail, List.reverse_reverse] at hcopy
  have hres := hs.settled pkg outer.reverse version hcopy (by simp [hqueue]) (dep, depVersion) hdep hne
  rw [← htrail, hs.sound.resolve?_eq, hs.sound.chain_eq (Or.inr (by rw [hcopy]; simp)), List.mem_reverse]
  refine ⟨hres, fun hacyclic => hres.resolve_right fun hmem => ?_⟩
  exact hacyclic _ (Relation.TransGen.tail' (hs.sound.reaches hcopy hmem) hdep)

/-- A nested copy of another version finds its own dependency. -/
theorem resolve?_place_nested :
    (PackageTree.ofPlaced (place [("foo", "1"), ("bar", "1")]
      [("foo", [("1", [("bar", "2")])]), ("bar", [("2", [("baz", "2")])])])).resolve? ["foo", "bar"] "baz" =
      some "2" :=
  (resolve?_place [("foo", "1"), ("bar", "1")] [("foo", [("1", [("bar", "2")])]), ("bar", [("2", [("baz", "2")])])]
    (by decide) (distinctNames_of_all (by decide)) ["foo"] "bar" "2" (by decide +kernel) "baz" "2" (by decide)
    (by decide)).1.resolve_right (by decide +kernel)

/-- A package that depends on another version of itself finds its own copy, although no package version reaches
itself. -/
theorem self_edge : Acyclic [("a", [("1.0.0", [("a", "2.0.0")])])] ∧
    (PackageTree.ofPlaced (place [("a", "1.0.0")] [("a", [("1.0.0", [("a", "2.0.0")])])])).version? ["a"] =
      some "1.0.0" ∧
    ("a", "2.0.0") ∈ Graph.dependencies [("a", [("1.0.0", [("a", "2.0.0")])])] "a" "1.0.0" ∧
    (PackageTree.ofPlaced (place [("a", "1.0.0")] [("a", [("1.0.0", [("a", "2.0.0")])])])).resolve? ["a"] "a" ≠
      some "2.0.0" := by
  refine ⟨fun a ha => ?_, by decide +kernel, by decide, by decide +kernel⟩
  have hneeds : ∀ b c, Needs [("a", [("1.0.0", [("a", "2.0.0")])])] b c → b.2 = "1.0.0" ∧ c.2 = "2.0.0" := by
    intro b c hc
    rcases dependencies_cases [("a", [("1.0.0", [("a", "2.0.0")])])] b.1 b.2 with hnil | ⟨versions, hp, hv⟩
    · unfold Needs at hc
      rw [hnil] at hc
      exact absurd hc (by simp)
    · obtain ⟨-, rfl⟩ : b.1 = "a" ∧ versions = [("1.0.0", [("a", "2.0.0")])] := by simpa using hp
      obtain ⟨hb, hdeps⟩ : b.2 = "1.0.0" ∧ Graph.dependencies _ b.1 b.2 = [("a", "2.0.0")] := by simpa using hv
      unfold Needs at hc
      rw [hdeps] at hc
      rw [List.mem_singleton.1 hc]
      exact ⟨hb, rfl⟩
  -- what is reached has the other version
  have htwo : ∀ c, Relation.TransGen (Needs [("a", [("1.0.0", [("a", "2.0.0")])])]) a c → c.2 = "2.0.0" := by
    intro c hc
    cases hc with
    | single h => exact (hneeds _ _ h).2
    | tail _ h => exact (hneeds _ _ h).2
  obtain ⟨b, hab, -⟩ := Relation.TransGen.head'_iff.1 ha
  have hone := (hneeds a b hab).1
  rw [htwo a ha] at hone
  exact absurd hone (by decide)

end BareImports.Layout
