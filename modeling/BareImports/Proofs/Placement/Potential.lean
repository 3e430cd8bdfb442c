import BareImports.Proofs.Placement.Run
import Mathlib

/-!
# The run comes to its end

Let `n` be the number of roots and dependencies and `e` that of the dependencies. A task that knows `k` package versions
weighs `(e + 1) ^ (n + 1 - k)`, and each name that may still come to the top weighs as much as a task there.

* `Layout.potential roots g s` : the sum of these weights;
* `Layout.Bounded roots g s` : what encloses a copy is distinct, and so are the packages at the top;
* `potential_placeAll` : each task lowers the potential;
* `queue_work` : no task is left over.
-/

namespace BareImports.Layout

variable {roots : List (String × String)} {g : Graph} {s : State} {t u : Task} {dep : String × String} {c : Placed}

theorem sublist_edges (pkg version : String) : (g.dependencies pkg version).Sublist g.edges := by
  rcases dependencies_cases g pkg version with hnil | ⟨versions, hp, hv⟩
  · rw [hnil]
    exact List.nil_sublist _
  have hinner : (g.dependencies pkg version).Sublist (versions.flatMap (·.2)) := by
    rw [List.flatMap_def]
    exact List.sublist_flatten_of_mem (List.mem_map.2 ⟨_, hv, rfl⟩)
  have houter : (versions.flatMap (·.2)).Sublist g.edges := by
    unfold Graph.edges
    rw [List.flatMap_def]
    exact List.sublist_flatten_of_mem (List.mem_map.2 ⟨_, hp, rfl⟩)
  exact hinner.trans houter

/-! ## The potential -/

/-- The number of roots and dependencies. -/
def total (roots : List (String × String)) (g : Graph) : Nat := roots.length + g.edges.length

/-- The weight of a task that knows `k` package versions. -/
def weight (roots : List (String × String)) (g : Graph) (k : Nat) : Nat :=
  (g.edges.length + 1) ^ (total roots g + 1 - k)

/-- The packages at the top. -/
def tops (placed : List Placed) : List String := (placed.filter fun p => p.trail.length == 1).map (·.pkg)

/-- The weights of the tasks and of the names that may still come to the top. -/
def potential (roots : List (String × String)) (g : Graph) (s : State) : Nat :=
  (s.queue.map fun t => weight roots g t.ancestry.length).sum + (total roots g - (tops s.placed).length) * weight roots g 1

/-- What encloses a copy is distinct, and so are the packages at the top; all are roots or dependencies. -/
structure Bounded (roots : List (String × String)) (g : Graph) (s : State) : Prop where
  /-- The packages at the top are distinct. -/
  distinct : (tops s.placed).Nodup
  /-- The packages at the top are roots or dependencies. -/
  names : tops s.placed ⊆ (roots ++ g.edges).map (·.1)
  /-- What encloses a copy is distinct, and it consists of roots and dependencies. -/
  ancestry : ∀ t ∈ s.queue, t.ancestry.Nodup ∧ t.ancestry ⊆ roots ++ g.edges

theorem length_le_total {β : Type} {l : List β} {f : String × String → β} (hn : l.Nodup)
    (hl : l ⊆ (roots ++ g.edges).map f) : l.length ≤ total roots g := by
  have hle := (hn.subperm hl).length_le
  rw [List.length_map, List.length_append] at hle
  exact hle

theorem Bounded.length_tops (h : Bounded roots g s) : (tops s.placed).length ≤ total roots g :=
  length_le_total h.distinct h.names

theorem Bounded.length_ancestry (h : Bounded roots g s) (ht : t ∈ s.queue) : t.ancestry.length ≤ total roots g :=
  length_le_total (f := id) (h.ancestry t ht).1 (by rw [List.map_id]; exact (h.ancestry t ht).2)

theorem weight_succ {k : Nat} (hk : k ≤ total roots g) :
    weight roots g k = (g.edges.length + 1) * weight roots g (k + 1) := by
  unfold weight
  rw [show total roots g + 1 - k = (total roots g + 1 - (k + 1)) + 1 by omega, Nat.pow_succ, Nat.mul_comm]

theorem weight_pos (roots : List (String × String)) (g : Graph) (k : Nat) : 0 < weight roots g k :=
  Nat.pow_pos (by omega)

theorem not_mem_tops {placed : List Placed} {pkg : String} (h : at? placed [pkg] = none) : pkg ∉ tops placed := by
  intro hmem
  unfold tops at hmem
  obtain ⟨p, hp, hpkg⟩ := List.mem_map.1 hmem
  obtain ⟨hp, hlen⟩ := List.mem_filter.1 hp
  obtain ⟨name, hname⟩ := List.length_eq_one_iff.1 (by simpa using hlen)
  obtain rfl : name = pkg := by rw [← hpkg, Placed.pkg, hname, List.headD_cons]
  unfold at? at h
  rw [Option.map_eq_none_iff, List.find?_eq_none] at h
  exact h p hp (by simp [hname])

/-! ## One dependency -/

theorem tops_append_top (placed : List Placed) (name version : String) :
    tops (placed ++ [⟨[name], version⟩]) = tops placed ++ [name] := by
  simp [tops, Placed.pkg]

theorem tops_append_below (placed : List Placed) (name version : String) {trail : List String} (ht : trail ≠ []) :
    tops (placed ++ [⟨name :: trail, version⟩]) = tops placed := by
  simp [tops, ht]

theorem Bounded.placeOne (h : Bounded roots g s) (ht : t.copy.trail ≠ []) (hanc : t.ancestry.Nodup)
    (hsub : t.ancestry ⊆ roots ++ g.edges) (hdep : dep ∈ g.edges) : Bounded roots g (placeOne t s dep) ∧
      potential roots g (Layout.placeOne t s dep) ≤ potential roots g s + weight roots g (t.ancestry.length + 1) := by
  have hmem : dep ∈ roots ++ g.edges := List.mem_append_right _ hdep
  rcases placeOne_cases t s dep with ⟨hs, -⟩ | ⟨hnew, c, u, hp, hs⟩
  · rw [hs]
    exact ⟨h, Nat.le_add_right _ _⟩
  rw [hs]
  cases hp with
  | top hnone =>
    have hfree := not_mem_tops (at?_singleton_of_nearest? hnone)
    have hb : Bounded roots g
        ⟨s.placed ++ [⟨[dep.1], dep.2⟩], s.queue ++ [⟨⟨[dep.1], dep.2⟩, [dep]⟩]⟩ := by
      refine ⟨?_, ?_, fun w hw => ?_⟩
      · rw [tops_append_top]
        exact List.nodup_append.2 ⟨h.distinct, by simp, fun a ha b hb' hab =>
          hfree (by rw [← List.mem_singleton.1 hb', ← hab]; exact ha)⟩
      · rw [tops_append_top]
        refine List.append_subset.2 ⟨h.names, fun a ha => ?_⟩
        rw [List.mem_singleton.1 ha]
        exact List.mem_map_of_mem hmem
      · rcases List.mem_append.1 hw with hw | hw
        · exact h.ancestry w hw
        · rw [List.mem_singleton.1 hw]
          exact ⟨by simp, by simpa using hmem⟩
    refine ⟨hb, ?_⟩
    have hlen := hb.length_tops
    rw [tops_append_top, List.length_append, List.length_singleton] at hlen
    unfold potential
    rw [tops_append_top, List.length_append, List.length_singleton, List.map_append, List.sum_append]
    obtain ⟨k, hk⟩ := Nat.exists_eq_add_of_le hlen
    rw [hk, show (tops s.placed).length + 1 + k - ((tops s.placed).length + 1) = k by omega,
      show (tops s.placed).length + 1 + k - (tops s.placed).length = k + 1 by omega, Nat.succ_mul]
    simp only [List.map_cons, List.map_nil, List.sum_cons, List.sum_nil, List.length_singleton]
    omega
  | below hfound hne =>
    have hb : Bounded roots g ⟨s.placed ++ [⟨dep.1 :: t.copy.trail, dep.2⟩],
        s.queue ++ [⟨⟨dep.1 :: t.copy.trail, dep.2⟩, dep :: t.ancestry⟩]⟩ := by
      refine ⟨?_, ?_, fun w hw => ?_⟩
      · rw [tops_append_below _ _ _ ht]
        exact h.distinct
      · rw [tops_append_below _ _ _ ht]
        exact h.names
      · rcases List.mem_append.1 hw with hw | hw
        · exact h.ancestry w hw
        · rw [List.mem_singleton.1 hw]
          exact ⟨List.nodup_cons.2 ⟨hnew, hanc⟩, List.cons_subset.2 ⟨hmem, hsub⟩⟩
    refine ⟨hb, ?_⟩
    unfold potential
    rw [tops_append_below _ _ _ ht, List.map_append, List.sum_append]
    simp only [List.map_cons, List.map_nil, List.sum_cons, List.sum_nil, List.length_cons]
    omega

/-- Each dependency raises the potential by no more than a task that knows one package version more. -/
theorem Bounded.foldl (h : Bounded roots g s) (ht : t.copy.trail ≠ []) (hanc : t.ancestry.Nodup)
    (hsub : t.ancestry ⊆ roots ++ g.edges) {deps : List (String × String)} (hdeps : deps ⊆ g.edges) :
    Bounded roots g (deps.foldl (Layout.placeOne t) s) ∧ potential roots g (deps.foldl (Layout.placeOne t) s) ≤
      potential roots g s + deps.length * weight roots g (t.ancestry.length + 1) := by
  induction deps generalizing s with
  | nil => exact ⟨h, by simp⟩
  | cons dep deps ih =>
    obtain ⟨hb, hle⟩ := h.placeOne ht hanc hsub (hdeps List.mem_cons_self)
    obtain ⟨hb', hle'⟩ := ih hb fun d hd => hdeps (List.mem_cons_of_mem _ hd)
    rw [List.foldl_cons, List.length_cons, Nat.succ_mul]
    exact ⟨hb', by omega⟩

/-! ## The whole run -/

/-- Each task lowers the potential. -/
theorem potential_placeAll (h : Bounded roots g s) {queue : List Task} (hq : s.queue = t :: queue)
    (ht : t.copy.trail ≠ []) : Bounded roots g (placeAll g t { s with queue := queue }) ∧
      potential roots g (placeAll g t { s with queue := queue }) < potential roots g s := by
  have hmem : t ∈ s.queue := by rw [hq]; simp
  obtain ⟨hanc, hsub⟩ := h.ancestry t hmem
  have hb : Bounded roots g { s with queue := queue } :=
    ⟨h.distinct, h.names, fun w hw => h.ancestry w (by rw [hq]; exact List.mem_cons_of_mem _ hw)⟩
  have hedges := sublist_edges (g := g) t.copy.pkg t.copy.version
  obtain ⟨hb', hle⟩ := hb.foldl ht hanc hsub hedges.subset
  refine ⟨hb', Nat.lt_of_le_of_lt hle ?_⟩
  have hmul : (g.dependencies t.copy.pkg t.copy.version).length * weight roots g (t.ancestry.length + 1) ≤
      g.edges.length * weight roots g (t.ancestry.length + 1) := Nat.mul_le_mul_right _ hedges.length_le
  have hweight := weight_succ (h.length_ancestry hmem)
  rw [Nat.succ_mul] at hweight
  have hpos := weight_pos roots g (t.ancestry.length + 1)
  have hpop : potential roots g s = potential roots g { s with queue := queue } + weight roots g t.ancestry.length := by
    unfold potential
    rw [hq, List.map_cons, List.sum_cons]
    dsimp only
    omega
  omega

/-- With more fuel than potential, no task is left over. -/
theorem queue_work (hg : DistinctNames g) (hs : Settled g s) (h : Bounded roots g s) {fuel : Nat}
    (hf : potential roots g s < fuel) : (work g fuel s).queue = [] := by
  induction fuel generalizing s with
  | zero => exact absurd hf (by omega)
  | succ fuel ih =>
    unfold work
    split
    · next hq => exact hq
    · next t queue hq =>
      obtain ⟨hb, hlt⟩ := potential_placeAll h hq (hs.placing hq).trail_ne_nil
      exact ih (hs.placeAll hg hq) hb (by omega)

end BareImports.Layout
