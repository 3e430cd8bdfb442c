import BareImports.Proofs.Placement.Copies

/-!
# The depth of the finished layout

* `Layout.Works g s s'` : one round of the work, which takes the oldest task;
* `Layout.Unrepeated placed` : no package version encloses itself, `unrepeated_place`;
* `terminates_place` : the rounds come to an end, no path of the finished layout has a package version twice, and each
  name comes to the top once at most.
-/

namespace BareImports

namespace PackageTree

/-- The package versions on the way to a copy are as many as the names. -/
theorem length_chain {t : PackageTree} {path : List String} {v : String} (h : t.version? path = some v) :
    (t.chain path).length = path.length := by
  induction path generalizing t with
  | nil => rfl
  | cons name path ih =>
    obtain ⟨entries⟩ := t
    cases path with
    | nil =>
      obtain ⟨⟨w, below⟩, hlook, -⟩ := Option.map_eq_some_iff.1 h
      rw [chain, hlook]
      rfl
    | cons next path =>
      obtain ⟨⟨w, below⟩, hlook, hbelow⟩ := Option.bind_eq_some_iff.1 h
      rw [chain, hlook, List.length_cons, List.length_cons, ih hbelow]

/-- The package versions on the way to a copy are in the tree. -/
theorem chain_subset_contents (t : PackageTree) (path : List String) : t.chain path ⊆ t.contents := by
  induction path generalizing t with
  | nil => exact List.nil_subset _
  | cons name path ih =>
    obtain ⟨entries⟩ := t
    rw [chain]
    split
    · next v below hlook =>
      obtain ⟨hhere, hbelow⟩ := subset_contentsOf hlook
      exact List.cons_subset.2 ⟨hhere, fun p hp => hbelow (ih below hp)⟩
    · exact List.nil_subset _

end PackageTree

namespace Layout

variable {roots : List (String × String)} {g : Graph} {placed : List Placed} {s : State} {c : Placed}

/-! ## The rounds -/

/-- One round of the work: the dependencies of the oldest task's copy are placed. -/
inductive Works (g : Graph) : State → State → Prop
  /-- There is a task. -/
  | round {s : State} {t : Task} {queue : List Task} (h : s.queue = t :: queue) :
      Works g s (placeAll g t { s with queue := queue })

theorem works_work (g : Graph) (fuel : Nat) (s : State) : Relation.ReflTransGen (Works g) s (work g fuel s) := by
  induction fuel generalizing s with
  | zero => exact .refl
  | succ fuel ih =>
    unfold work
    split
    · exact .refl
    · next hq => exact (Relation.ReflTransGen.single (.round hq)).trans (ih _)

/-! ## Names at the top -/

theorem Bounded.work (hg : DistinctNames g) (hs : Settled g s) (h : Bounded roots g s) (fuel : Nat) :
    Bounded roots g (work g fuel s) := by
  induction fuel generalizing s with
  | zero => exact h
  | succ fuel ih =>
    unfold Layout.work
    split
    · exact h
    · next hq => exact ih (hs.placeAll hg hq) (potential_placeAll h hq (hs.placing hq).trail_ne_nil).1

/-! ## What encloses a copy -/

/-- What is on the way from a copy up to the top is there once only. -/
def Unrepeated (placed : List Placed) : Prop := ∀ trail, at? placed trail ≠ none → (lineage placed trail).Nodup

/-- A new copy closes no cycle. -/
theorem Unrepeated.place (h : Unrepeated s.placed) (hc : Adds g s c) : Unrepeated (s.placed ++ [c]) := by
  obtain ⟨hp, hputs, hfits, hnew⟩ := hc
  intro trail htrail
  by_cases hct : c.trail = trail
  · have hqueued := hputs.queued hp hfits
    have hlineage := hqueued.ancestry
    rw [hputs.copy, hct] at hlineage
    rw [← hlineage]
    cases hputs with
    | top hnone => exact List.nodup_singleton _
    | below hfound hne =>
      refine List.nodup_cons.2 ⟨hnew, ?_⟩
      rw [hp.ancestry]
      exact h _ (by rw [hp.here]; simp)
  · rw [at?_place_of_ne hct] at htrail
    rw [hp.sound.lineage_place hfits (Or.inr htrail)]
    exact h trail htrail

theorem unrepeated_place (hn : (roots.map (·.1)).Nodup) (hg : DistinctNames g) : Unrepeated (place roots g) := by
  refine place_induction hn hg (fun trail htrail => ?_) fun s c hc h => h.place hc
  -- a root is enclosed by nothing
  match trail with
  | [] => exact List.nodup_nil
  | [name] => exact List.nodup_singleton _
  | a :: b :: trail => exact absurd ((at?_roots roots a (b :: trail)).trans (if_neg (by simp))) htrail

/-- For every root map and graph the rounds of the work come to an end, with the finished layout. On the way from the
top-level directory to a copy no package version comes twice, so that the way is no longer than there are package
versions. Each name is placed at the top once at most. -/
theorem terminates_place (roots : List (String × String)) (g : Graph) (hn : (roots.map (·.1)).Nodup)
    (hg : DistinctNames g) :
    (∃ s, Relation.ReflTransGen (Works g) (initial roots) s ∧ s.queue = [] ∧ s.placed = place roots g) ∧
    (∀ path v, (PackageTree.ofPlaced (place roots g)).version? path = some v →
      ((PackageTree.ofPlaced (place roots g)).chain path).Nodup ∧
      ((PackageTree.ofPlaced (place roots g)).chain path).length = path.length ∧
      path.length ≤ (PackageTree.ofPlaced (place roots g)).contents.dedup.length) ∧
    (tops (place roots g)).Nodup := by
  have hs := settled_initial g hn
  obtain ⟨hb, hlt⟩ := bounded_initial g hn
  refine ⟨⟨_, works_work g (taskLimit roots g) _, queue_work hg hs hb hlt, rfl⟩, fun path v hv => ?_, ?_⟩
  · obtain ⟨s, hplaced, -, hsettled⟩ := settled_place hn hg
    have hsound := hsettled.sound
    rw [hplaced] at hsound
    have hat : at? (place roots g) path.reverse ≠ none := by rw [← hsound.tree, hv]; simp
    have hchain := hsound.chain_eq (Or.inr hat)
    rw [List.reverse_reverse] at hchain
    have hnodup : ((PackageTree.ofPlaced (place roots g)).chain path).Nodup := by
      rw [hchain]
      exact List.nodup_reverse.2 (unrepeated_place hn hg _ hat)
    have hlen := PackageTree.length_chain hv
    refine ⟨hnodup, hlen, ?_⟩
    rw [← hlen]
    refine (hnodup.subperm fun p hp => ?_).length_le
    exact List.mem_dedup.2 (PackageTree.chain_subset_contents _ path hp)
  · exact (hb.work hg hs _).distinct

/-- Two packages that need different versions of each other: the cycle is cut below the top. -/
theorem terminates_place_cycle :
    (PackageTree.ofPlaced (place [("a", "1"), ("b", "1")]
      [("a", [("1", [("b", "2")]), ("2", [("b", "1")])]), ("b", [("1", [("a", "2")]), ("2", [("a", "1")])])])).version?
        ["b", "a"] = some "2" ∧
    ((PackageTree.ofPlaced (place [("a", "1"), ("b", "1")]
      [("a", [("1", [("b", "2")]), ("2", [("b", "1")])]), ("b", [("1", [("a", "2")]), ("2", [("a", "1")])])])).chain
        ["b", "a"]).Nodup :=
  have hv : (PackageTree.ofPlaced (place [("a", "1"), ("b", "1")]
      [("a", [("1", [("b", "2")]), ("2", [("b", "1")])]), ("b", [("1", [("a", "2")]), ("2", [("a", "1")])])])).version?
        ["b", "a"] = some "2" := by decide +kernel
  ⟨hv, ((terminates_place [("a", "1"), ("b", "1")]
    [("a", [("1", [("b", "2")]), ("2", [("b", "1")])]), ("b", [("1", [("a", "2")]), ("2", [("a", "1")])])]
    (by decide) (distinctNames_of_all (by decide))).2.1 ["b", "a"] "2" hv).1⟩

end Layout

end BareImports
