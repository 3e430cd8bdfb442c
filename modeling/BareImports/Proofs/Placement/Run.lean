import BareImports.Proofs.Placement.Layout

/-!
# What placing dependencies keeps

* `Layout.Resolved placed trail dep` : a dependency is found from a copy, or its version encloses the copy;
* `Layout.Settled g s` : the dependencies of every copy but those in the queue are resolved;
* `Layout.Placing g t done s` : the same while the dependencies of one copy are placed;
* `Placing.placeOne` : one dependency; `Settled.work` : the whole run;
* `Settled.work_induction` : what every new copy keeps, the whole run keeps.
-/

namespace BareImports.Layout

/-- A dependency is found from a copy in the version that it was resolved to, or that version encloses the copy. -/
def Resolved (placed : List Placed) (trail : List String) (dep : String × String) : Prop :=
  nearest? placed dep.1 trail = some dep.2 ∨ dep ∈ lineage placed trail

/-- A task is for a copy without copies below it. -/
structure Queued (placed : List Placed) (t : Task) : Prop where
  /-- The copy is there. -/
  here : at? placed t.copy.trail = some t.copy.version
  /-- The task knows what encloses its copy. -/
  ancestry : t.ancestry = lineage placed t.copy.trail
  /-- Nothing is below the copy. -/
  leaf : ∀ a, at? placed (a :: t.copy.trail) = none

/-- The dependencies of every copy but those in the queue are resolved. -/
structure Settled (g : Graph) (s : State) : Prop where
  /-- The copies are sound. -/
  sound : Sound g s.placed
  /-- The tasks are for copies without copies below them. -/
  queued : ∀ t ∈ s.queue, Queued s.placed t
  /-- No two tasks are for one copy. -/
  distinct : (s.queue.map (·.copy.trail)).Nodup
  /-- The dependencies of the other copies are resolved. -/
  settled : ∀ (name : String) (trail : List String) (v : String), at? s.placed (name :: trail) = some v →
    (∀ t ∈ s.queue, t.copy.trail ≠ name :: trail) →
    ∀ dep ∈ g.dependencies name v, dep.1 ≠ name → Resolved s.placed (name :: trail) dep

/-- The dependencies of every copy but those in the queue and one more are resolved, and some of that one. -/
structure Placing (g : Graph) (t : Task) (done : List (String × String)) (s : State) : Prop where
  /-- The copies are sound. -/
  sound : Sound g s.placed
  /-- The tasks are for copies without copies below them. -/
  queued : ∀ u ∈ s.queue, Queued s.placed u
  /-- No two tasks are for one copy. -/
  distinct : (t.copy.trail :: s.queue.map (·.copy.trail)).Nodup
  /-- The dependencies of the other copies are resolved. -/
  settled : ∀ (name : String) (trail : List String) (v : String), at? s.placed (name :: trail) = some v →
    t.copy.trail ≠ name :: trail → (∀ u ∈ s.queue, u.copy.trail ≠ name :: trail) →
    ∀ dep ∈ g.dependencies name v, dep.1 ≠ name → Resolved s.placed (name :: trail) dep
  /-- The copy is there. -/
  here : at? s.placed t.copy.trail = some t.copy.version
  /-- The task knows what encloses its copy. -/
  ancestry : t.ancestry = lineage s.placed t.copy.trail
  /-- What is below the copy is there for a dependency of it and still in the queue. -/
  children : ∀ a, at? s.placed (a :: t.copy.trail) ≠ none →
    a ∈ done.map (·.1) ∧ ∃ u ∈ s.queue, u.copy.trail = a :: t.copy.trail
  /-- Some dependencies of the copy are resolved. -/
  resolved : ∀ dep ∈ done, dep.1 ≠ t.copy.pkg → Resolved s.placed t.copy.trail dep

/-- A copy for a dependency, with its task: at the top if no version of it was found, else below the copy that needs
it. -/
inductive Puts (t : Task) (s : State) (dep : String × String) : Placed → Task → Prop
  /-- At the top. -/
  | top (h : nearest? s.placed dep.1 t.copy.trail = none) :
      Puts t s dep ⟨[dep.1], dep.2⟩ ⟨⟨[dep.1], dep.2⟩, [dep]⟩
  /-- Below the copy that needs it. -/
  | below {found : String} (h : nearest? s.placed dep.1 t.copy.trail = some found) (hf : found ≠ dep.2) :
      Puts t s dep ⟨dep.1 :: t.copy.trail, dep.2⟩ ⟨⟨dep.1 :: t.copy.trail, dep.2⟩, dep :: t.ancestry⟩

/-- All that placing one dependency does: nothing, or a copy is placed and waits for its turn. -/
theorem placeOne_cases (t : Task) (s : State) (dep : String × String) :
    (placeOne t s dep = s ∧ (dep.1 = t.copy.pkg ∨ dep ∈ t.ancestry ∨
      nearest? s.placed dep.1 t.copy.trail = some dep.2)) ∨
    (dep ∉ t.ancestry ∧ ∃ c u, Puts t s dep c u ∧ placeOne t s dep = ⟨s.placed ++ [c], s.queue ++ [u]⟩) := by
  obtain ⟨name, version⟩ := dep
  simp only [placeOne]
  split
  · next h =>
    refine Or.inl ⟨rfl, ?_⟩
    rw [Bool.or_eq_true, beq_iff_eq, List.contains_iff_mem] at h
    exact h.imp_right Or.inl
  · next h =>
    rw [Bool.or_eq_true, beq_iff_eq, List.contains_iff_mem, not_or] at h
    split
    · next hnone => exact Or.inr ⟨h.2, _, _, .top hnone, rfl⟩
    · next found hfound =>
      split
      · next heq =>
        rw [beq_iff_eq] at heq
        exact Or.inl ⟨rfl, Or.inr (Or.inr (heq ▸ hfound))⟩
      · next hne => exact Or.inr ⟨h.2, _, _, .below hfound (by simpa using hne), rfl⟩

section Puts

variable {g : Graph} {t u : Task} {done : List (String × String)} {s : State} {dep : String × String} {c : Placed}

theorem Puts.copy (h : Puts t s dep c u) : u.copy = c := by
  cases h <;> rfl

theorem Puts.version (h : Puts t s dep c u) : c.version = dep.2 := by
  cases h <;> rfl

/-- A new copy is at the top or right below the copy that needs it. -/
theorem Puts.trail (h : Puts t s dep c u) : c.trail = [dep.1] ∨ c.trail = dep.1 :: t.copy.trail := by
  cases h
  · exact Or.inl rfl
  · exact Or.inr rfl

theorem Placing.trail_ne_nil (h : Placing g t done s) : t.copy.trail ≠ [] := by
  intro hnil
  have hhere := h.here
  rw [hnil, h.sound.root] at hhere
  exact absurd hhere (by simp)

/-- The copy with its package and what encloses it. -/
theorem Placing.trail_eq (h : Placing g t done s) : ∃ outer, t.copy.trail = t.copy.pkg :: outer := by
  obtain ⟨name, outer, ht⟩ := List.exists_cons_of_ne_nil h.trail_ne_nil
  refine ⟨outer, ?_⟩
  unfold Placed.pkg
  rw [ht, List.headD_cons]

theorem Puts.fits (hp : Puts t s dep c u) (h : Placing g t done s)
    (hdep : dep ∈ g.dependencies t.copy.pkg t.copy.version) (hnew : dep.1 ∉ done.map (·.1)) : Fits g s.placed c := by
  cases hp with
  | top hnone => exact ⟨by simp, at?_singleton_of_nearest? hnone, by simp⟩
  | below hfound hne =>
    refine ⟨by simp, ?_, fun a b trail htrail => ?_⟩
    · by_contra hthere
      exact hnew (h.children _ hthere).1
    · obtain ⟨outer, ht⟩ := h.trail_eq
      obtain ⟨rfl, hb⟩ := List.cons.inj htrail
      have hbt := hb
      rw [ht] at hbt
      obtain ⟨rfl, -⟩ := List.cons.inj hbt
      exact ⟨t.copy.version, hb ▸ h.here, hdep⟩

/-- Below the copy whose dependencies are being placed, everything is in the queue. -/
theorem Placing.queued_of_below (h : Placing g t done s) {trail : List String} (ht : t.copy.trail <:+ trail)
    (hne : t.copy.trail ≠ trail) (hat : at? s.placed trail ≠ none) : ∃ w ∈ s.queue, w.copy.trail = trail := by
  obtain ⟨inner, rfl⟩ := ht
  -- the innermost copies come last
  rcases List.eq_nil_or_concat inner with rfl | ⟨inner, a, rfl⟩
  · exact absurd rfl hne
  rw [List.concat_eq_append, List.append_assoc, List.singleton_append] at hat ⊢
  obtain ⟨-, w, hw, hwt⟩ := h.children a (h.sound.enclosing inner (by simp) hat)
  rcases List.eq_nil_or_concat inner with rfl | ⟨inner, b, rfl⟩
  · exact ⟨w, hw, hwt⟩
  · rw [List.concat_eq_append, List.append_assoc, List.singleton_append] at hat
    refine absurd ((h.queued w hw).leaf b) ?_
    rw [hwt]
    exact h.sound.enclosing inner (by simp) hat

/-- A new copy hides nothing from a copy whose dependencies are resolved. -/
theorem Puts.resolved (hp : Puts t s dep c u) (h : Placing g t done s) (hc : Fits g s.placed c) {trail : List String}
    {d : String × String} (hat : at? s.placed trail ≠ none)
    (hd : t.copy.trail <:+ trail → t.copy.trail = trail ∧ d.1 ≠ dep.1) (hres : Resolved s.placed trail d) :
    Resolved (s.placed ++ [c]) trail d := by
  rcases hres with hfound | hmem
  · refine Or.inl (nearest?_place hfound fun outer ho hne hct => ?_)
    rcases hp.trail with htop | hbelow
    · rw [htop] at hct
      exact hne (List.cons.inj hct).2.symm
    · rw [hbelow] at hct
      obtain ⟨hname, rfl⟩ := List.cons.inj hct
      exact (hd ho).2 hname.symm
  · refine Or.inr ?_
    rw [h.sound.lineage_place hc (Or.inr hat)]
    exact hmem

/-- The task of a new copy knows what encloses it, and nothing is below the copy. -/
theorem Puts.queued (hp : Puts t s dep c u) (h : Placing g t done s) (hc : Fits g s.placed c) :
    Queued (s.placed ++ [c]) u where
  here := by rw [hp.copy, hc.at?_place]
  ancestry := by
    have hhere := hc.at?_place
    cases hp with
    | top hnone =>
      simp only [lineage]
      rw [hhere, Option.getD_some]
    | below hfound hne =>
      have hat : at? s.placed t.copy.trail ≠ none := by rw [h.here]; simp
      simp only [lineage]
      rw [hhere, Option.getD_some, h.sound.lineage_place hc (Or.inr hat), h.ancestry]
  leaf a := by
    rw [hp.copy, at?_place_of_ne (by simp)]
    by_contra hthere
    exact h.sound.enclosing [a] hc.nonempty hthere hc.free

/-- A task that was in the queue stays as it is. -/
theorem Puts.queued_of_queued (hp : Puts t s dep c u) (h : Placing g t done s) (hc : Fits g s.placed c) {w : Task}
    (hw : w ∈ s.queue) : Queued (s.placed ++ [c]) w where
  here := at?_place_of_some (h.queued w hw).here
  ancestry := by
    have hat : at? s.placed w.copy.trail ≠ none := by rw [(h.queued w hw).here]; simp
    rw [h.sound.lineage_place hc (Or.inr hat)]
    exact (h.queued w hw).ancestry
  leaf a := by
    rw [at?_place_of_ne, (h.queued w hw).leaf]
    intro hct
    rcases hp.trail with htop | hbelow
    · rw [htop] at hct
      have hhere := (h.queued w hw).here
      rw [← (List.cons.inj hct).2, h.sound.root] at hhere
      exact absurd hhere (by simp)
    · rw [hbelow] at hct
      refine (List.nodup_cons.1 h.distinct).1 ?_
      rw [(List.cons.inj hct).2]
      exact List.mem_map_of_mem hw

/-- A new copy resolves the dependency that it is there for. -/
theorem Puts.resolves (hp : Puts t s dep c u) (h : Placing g t done s) (hc : Fits g s.placed c) :
    Resolved (s.placed ++ [c]) t.copy.trail dep := by
  have hhere := hc.at?_place
  cases hp with
  | top hnone => exact Or.inl (nearest?_place_top hnone rfl)
  | below hfound hne =>
    refine Or.inl ?_
    obtain ⟨outer, ht⟩ := h.trail_eq
    rw [ht] at hhere ⊢
    rw [nearest?_cons, hhere, Option.some_or]

/-- What placing one dependency keeps. -/
theorem Placing.placeOne (h : Placing g t done s) (hdep : dep ∈ g.dependencies t.copy.pkg t.copy.version)
    (hnew : dep.1 ∉ done.map (·.1)) : Placing g t (done ++ [dep]) (placeOne t s dep) := by
  rcases placeOne_cases t s dep with ⟨hs, hskip⟩ | ⟨hanc, c, u, hp, hs⟩
  · rw [hs]
    refine { h with children := fun a ha => ?_, resolved := fun d hd hpkg => ?_ }
    · obtain ⟨hmem, hq⟩ := h.children a ha
      exact ⟨by rw [List.map_append]; exact List.mem_append_left _ hmem, hq⟩
    · rcases List.mem_append.1 hd with hd | hd
      · exact h.resolved d hd hpkg
      · rw [List.mem_singleton.1 hd] at hpkg ⊢
        rcases hskip with hself | hcycle | hfound
        · exact absurd hself hpkg
        · exact Or.inr (h.ancestry ▸ hcycle)
        · exact Or.inl hfound
  · rw [hs]
    have hc := hp.fits h hdep hnew
    have hthere : at? s.placed t.copy.trail ≠ none := by rw [h.here]; simp
    refine ⟨h.sound.place hc, fun w hw => ?_, ?_, fun name trail v hv ht hq d hd hpkg => ?_, ?_, ?_, fun a ha => ?_,
      fun d hd hpkg => ?_⟩
    · rcases List.mem_append.1 hw with hw | hw
      · exact hp.queued_of_queued h hc hw
      · rw [List.mem_singleton.1 hw]
        exact hp.queued h hc
    · -- the tasks are for copies that are there, the new copy was not
      rw [List.map_append, ← List.cons_append, List.map_singleton, hp.copy, List.nodup_append]
      refine ⟨h.distinct, by simp, fun trail htrail trail' htrail' heq => ?_⟩
      rw [List.mem_singleton.1 htrail'] at heq
      subst heq
      rcases List.mem_cons.1 htrail with hct | hct
      · exact hthere (hct ▸ hc.free)
      · obtain ⟨w, hw, hwt⟩ := List.mem_map.1 hct
        have hwhere := (h.queued w hw).here
        rw [hwt, hc.free] at hwhere
        exact absurd hwhere (by simp)
    · have hct : c.trail ≠ name :: trail := by
        rw [← hp.copy]
        exact hq u (by simp)
      rw [at?_place_of_ne hct] at hv
      have hq' : ∀ w ∈ s.queue, w.copy.trail ≠ name :: trail := fun w hw => hq w (List.mem_append_left _ hw)
      have hat : at? s.placed (name :: trail) ≠ none := by rw [hv]; simp
      refine hp.resolved h hc hat (fun hsuffix => ?_) (h.settled name trail v hv ht hq' d hd hpkg)
      obtain ⟨w, hw, hwt⟩ := h.queued_of_below hsuffix ht hat
      exact absurd hwt (hq' w hw)
    · exact at?_place_of_some h.here
    · rw [h.sound.lineage_place hc (Or.inr hthere)]
      exact h.ancestry
    · rw [List.map_append]
      by_cases hct : c.trail = a :: t.copy.trail
      · refine ⟨List.mem_append_right _ ?_, u, by simp, by rw [hp.copy, hct]⟩
        rcases hp.trail with htop | hbelow
        · rw [htop] at hct
          exact absurd (List.cons.inj hct).2.symm h.trail_ne_nil
        · rw [hbelow] at hct
          simp [(List.cons.inj hct).1]
      · rw [at?_place_of_ne hct] at ha
        obtain ⟨hmem, w, hw, hwt⟩ := h.children a ha
        exact ⟨List.mem_append_left _ hmem, w, List.mem_append_left _ hw, hwt⟩
    · rcases List.mem_append.1 hd with hd | hd
      · refine hp.resolved h hc hthere (fun _ => ⟨rfl, ?_⟩) (h.resolved d hd hpkg)
        rintro heq
        exact hnew (heq ▸ List.mem_map_of_mem hd)
      · rw [List.mem_singleton.1 hd]
        exact hp.resolves h hc

/-- What placing the dependencies of a copy keeps. -/
theorem Placing.foldl (h : Placing g t done s) {deps : List (String × String)}
    (hdeps : ∀ d ∈ deps, d ∈ g.dependencies t.copy.pkg t.copy.version)
    (hnodup : ((done ++ deps).map (·.1)).Nodup) : Placing g t (done ++ deps) (deps.foldl (Layout.placeOne t) s) := by
  induction deps generalizing done s with
  | nil => simpa using h
  | cons dep deps ih =>
    have hnew : dep.1 ∉ done.map (·.1) := by
      rw [List.map_append, List.nodup_append] at hnodup
      exact fun hmem => hnodup.2.2 _ hmem _ (by simp) rfl
    rw [List.foldl_cons, ← List.singleton_append, ← List.append_assoc]
    refine ih (h.placeOne (hdeps dep (by simp)) hnew) (fun d hd => hdeps d (by simp [hd])) ?_
    simpa using hnodup

/-- A copy that is about to be placed while the dependencies of some copy are placed. -/
inductive Adds (g : Graph) (s : State) (c : Placed) : Prop
  /-- It is there for a dependency that closes no cycle, and it can be placed. -/
  | intro {t u : Task} {done : List (String × String)} {dep : String × String} (hp : Placing g t done s)
      (hputs : Puts t s dep c u) (hfits : Fits g s.placed c) (hnew : dep ∉ t.ancestry)

theorem Adds.fits (h : Adds g s c) : Fits g s.placed c := by
  obtain ⟨-, -, hfits, -⟩ := h
  exact hfits

/-- What every new copy keeps, placing the dependencies of a copy keeps. -/
theorem Placing.foldl_induction {P : List Placed → Prop}
    (hstep : ∀ s c, Adds g s c → P s.placed → P (s.placed ++ [c])) (h : Placing g t done s)
    {deps : List (String × String)} (hdeps : ∀ d ∈ deps, d ∈ g.dependencies t.copy.pkg t.copy.version)
    (hnodup : ((done ++ deps).map (·.1)).Nodup) (hs : P s.placed) : P (deps.foldl (Layout.placeOne t) s).placed := by
  induction deps generalizing done s with
  | nil => exact hs
  | cons dep deps ih =>
    have hdep := hdeps dep (by simp)
    have hnew : dep.1 ∉ done.map (·.1) := by
      rw [List.map_append, List.nodup_append] at hnodup
      exact fun hmem => hnodup.2.2 _ hmem _ (by simp) rfl
    rw [List.foldl_cons]
    refine ih (h.placeOne hdep hnew) (fun d hd => hdeps d (by simp [hd])) (by simpa using hnodup) ?_
    rcases placeOne_cases t s dep with ⟨heq, -⟩ | ⟨hanc, c, u, hputs, heq⟩
    · rw [heq]
      exact hs
    · rw [heq]
      exact hstep s c ⟨h, hputs, hputs.fits h hdep hnew, hanc⟩ hs

end Puts

/-! ## The whole run -/

section Run

variable {g : Graph} {s : State} {t : Task}

theorem Settled.placing (h : Settled g s) {queue : List Task} (hq : s.queue = t :: queue) :
    Placing g t [] { s with queue := queue } where
  sound := h.sound
  queued u hu := h.queued u (by rw [hq]; exact List.mem_cons_of_mem _ hu)
  distinct := by
    have hd := h.distinct
    rwa [hq, List.map_cons] at hd
  settled name trail v hv ht hu := h.settled name trail v hv fun w hw => by
    rw [hq] at hw
    rcases List.mem_cons.1 hw with rfl | hw
    · exact ht
    · exact hu w hw
  here := (h.queued t (by simp [hq])).here
  ancestry := (h.queued t (by simp [hq])).ancestry
  children a ha := absurd ((h.queued t (by simp [hq])).leaf a) ha
  resolved := by simp

theorem Placing.finished (h : Placing g t (g.dependencies t.copy.pkg t.copy.version) s) : Settled g s where
  sound := h.sound
  queued := h.queued
  distinct := (List.nodup_cons.1 h.distinct).2
  settled name trail v hv hq dep hdep hname := by
    by_cases ht : t.copy.trail = name :: trail
    · obtain ⟨outer, hto⟩ := h.trail_eq
      have hhere := h.here
      rw [ht, hv] at hhere
      rw [ht] at hto
      obtain ⟨rfl, -⟩ := List.cons.inj hto
      rw [← ht]
      exact h.resolved dep (Option.some.inj hhere ▸ hdep) hname
    · exact h.settled name trail v hv ht hq dep hdep hname

/-- What one task keeps. -/
theorem Settled.placeAll (hg : DistinctNames g) (h : Settled g s) {queue : List Task} (hq : s.queue = t :: queue) :
    Settled g (placeAll g t { s with queue := queue }) := by
  have hp := (h.placing hq).foldl (fun d hd => hd) (by rw [List.nil_append]; exact hg _ _)
  rw [List.nil_append] at hp
  exact hp.finished

/-- What the whole run keeps. -/
theorem Settled.work (hg : DistinctNames g) (h : Settled g s) (fuel : Nat) : Settled g (work g fuel s) := by
  induction fuel generalizing s with
  | zero => exact h
  | succ fuel ih =>
    unfold Layout.work
    split
    · exact h
    · next hq => exact ih (h.placeAll hg hq)

/-- What every new copy keeps, the whole run keeps. -/
theorem Settled.work_induction {P : List Placed → Prop} (hg : DistinctNames g)
    (hstep : ∀ s c, Adds g s c → P s.placed → P (s.placed ++ [c])) (h : Settled g s) (hs : P s.placed) (fuel : Nat) :
    P (Layout.work g fuel s).placed := by
  induction fuel generalizing s with
  | zero => exact hs
  | succ fuel ih =>
    unfold Layout.work
    split
    · exact hs
    · next hq =>
      refine ih (h.placeAll hg hq) ?_
      exact (h.placing hq).foldl_induction hstep (fun d hd => hd) (by rw [List.nil_append]; exact hg _ _) hs

end Run

end BareImports.Layout
