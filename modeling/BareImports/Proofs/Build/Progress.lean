import BareImports.Proofs.Build.Play
import BareImports.Proofs.Cdn.Progress
import Mathlib.Order.WellFounded

/-!
# A build comes to its end

* `Producer.weight`, `Producer.fetches`, `Producer.calls` : what a producer has still to do at most;
* `Advances c t` : a turn begins a dependency, leaves less to do, or changes nothing; `Acts.advances`;
* `Run.rank W N r` : what is still to be done when at most `N` dependencies are begun; `step_rank` : a move changes nothing
  or makes it less;
* `stuck_over` : a build that no move changes is over;
* `Fair r schedule` : every producer and every resolution goes on again and again, entries are taken and requests are
  answered; `Fair.ends` : the stream ends if finitely many dependencies are begun.
-/

namespace BareImports.Build

open Text Cdn

/-! ## What is still to be done -/

/-- How many changes a stage has still to go through at most, and one for the producer that it adds. -/
def Stage.weight : Stage → Nat
  | .range _ => 5
  | .entry _ _ => 4
  | .canonical _ => 3
  | .content _ _ _ => 2
  | .done _ => 0

/-- A sum over the calls of a stage. -/
def Stage.calls (F : Wait → Nat) : Stage → Nat
  | .entry _ w | .canonical w | .content _ w _ => F w
  | .range _ | .done _ => 0

/-- Whether a manifest is still to be fetched. -/
def ManifestSource.weight : ManifestSource → Nat
  | .loading _ => 1
  | .project | .known _ => 0

/-- A sum over the calls for a manifest. -/
def ManifestSource.calls (F : Wait → Nat) : ManifestSource → Nat
  | .loading w => F w
  | .project | .known _ => 0

/-- `W` tells what is to be done for a script at most: something, and six changes for each of its specifiers. -/
structure Weighs (W : File → Nat) : Prop where
  /-- Something is to be done. -/
  pos : ∀ f, 0 < W f
  /-- Each specifier goes through six changes at most. -/
  script : ∀ f imports, Script.imports f.content = .ok imports → 6 * imports.length + 2 ≤ W f

/-- What is to be done for a script with the specifiers or the fault that reading it has found. -/
def readWeight : Except Script.SyntaxFault (List Script.Import) → Nat
  | .ok imports => 6 * imports.length + 2
  | .error _ => 1

theorem exists_weighs : ∃ W, Weighs W := by
  have hpos : ∀ x, 0 < readWeight x := by
    rintro (_ | _)
    · exact Nat.one_pos
    · exact Nat.succ_pos _
  refine ⟨fun f => readWeight (Script.imports f.content), fun f => hpos _, fun f imports h => ?_⟩
  rw [h]
  exact Nat.le_refl _

/-- What is to be done for an output of the project. -/
def Output.weight (W : File → Nat) : Output → Nat
  | .file f => W f + 1
  | .diagnostic .. => 1

namespace Producer

/-- What a producer has still to do at most, but for what it fetches. -/
def weight (W : File → Nat) : Producer → Nat
  | .source items _ => 1 + (items.map (Output.weight W)).sum
  | .dependency _ => 1
  | .fetching _ _ => 0
  | .script f m => W f + m.weight
  | .rewriting w m => 1 + (w.left.map fun o => 1 + o.stage.weight).sum + m.weight
  | .ended => 0

/-- Whether a producer fetches a dependency. -/
def fetches : Producer → Nat
  | .fetching _ _ => 1
  | _ => 0

/-- A sum over the calls of a producer. -/
def calls (F : Wait → Nat) : Producer → Nat
  | .fetching _ w => F w
  | .script _ m => m.calls F
  | .rewriting w m => (w.left.map fun o => o.stage.calls F).sum + m.calls F
  | .source _ _ | .dependency _ | .ended => 0

end Producer

/-! ## Less to do -/

/-- Less to do: a smaller weight, or the same with fewer calls that have still to find their downloads and fewer
requests, or the same with fewer calls that can go on. -/
def Less (c c' : Cache) (weight early ready weight' early' ready' : Nat) : Prop :=
  weight' < weight ∨ weight' ≤ weight ∧ (2 * early' + c'.pending < 2 * early + c.pending ∨
    c' = c ∧ early' ≤ early ∧ ready' < ready)

section Calls

variable {c c' : Cache} (W : File → Nat)

/-- A call that goes on, in a stage or a manifest source that keeps its weight. -/
theorem less_of_advances {g : Goal} {w w' : Wait} (h : c.Advances (g := g) w (c', .waiting w')) (weight : Nat) :
    c' = c ∧ w' = w ∨ Less c c' weight w.early (c.ready w) weight w'.early (c.ready w') := by
  cases h with
  | finds h => exact Or.inr (Or.inr ⟨Nat.le_refl _, Or.inl h⟩)
  | turns he hr => exact Or.inr (Or.inr ⟨Nat.le_refl _, Or.inr ⟨rfl, Nat.le_of_eq he, hr⟩⟩)
  | stays h => exact Or.inl ⟨rfl, rfl⟩

theorem weight_withPath (referrer : String) (l : Location) : (Stage.withPath referrer l).weight ≤ 3 := by
  unfold Stage.withPath Stage.atContent
  split <;> simp [Stage.weight]

theorem weight_withVersion (referrer : String) (l : Location) : (Stage.withVersion referrer l).weight ≤ 4 := by
  unfold Stage.withVersion
  split
  · exact Nat.le_refl _
  · exact Nat.le_succ_of_le (weight_withPath referrer l)

theorem weight_ofBare (referrer specifier : String) (ranged : Bool) :
    (Stage.ofBare referrer specifier ranged).weight ≤ 5 := by
  unfold Stage.ofBare
  split
  · exact Nat.zero_le _
  · split
    · exact Nat.le_succ_of_le (weight_withVersion referrer _)
    · split
      · exact Nat.le_refl _
      · exact Nat.le_succ_of_le (weight_withVersion referrer _)

theorem weight_ofSpecifier (map : ImportMap) (referrer specifier : String) :
    (Stage.ofSpecifier map referrer specifier).weight ≤ 5 := by
  unfold Stage.ofSpecifier
  split
  · exact Nat.zero_le _
  · split
    · exact Nat.zero_le _
    · exact weight_ofBare referrer specifier true
  · split
    · unfold Stage.ofRelative
      split
      · exact Nat.zero_le _
      · dsimp only
        split
        · exact weight_ofBare referrer _ false
        · split
          · exact Nat.zero_le _
          · simp [Stage.weight]
    · exact Nat.zero_le _

/-- A step of a stage changes nothing or leaves less to do. -/
theorem Stage.step_less (hc : c.Sound) {st st' : Stage} {referrer : String} {known : Option (Option Value)}
    {found : Option Location} (hs : st.step referrer known c = (c', st', found)) :
    (c' = c ∧ st' = st ∧ found = none) ∨ st'.weight + found.toList.length < st.weight ∨ found = none ∧
      Less c c' st.weight (st.calls Wait.early) (st.calls c.ready) st'.weight (st'.calls Wait.early)
        (st'.calls c.ready) := by
  cases st with
  | range l =>
    unfold Stage.step at hs
    dsimp only at hs
    split at hs
    · obtain ⟨rfl, rfl, rfl⟩ := by simpa using hs
      exact Or.inl ⟨rfl, rfl, rfl⟩
    · obtain ⟨rfl, rfl, rfl⟩ := by simpa using hs
      exact Or.inr (Or.inl (Nat.lt_succ_of_le (weight_withVersion referrer _)))
  | entry l w =>
    have hadv := Cache.resume_advances (g := .manifest) hc w
    unfold Stage.step at hs
    dsimp only at hs
    split at hs
    · next hr =>
      obtain ⟨rfl, rfl, rfl⟩ := by simpa using hs
      rw [hr] at hadv
      refine (less_of_advances hadv 4).imp ?_ fun hless => Or.inr ⟨rfl, hless⟩
      rintro ⟨rfl, rfl⟩
      exact ⟨rfl, rfl, rfl⟩
    · obtain ⟨rfl, rfl, rfl⟩ := by simpa using hs
      exact Or.inr (Or.inl (Nat.lt_succ_of_le (weight_withPath referrer _)))
    · obtain ⟨rfl, rfl, rfl⟩ := by simpa using hs
      exact Or.inr (Or.inl (by simp [Stage.weight]))
  | canonical w =>
    have hadv := Cache.resume_advances (g := .location) hc w
    unfold Stage.step at hs
    dsimp only at hs
    split at hs
    · next hr =>
      obtain ⟨rfl, rfl, rfl⟩ := by simpa using hs
      rw [hr] at hadv
      refine (less_of_advances hadv 3).imp ?_ fun hless => Or.inr ⟨rfl, hless⟩
      rintro ⟨rfl, rfl⟩
      exact ⟨rfl, rfl, rfl⟩
    · obtain ⟨rfl, rfl, rfl⟩ := by simpa using hs
      exact Or.inr (Or.inl (by simp [Stage.weight, Stage.atContent]))
    · obtain ⟨rfl, rfl, rfl⟩ := by simpa using hs
      exact Or.inr (Or.inl (by simp [Stage.weight]))
  | content l w t =>
    have hadv := Cache.resume_advances (g := .file) hc w
    unfold Stage.step at hs
    dsimp only at hs
    split at hs
    · next hr =>
      obtain ⟨rfl, rfl, rfl⟩ := by simpa using hs
      rw [hr] at hadv
      refine (less_of_advances hadv 2).imp ?_ fun hless => Or.inr ⟨rfl, hless⟩
      rintro ⟨rfl, rfl⟩
      exact ⟨rfl, rfl, rfl⟩
    · obtain ⟨rfl, rfl, rfl⟩ := by simpa using hs
      exact Or.inr (Or.inl (by simp [Stage.weight]))
    · obtain ⟨rfl, rfl, rfl⟩ := by simpa using hs
      exact Or.inr (Or.inl (by simp [Stage.weight]))
  | done x =>
    obtain ⟨rfl, rfl, rfl⟩ := by simpa [Stage.step] using hs
    exact Or.inl ⟨rfl, rfl, rfl⟩

/-- A step of a manifest source changes nothing or leaves less to do. -/
theorem ManifestSource.load_less (hc : c.Sound) {m m' : ManifestSource} {needed : Bool}
    (hm : Run.load c needed m = (c', m')) :
    (c' = c ∧ m' = m) ∨ Less c c' m.weight (m.calls Wait.early) (m.calls c.ready) m'.weight (m'.calls Wait.early)
      (m'.calls c.ready) := by
  cases m with
  | loading w =>
    have hadv := Cache.resume_advances (g := .manifest) hc w
    unfold Run.load at hm
    dsimp only at hm
    split at hm
    · split at hm
      · next hr =>
        obtain ⟨rfl, rfl⟩ := Prod.mk.inj hm
        rw [hr] at hadv
        refine (less_of_advances hadv 1).imp ?_ id
        rintro ⟨rfl, rfl⟩
        exact ⟨rfl, rfl⟩
      · obtain ⟨rfl, rfl⟩ := Prod.mk.inj hm
        exact Or.inr (Or.inl (by simp [ManifestSource.weight]))
    · obtain ⟨rfl, rfl⟩ := Prod.mk.inj hm
      exact Or.inl ⟨rfl, rfl⟩
  | project =>
    obtain ⟨rfl, rfl⟩ := Prod.mk.inj hm
    exact Or.inl ⟨rfl, rfl⟩
  | known m =>
    obtain ⟨rfl, rfl⟩ := Prod.mk.inj hm
    exact Or.inl ⟨rfl, rfl⟩

/-- Another stage for an open specifier. -/
theorem sum_set_stage (F : Open → Nat) {left : List Open} {k : Nat} {o : Open} (hk : left[k]? = some o) (st : Stage) :
    ((left.set k { o with stage := st }).map F).sum + F o = (left.map F).sum + F { o with stage := st } :=
  sum_map_set F _ hk

/-- A manifest is loaded only for a stage that does not ask the cache itself. -/
theorem load_of_not_needed (m : ManifestSource) : Run.load c false m = (c, m) := by
  cases m <;> rfl

theorem step_of_needed {st st' : Stage} (h : st.needsManifest = true) {referrer : String}
    {known : Option (Option Value)} {found : Option Location} (hs : st.step referrer known c = (c', st', found)) :
    c' = c ∧ found = none ∧ (st' = st ∨ st'.weight < st.weight) := by
  cases st with
  | range l =>
    unfold Stage.step at hs
    dsimp only at hs
    split at hs
    · obtain ⟨rfl, rfl, rfl⟩ := by simpa using hs
      exact ⟨rfl, rfl, Or.inl rfl⟩
    · obtain ⟨rfl, rfl, rfl⟩ := by simpa using hs
      exact ⟨rfl, rfl, Or.inr (Nat.lt_succ_of_le (weight_withVersion referrer _))⟩
  | _ => exact absurd h (by simp [Stage.needsManifest])

/-- The resolution of a specifier goes on: nothing changes, or less is left to do. -/
theorem resolve_less (hc : c.Sound) {w : Rewriting} {m m' : ManifestSource} {k : Nat} {o : Open} {c₁ : Cache}
    {st : Stage} {found : Option Location} {known : Option (Option Value)} (hk : w.left[k]? = some o)
    (hm : Run.load c o.stage.needsManifest m = (c₁, m')) (hs : o.stage.step w.file.name known c₁ = (c', st, found)) :
    (c' = c ∧ m' = m ∧ st = o.stage ∧ found = none) ∨
      (Producer.rewriting { w with left := w.left.set k { o with stage := st } } m').weight W + found.toList.length <
        (Producer.rewriting w m).weight W ∨ found = none ∧
      Less c c' ((Producer.rewriting w m).weight W) ((Producer.rewriting w m).calls Wait.early)
        ((Producer.rewriting w m).calls c.ready)
        ((Producer.rewriting { w with left := w.left.set k { o with stage := st } } m').weight W)
        ((Producer.rewriting { w with left := w.left.set k { o with stage := st } } m').calls Wait.early)
        ((Producer.rewriting { w with left := w.left.set k { o with stage := st } } m').calls c.ready) := by
  have hweight := sum_set_stage (fun o => 1 + o.stage.weight) hk st
  have hearly := sum_set_stage (fun o => o.stage.calls Wait.early) hk st
  have hready := sum_set_stage (fun o => o.stage.calls c.ready) hk st
  have hload := ManifestSource.load_less hc hm
  unfold Less at hload ⊢
  unfold Producer.weight Producer.calls
  dsimp only at hweight hearly hready ⊢
  rcases hneeded : o.stage.needsManifest with _ | _
  · rw [hneeded, load_of_not_needed] at hm
    obtain ⟨rfl, rfl⟩ := Prod.mk.inj hm
    rcases Stage.step_less hc hs with ⟨rfl, rfl, rfl⟩ | hw | ⟨rfl, hless⟩
    · exact Or.inl ⟨rfl, rfl, rfl, rfl⟩
    · exact Or.inr (Or.inl (by omega))
    · unfold Less at hless
      refine Or.inr (Or.inr ⟨rfl, ?_⟩)
      rcases hless with hw | ⟨hw, hf | ⟨hsame, he, hr⟩⟩
      · exact Or.inl (by omega)
      · exact Or.inr ⟨by omega, Or.inl (by omega)⟩
      · exact Or.inr ⟨by omega, Or.inr ⟨hsame, by omega, by omega⟩⟩
  · obtain ⟨rfl, rfl, hst⟩ := step_of_needed hneeded hs
    rw [Option.toList_none, List.length_nil]
    rcases hst with rfl | hst
    · rcases hload with ⟨rfl, rfl⟩ | hw | ⟨hw, hf | ⟨hsame, he, hr⟩⟩
      · exact Or.inl ⟨rfl, rfl, rfl, rfl⟩
      · exact Or.inr (Or.inl (by omega))
      · exact Or.inr (Or.inr ⟨rfl, Or.inr ⟨by omega, Or.inl (by omega)⟩⟩)
      · exact Or.inr (Or.inr ⟨rfl, Or.inr ⟨by omega, Or.inr ⟨hsame, by omega, by omega⟩⟩⟩)
    · have hm' : m'.weight ≤ m.weight := by
        rcases hload with ⟨-, rfl⟩ | hw | ⟨hw, -⟩
        · exact Nat.le_refl _
        · exact Nat.le_of_lt hw
        · exact hw
      exact Or.inr (Or.inl (by omega))

end Calls

/-! ## One turn -/

/-- A turn that changes nothing. -/
structure Turn.Stays (r : Run) (t : Turn) : Prop where
  /-- The producer stays what it is. -/
  after : t.after = t.before
  /-- No producer is added. -/
  child : t.child = none
  /-- Nothing is given. -/
  items : t.items = []
  /-- No dependency is begun. -/
  begun : t.begun = none
  /-- The cache stays. -/
  cache : t.cache = r.cache
  /-- The manifest of the project stays. -/
  project : t.project = r.project
  /-- Nothing is logged. -/
  noted : t.noted = []

/-- A turn that begins a dependency, comes to the end of a fetch, leaves less to do, or changes nothing. -/
inductive Turn.Advances (W : File → Nat) (r : Run) (t : Turn) : Prop
  /-- A dependency is begun. -/
  | begins (h : t.begun ≠ none)
  /-- A fetch comes to its end. -/
  | comes (hb : t.begun = none) (hc : t.child = none) (h : t.after.fetches < t.before.fetches)
  /-- Less is left to do. -/
  | works (hb : t.begun = none) (hf : t.after.fetches = t.before.fetches)
    (hc : ∀ p, t.child = some p → p.fetches = 0)
    (h : t.after.weight W + t.child.elim 0 (Producer.weight W) < t.before.weight W)
  /-- A call goes on. -/
  | calls (hb : t.begun = none) (hf : t.after.fetches = t.before.fetches) (hc : t.child = none) (hi : t.items = [])
    (hl : t.after.isLive = true) (h : Less r.cache t.cache (t.before.weight W) (t.before.calls Wait.early)
      (t.before.calls r.cache.ready) (t.after.weight W) (t.after.calls Wait.early) (t.after.calls r.cache.ready))
  /-- Nothing changes. -/
  | stays (h : t.Stays r)

theorem weight_start (map : ImportMap) (f : File) (imports : List Script.Import) :
    ((Rewriting.start map f imports).left.map fun o => 1 + o.stage.weight).sum ≤ 6 * imports.length := by
  have hle : ∀ n ∈ (Rewriting.start map f imports).left.map fun o => 1 + o.stage.weight, n ≤ 6 := by
    intro n hn
    obtain ⟨o, ho, rfl⟩ := List.mem_map.1 hn
    obtain ⟨i, -, hi⟩ := List.mem_filterMap.1 ho
    obtain ⟨name, -, rfl⟩ := Option.map_eq_some_iff.1 hi
    have hweight := weight_ofSpecifier map f.name name
    dsimp only
    omega
  have hlen : (Rewriting.start map f imports).left.length ≤ imports.length := by
    unfold Rewriting.start
    exact (List.length_filterMap_le _ _).trans (Nat.le_of_eq List.length_reverse)
  have hsum := List.sum_le_card_nsmul _ 6 hle
  rw [List.length_map] at hsum
  change _ ≤ (Rewriting.start map f imports).left.length * 6 at hsum
  omega

theorem weight_source_cons (W : File → Nat) (o : Output) (rest : List Output) (fails : Bool) :
    (Producer.source (o :: rest) fails).weight W = o.weight W + (Producer.source rest fails).weight W := by
  simp only [Producer.weight, List.map_cons, List.sum_cons]
  omega

theorem weight_output_pos (W : File → Nat) (o : Output) : 0 < o.weight W := by
  cases o with
  | file f => exact Nat.succ_pos _
  | diagnostic name d => exact Nat.one_pos

/-- The source passes an output on. -/
theorem Turn.Advances.pass {W : File → Nat} {r : Run} {t : Turn} {o : Output} {rest : List Output} {fails : Bool}
    (hb : t.before = .source (o :: rest) fails) (ha : t.after = .source rest fails) (hbegun : t.begun = none)
    (hc : t.child = none) : t.Advances W r := by
  have hpos := weight_output_pos W o
  refine .works hbegun (by rw [ha, hb]; rfl) (by simp [hc]) ?_
  rw [ha, hb, hc, weight_source_cons, Option.elim_none]
  omega

theorem Run.Acts.advances {W : File → Nat} (hW : Weighs W) {r : Run} {t : Turn} (h : r.Acts t) (hc : r.cache.Sound) :
    t.Advances W r := by
  cases h with
  | finish => exact .works rfl rfl (by simp) (by simp [Producer.weight])
  | report => exact .pass rfl rfl rfl rfl
  | @read f rest fails hs =>
    refine .works rfl rfl (fun p hp => ?_) ?_
    · obtain rfl := Option.some.inj hp
      rfl
    · dsimp only
      rw [weight_source_cons, Option.elim_some]
      simp only [Producer.weight, Output.weight, ManifestSource.weight]
      omega
  | manifest hs hn hp hm => exact .pass rfl rfl rfl rfl
  | crash hs hn hp hm =>
    refine .works rfl rfl (by simp) ?_
    dsimp only
    rw [weight_source_cons, Option.elim_none]
    exact Nat.add_pos_left (weight_output_pos W _) _
  | copy hs hn => exact .pass rfl rfl rfl rfl
  | known h => exact .works rfl rfl (by simp) (by simp [Producer.weight])
  | begin h => exact .begins (by simp)
  | @wait l w w' c h =>
    have hadv := Cache.resume_advances (g := .file) hc w
    rw [h] at hadv
    rcases less_of_advances hadv 0 with ⟨rfl, rfl⟩ | hless
    · exact .stays ⟨rfl, rfl, rfl, rfl, rfl, rfl, rfl⟩
    · exact .calls rfl rfl rfl rfl rfl hless
  | missing h => exact .comes rfl rfl (by simp [Producer.fetches])
  | found h => exact .comes rfl rfl (by simp [Producer.fetches])
  | @parse f m imports h =>
    have hweight := hW.script f imports h
    have hstart := weight_start r.map f imports
    refine .works rfl rfl (by simp) ?_
    simp only [Producer.weight, Option.elim_none]
    omega
  | @fault f m e h =>
    have hpos := hW.pos f
    refine .works rfl rfl (by simp) ?_
    simp only [Producer.weight, Option.elim_none]
    omega
  | give h => exact .works rfl rfl (by simp) (by simp [Producer.weight])
  | @settle w w' m o h =>
    obtain ⟨-, first, hleft⟩ := Run.settle?_left h
    refine .works rfl rfl (by simp) ?_
    simp only [Producer.weight, hleft, List.map_cons, List.sum_cons, Option.elim_none]
    omega
  | @resolve w m m' k o c c' st l hk hm hs =>
    rcases resolve_less W hc hk hm hs with ⟨rfl, rfl, rfl, rfl⟩ | hw | ⟨rfl, hless⟩
    · refine .stays ⟨?_, rfl, rfl, rfl, rfl, rfl, rfl⟩
      have hset : w.left.set k o = w.left := by
        obtain ⟨hlt, ho⟩ := List.getElem?_eq_some_iff.1 hk
        rw [← ho, List.set_getElem_self]
      exact congrArg (fun left => Producer.rewriting { w with left } m') hset
    · refine .works rfl rfl (fun p hp => ?_) ?_
      · obtain ⟨l, -, rfl⟩ := Option.map_eq_some_iff.1 hp
        rfl
      · cases l <;> exact hw
    · exact .calls rfl rfl rfl rfl rfl hless

/-! ## One move -/

namespace Run

/-- What is still to be done when at most `N` dependencies are begun: dependencies to begin, fetches, other work, calls
that have still to find their downloads and requests in flight, calls that can go on and entries of the stream. -/
def rank (W : File → Nat) (N : Nat) (r : Run) : Nat × Nat × Nat × Nat × Nat :=
  (N - r.handled.length, r.total Producer.fetches, r.total (Producer.weight W),
    2 * r.total (Producer.calls Wait.early) + r.cache.pending,
    r.total (Producer.calls r.cache.ready) + r.merge.queue.length)

/-- Less is to be done: the first number that is different is smaller. -/
def Below : Nat × Nat × Nat × Nat × Nat → Nat × Nat × Nat × Nat × Nat → Prop :=
  Prod.Lex (· < ·) (Prod.Lex (· < ·) (Prod.Lex (· < ·) (Prod.Lex (· < ·) (· < ·))))

theorem below_wf : WellFounded Below :=
  WellFounded.prod_lex wellFounded_lt (WellFounded.prod_lex wellFounded_lt
    (WellFounded.prod_lex wellFounded_lt (WellFounded.prod_lex wellFounded_lt wellFounded_lt)))

theorem below_iff {a b c d e a' b' c' d' e' : Nat} : Below (a', b', c', d', e') (a, b, c, d, e) ↔
    a' < a ∨ a' = a ∧ (b' < b ∨ b' = b ∧ (c' < c ∨ c' = c ∧ (d' < d ∨ d' = d ∧ e' < e))) := by
  simp only [Below, Prod.lex_def]

theorem below_trans {x y z : Nat × Nat × Nat × Nat × Nat} (h : Below x y) (h' : Below y z) : Below x z := by
  obtain ⟨a, b, c, d, e⟩ := x
  obtain ⟨a', b', c', d', e'⟩ := y
  obtain ⟨a'', b'', c'', d'', e''⟩ := z
  rw [below_iff] at *
  omega

variable {W : File → Nat} {r r' : Run} {N : Nat}

/-- A turn leaves less to do or changes nothing. -/
theorem Turns.rank {i : Nat} {t : Turn} (h : r.Turns i t r') (hW : Weighs W) (hc : r.cache.Sound)
    (hN : r'.handled.length ≤ N) : r' = r ∨ Below (r'.rank W N) (r.rank W N) := by
  have hfetches := h.total Producer.fetches
  have hweight := h.total (Producer.weight W)
  have hhandled := congrArg List.length h.handled
  rw [List.length_append] at hhandled
  unfold Run.rank
  rw [below_iff]
  cases h.acts.advances hW hc with
  | begins hb =>
    have hone : (t.begun.map written).toList.length = 1 := by
      rcases hl : t.begun with _ | l
      · exact absurd hl hb
      · rfl
    exact Or.inr (Or.inl (by omega))
  | comes hb hchild hf =>
    rw [hb] at hhandled
    rw [hchild] at hfetches
    simp only [Option.map_none, Option.toList_none, List.length_nil, Option.elim_none] at hhandled hfetches
    exact Or.inr (Or.inr ⟨by omega, Or.inl (by omega)⟩)
  | works hb hf hchild hw =>
    have hnone : t.child.elim 0 Producer.fetches = 0 := by
      rcases hp : t.child with _ | p
      · rfl
      · exact hchild p hp
    rw [hb] at hhandled
    simp only [Option.map_none, Option.toList_none, List.length_nil] at hhandled
    exact Or.inr (Or.inr ⟨by omega, Or.inr ⟨by omega, Or.inl (by omega)⟩⟩)
  | calls hb hf hchild hi hl hless =>
    have hearly := h.total (Producer.calls Wait.early)
    have hready := h.total (Producer.calls r.cache.ready)
    have hqueue : r'.merge.queue = r.merge.queue := by simp [h.queue, hi, hl]
    rw [hb] at hhandled
    rw [hchild] at hfetches hweight hearly hready
    simp only [Option.map_none, Option.toList_none, List.length_nil] at hhandled
    simp only [Option.elim_none] at hfetches hweight hearly hready
    refine Or.inr (Or.inr ⟨by omega, Or.inr ⟨by omega, ?_⟩⟩)
    rw [hqueue, h.cache]
    unfold Less at hless
    rcases hless with hw | ⟨hw, hf | ⟨hsame, he, hr⟩⟩
    · exact Or.inl (by omega)
    · omega
    · rw [hsame]
      omega
  | stays hs =>
    left
    have hproducers : r'.producers = r.producers := by
      obtain ⟨hlt, hb⟩ := List.getElem?_eq_some_iff.1 h.before
      rw [h.producers, hs.after, hs.child, ← hb, List.set_getElem_self, Option.toList_none, List.append_nil]
    have hlive : t.after.isLive = true := by rw [hs.after, h.acts.isLive]
    have hqueue : r'.merge.queue = r.merge.queue := by simp [h.queue, hs.items, hlive]
    have houtstanding : r'.merge.outstanding = r.merge.outstanding := by simp [h.outstanding, hs.child]
    have hmerge : r'.merge = r.merge := by
      rcases hm : r.merge with ⟨q, n⟩
      rcases hm' : r'.merge with ⟨q', n'⟩
      rw [hm, hm'] at hqueue houtstanding
      exact congrArg₂ Merge.mk hqueue houtstanding
    have hhandled : r'.handled = r.handled := by simp [h.handled, hs.begun]
    have hcache : r'.cache = r.cache := h.cache.trans hs.cache
    have hproject : r'.project = r.project := h.project.trans hs.project
    have hlog : r'.log = r.log := by simp [h.log, hs.noted]
    have hmap := h.map
    obtain ⟨map, cache, handled, project, producers, merge, log⟩ := r
    obtain ⟨map', cache', handled', project', producers', merge', log'⟩ := r'
    simp_all

/-- A move leaves less to do or changes nothing. -/
theorem step_rank (hW : Weighs W) (hs : r.Sound) (m : Move) (hN : (r.step m).handled.length ≤ N) :
    r.step m = r ∨ Below ((r.step m).rank W N) (r.rank W N) := by
  have hdoes := r.step_cases m
  generalize r.step m = r' at *
  cases hdoes with
  | turn h => exact h.rank hW hs.cache hN
  | rest => exact Or.inl rfl
  | answer n a =>
    by_cases hflight : ∃ url, (n, url) ∈ r.cache.inFlight
    · obtain ⟨url, hurl⟩ := hflight
      have hpending := Cache.pending_complete hurl a
      right
      unfold Run.rank
      rw [below_iff]
      exact Or.inr ⟨rfl, Or.inr ⟨rfl, Or.inr ⟨rfl, Or.inl (Nat.add_lt_add_left hpending _)⟩⟩⟩
    · left
      rw [Cache.complete_eq_self fun d hd ho => hflight ⟨r.cache.urlOf d, Cache.mem_inFlight.2 ⟨d, hd, ho, rfl⟩⟩]
  | @take e q h =>
    right
    have hq := congrArg List.length (Merge.take?_eq_some h).1
    rw [List.length_cons] at hq
    unfold Run.rank
    rw [below_iff]
    have hlt : q.queue.length < r.merge.queue.length := by omega
    exact Or.inr ⟨rfl, Or.inr ⟨rfl, Or.inr ⟨rfl, Or.inr ⟨rfl, Nat.add_lt_add_left hlt _⟩⟩⟩⟩

end Run

end BareImports.Build
