import BareImports.Proofs.Build.Inside
import BareImports.Proofs.Build.Process
import BareImports.Proofs.Script.Statement

/-!
# Dependency files stay in the folders of their packages

* `Producer.name?`, `Acts.named` : a producer gives all that it gives under one name;
* `Gave r ms i o`, `gave_of_taken` : what is taken was given by a producer;
* `Comes r items ms i p` : a producer comes from a script of the project or from a dependency;
* `StaysInside r items ms` : nothing that is read leads out of a package;
* `dependencies_contained` : then a dependency file lies in the folder of its package version, apart from all others.
-/

namespace BareImports.Build

open Text Cdn Location

/-- The name under which an output is given. -/
def Output.name : Output → String
  | .file f => f.name
  | .diagnostic name _ => name

/-- The name of the file that a producer works on. -/
def Producer.name? : Producer → Option String
  | .dependency l | .fetching l _ => some (fileName l)
  | .script f _ => some f.name
  | .rewriting w _ => some w.file.name
  | .source _ _ | .ended => none

namespace Run

variable {r r₀ r' : Run} {items : List Output} {ms : List Move} {i : Nat} {t : Turn} {o : Output}

/-! ## Names -/

theorem file_settle? {w w' : Rewriting} {o : Option Output} (h : w.settle? = some (w', o)) :
    w'.file = w.file ∧ ∀ x ∈ o, x.name = w.file.name := by
  obtain ⟨first, left, -, ⟨e, -, rfl, rfl⟩ | ⟨target, -, rfl, rfl⟩⟩ := settle?_cases h
  · refine ⟨rfl, fun x hx => ?_⟩
    obtain rfl := Option.some.inj hx
    rfl
  · exact ⟨rfl, by simp⟩

/-- A producer gives all that it gives under one name, until it ends. -/
theorem Acts.named (h : r.Acts t) {n : String} (hn : t.before.name? = some n) :
    (∀ o ∈ t.items, o.name = n) ∧ (t.after = .ended ∨ t.after.name? = some n) := by
  cases h with
  | finish => exact absurd hn (by simp [Producer.name?])
  | report => exact absurd hn (by simp [Producer.name?])
  | read => exact absurd hn (by simp [Producer.name?])
  | manifest => exact absurd hn (by simp [Producer.name?])
  | crash => exact absurd hn (by simp [Producer.name?])
  | copy => exact absurd hn (by simp [Producer.name?])
  | known => exact ⟨by simp, Or.inl rfl⟩
  | begin => exact ⟨by simp, Or.inr hn⟩
  | wait => exact ⟨by simp, Or.inr hn⟩
  | missing => exact ⟨by simp, Or.inl rfl⟩
  | found => exact ⟨by simp, Or.inr hn⟩
  | parse => exact ⟨by simp, Or.inr hn⟩
  | fault =>
    obtain rfl := Option.some.inj hn
    exact ⟨by simp [Output.name], Or.inl rfl⟩
  | give =>
    obtain rfl := Option.some.inj hn
    exact ⟨by simp [Output.name, Rewriting.output], Or.inl rfl⟩
  | settle hs =>
    obtain rfl := Option.some.inj hn
    obtain ⟨hfile, hname⟩ := file_settle? hs
    exact ⟨fun o ho => hname o (Option.mem_toList.1 ho), Or.inr (congrArg some (congrArg File.name hfile))⟩
  | resolve => exact ⟨by simp, Or.inr hn⟩

/-- No producer becomes a dependency that is to be fetched. -/
theorem Acts.after_ne_dependency (h : r.Acts t) (l : Location) : t.after ≠ .dependency l := by
  cases h <;> exact fun heq => nomatch heq

/-- Producer `i` works on the file `n`, or has ended. -/
def WorksOn (r : Run) (i : Nat) (n : String) : Prop :=
  ∃ p, r.producers[i]? = some p ∧ (p = .ended ∨ p.name? = some n)

theorem Turns.worksOn {j : Nat} (h : r.Turns j t r') {n : String} (hw : r.WorksOn i n) : r'.WorksOn i n := by
  obtain ⟨p, hp, hn⟩ := hw
  have hlt := (List.getElem?_eq_some_iff.1 hp).1
  by_cases hij : i = j
  · subst hij
    obtain rfl : t.before = p := Option.some.inj (h.before.symm.trans hp)
    refine ⟨t.after, by rw [h.getElem?, if_pos rfl], ?_⟩
    rcases hn with hended | hn
    · have hlive := h.acts.isLive
      rw [hended] at hlive
      exact absurd hlive (by decide)
    · exact (h.acts.named hn).2
  · exact ⟨p, by rw [h.getElem?, if_neg hij, if_neg (by omega), hp], hn⟩

theorem Does.worksOn {m : Move} (h : r.Does m r') {n : String} (hw : r.WorksOn i n) : r'.WorksOn i n := by
  cases h with
  | turn h => exact h.worksOn hw
  | rest => exact hw
  | answer n a => exact hw
  | take h => exact hw

theorem WorksOn.play {n : String} (h : r.WorksOn i n) (ms : List Move) : (r.play ms).WorksOn i n := by
  induction ms using List.reverseRecOn with
  | nil => exact h
  | append_singleton ms m ih =>
    rw [play_concat]
    exact (step_cases _ m).worksOn ih

theorem Does.dependency {m : Move} (h : r.Does m r') {l : Location} (hlt : i < r.producers.length)
    (hl : r'.producers[i]? = some (.dependency l)) : r.producers[i]? = some (.dependency l) := by
  cases h with
  | turn h =>
    rw [h.getElem?] at hl
    split at hl
    · exact absurd (Option.some.inj hl) (h.acts.after_ne_dependency l)
    · rwa [if_neg (by omega)] at hl
  | rest => exact hl
  | answer n a => exact hl
  | take h => exact hl

theorem Does.length_le {m : Move} (h : r.Does m r') : r.producers.length ≤ r'.producers.length := by
  cases h with
  | turn h =>
    rw [h.producers, List.length_append, List.length_set]
    omega
  | rest => exact le_rfl
  | answer n a => exact le_rfl
  | take h => exact le_rfl

theorem length_le_play (r : Run) (ms : List Move) : r.producers.length ≤ (r.play ms).producers.length := by
  induction ms using List.reverseRecOn with
  | nil => exact le_rfl
  | append_singleton ms m ih =>
    rw [play_concat]
    exact ih.trans (step_cases _ m).length_le

/-- A dependency that is to be fetched was one from the time on at which it was added. -/
theorem dependency_of_play {l : Location} (hlt : i < r.producers.length)
    (hl : (r.play ms).producers[i]? = some (.dependency l)) : r.producers[i]? = some (.dependency l) := by
  induction ms using List.reverseRecOn with
  | nil => exact hl
  | append_singleton ms m ih =>
    rw [play_concat] at hl
    exact ih ((step_cases _ m).dependency (Nat.lt_of_lt_of_le hlt (r.length_le_play ms)) hl)

/-! ## What is given -/

/-- Producer `i` gave an output in some moves. -/
def Gave (r : Run) (ms : List Move) (i : Nat) (o : Output) : Prop :=
  ∃ before m t, before ++ [m] <+: ms ∧ (r.play before).Turns i t (r.play (before ++ [m])) ∧ o ∈ t.items

theorem Gave.mono {ms' : List Move} (h : r.Gave ms i o) (hms : ms <+: ms') : r.Gave ms' i o := by
  obtain ⟨before, m, t, hbefore, ht, ho⟩ := h
  exact ⟨before, m, t, hbefore.trans hms, ht, ho⟩

/-- What a dependency gives is named for it. -/
theorem Gave.name {l : Location} (h : r.Gave ms i o) (hl : r.Was ms i (.dependency l)) : o.name = fileName l := by
  obtain ⟨before, m, t, hbefore, ht, ho⟩ := h
  obtain ⟨first, hfirst, hi⟩ := hl
  have hcomparable := List.prefix_or_prefix_of_prefix hfirst ((List.prefix_append before [m]).trans hbefore)
  have hnow : t.before.name? = some (fileName l) ∨ t.before = .ended := by
    rcases hcomparable with ⟨rest, rfl⟩ | ⟨rest, rfl⟩
    · -- it was added before
      have hworks : ((r.play first).play rest).WorksOn i (fileName l) := WorksOn.play ⟨_, hi, Or.inr rfl⟩ rest
      obtain ⟨p, hp, hn⟩ := hworks
      rw [← play_append] at hp
      obtain rfl : t.before = p := Option.some.inj (ht.before.symm.trans hp)
      exact hn.symm
    · -- it is the dependency already
      rw [play_append] at hi
      have hsame := dependency_of_play ht.lt hi
      rw [ht.before] at hsame
      exact Or.inl (by rw [Option.some.inj hsame]; rfl)
  rcases hnow with hn | hended
  · exact (ht.acts.named hn).1 o ho
  · have hlive := ht.acts.isLive
    rw [hended] at hlive
    exact absurd hlive (by decide)

/-- What is taken or waits to be taken was given by a producer. -/
theorem gave_of_queue (hm : r.merge.queue = []) (ms : List Move) :
    (∀ o ∈ r.taken ms, ∃ i, r.Gave ms i o) ∧ ∀ o, some o ∈ (r.play ms).merge.queue → ∃ i, r.Gave ms i o := by
  induction ms using List.reverseRecOn with
  | nil =>
    refine ⟨by simp [taken], fun o ho => ?_⟩
    change some o ∈ r.merge.queue at ho
    rw [hm] at ho
    exact absurd ho (by simp)
  | append_singleton ms m ih =>
    have hms : ms <+: ms ++ [m] := List.prefix_append ms [m]
    have hbefore : ∀ o, some o ∈ (r.play ms).merge.queue → ∃ i, r.Gave (ms ++ [m]) i o := fun o ho =>
      (ih.2 o ho).imp fun i h => h.mono hms
    have htook : ∀ o ∈ (r.play ms).took m, some o ∈ (r.play ms).merge.queue := by
      intro o ho
      cases m with
      | take =>
        change o ∈ ((r.play ms).merge.take?.bind (·.1)).toList at ho
        rw [Option.mem_toList, Option.bind_eq_some_iff] at ho
        obtain ⟨⟨e, q⟩, htake, rfl⟩ := ho
        rw [(Merge.take?_eq_some htake).1]
        exact List.mem_cons_self
      | _ => exact absurd ho (by simp [took])
    constructor
    · intro o ho
      rw [taken_concat] at ho
      rcases List.mem_append.1 ho with ho | ho
      · exact (ih.1 o ho).imp fun i h => h.mono hms
      · exact hbefore o (htook o ho)
    · intro o ho
      rw [play_concat] at ho
      have hdoes := step_cases (r.play ms) m
      generalize hr : (r.play ms).step m = r' at ho hdoes
      cases hdoes with
      | @turn _ i t _ h =>
        rw [h.queue, List.mem_append, List.mem_append] at ho
        rcases ho with (ho | ho) | ho
        · exact hbefore o ho
        · obtain ⟨o', ho', heq⟩ := List.mem_map.1 ho
          obtain rfl := Option.some.inj heq
          exact ⟨i, ms, m, t, List.prefix_rfl, by rw [play_concat, hr]; exact h, ho'⟩
        · split at ho <;> simp at ho
      | rest => exact hbefore o ho
      | answer n a => exact hbefore o ho
      | take h =>
        refine hbefore o ?_
        rw [(Merge.take?_eq_some h).1]
        exact List.mem_cons_of_mem _ ho

/-! ## Where producers come from -/

/-- A producer passes on outputs of the project, or works on a script of the project or on a dependency. -/
def Comes (r : Run) (items : List Output) (ms : List Move) (i : Nat) : Producer → Prop
  | .source rest _ => ∀ o ∈ rest, o ∈ items
  | .ended => True
  | p => (∃ f, .file f ∈ items ∧ isScript f = true ∧ p.name? = some f.name) ∨ ∃ l, r.Was ms i (.dependency l)

theorem Comes.mono {p : Producer} {ms' : List Move} (h : r.Comes items ms i p) (hms : ms <+: ms') :
    r.Comes items ms' i p := by
  cases p with
  | source rest fails => exact h
  | ended => exact trivial
  | dependency l => exact Or.imp_right (fun ⟨l, hl⟩ => ⟨l, hl.mono hms⟩) h
  | fetching l w => exact Or.imp_right (fun ⟨l, hl⟩ => ⟨l, hl.mono hms⟩) h
  | script f m => exact Or.imp_right (fun ⟨l, hl⟩ => ⟨l, hl.mono hms⟩) h
  | rewriting w m => exact Or.imp_right (fun ⟨l, hl⟩ => ⟨l, hl.mono hms⟩) h

theorem comes_of_name? {p : Producer} {n : String} (hn : p.name? = some n) (h : (∃ f, .file f ∈ items ∧ isScript f = true ∧
    n = f.name) ∨ ∃ l, r.Was ms i (.dependency l)) : r.Comes items ms i p := by
  have hname : (∃ f, .file f ∈ items ∧ isScript f = true ∧ p.name? = some f.name) ∨ ∃ l, r.Was ms i (.dependency l) :=
    h.imp_left fun ⟨f, hf, hs, he⟩ => ⟨f, hf, hs, hn.trans (congrArg some he)⟩
  cases p with
  | source rest fails => exact absurd hn (by simp [Producer.name?])
  | ended => exact absurd hn (by simp [Producer.name?])
  | dependency l => exact hname
  | fetching l w => exact hname
  | script f m => exact hname
  | rewriting w m => exact hname

theorem Comes.of_name? {p : Producer} {n : String} (h : r.Comes items ms i p) (hn : p.name? = some n) :
    (∃ f, .file f ∈ items ∧ isScript f = true ∧ n = f.name) ∨ ∃ l, r.Was ms i (.dependency l) := by
  have hname : ∀ {q : Prop}, (∃ f, .file f ∈ items ∧ isScript f = true ∧ p.name? = some f.name) ∨ q →
      (∃ f, .file f ∈ items ∧ isScript f = true ∧ n = f.name) ∨ q := fun h =>
    h.imp_left fun ⟨f, hf, hs, he⟩ => ⟨f, hf, hs, Option.some.inj (hn.symm.trans he)⟩
  cases p with
  | source rest fails => exact absurd hn (by simp [Producer.name?])
  | ended => exact absurd hn (by simp [Producer.name?])
  | dependency l => exact hname h
  | fetching l w => exact hname h
  | script f m => exact hname h
  | rewriting w m => exact hname h

/-- Where what a producer becomes, gives and adds comes from. -/
theorem Acts.comes (h : r₀.Acts t) (hb : r.Comes items ms i t.before) : r.Comes items ms i t.after ∧
    (∀ o ∈ t.items, o ∈ items ∨ (∃ f, .file f ∈ items ∧ isScript f = true ∧ o.name = f.name) ∨
      ∃ l, r.Was ms i (.dependency l)) ∧
    ∀ p, t.child = some p → (∃ l, p = .dependency l) ∨ ∃ f, p = .script f .project ∧ .file f ∈ items ∧ isScript f = true := by
  rcases hn : t.before.name? with _ | n
  · -- the outputs of the project
    cases h with
    | finish => exact ⟨trivial, by simp, by simp⟩
    | report =>
      refine ⟨fun o ho => hb o (List.mem_cons_of_mem _ ho), fun o ho => Or.inl ?_, by simp⟩
      exact hb o (List.mem_singleton.1 ho ▸ List.mem_cons_self)
    | read hs =>
      refine ⟨fun o ho => hb o (List.mem_cons_of_mem _ ho), by simp, fun p hp => Or.inr ?_⟩
      exact ⟨_, (Option.some.inj hp).symm, hb _ List.mem_cons_self, hs⟩
    | manifest =>
      refine ⟨fun o ho => hb o (List.mem_cons_of_mem _ ho), fun o ho => Or.inl ?_, by simp⟩
      exact hb o (List.mem_singleton.1 ho ▸ List.mem_cons_self)
    | crash => exact ⟨trivial, by simp, by simp⟩
    | copy =>
      refine ⟨fun o ho => hb o (List.mem_cons_of_mem _ ho), fun o ho => Or.inl ?_, by simp⟩
      exact hb o (List.mem_singleton.1 ho ▸ List.mem_cons_self)
    | _ => exact absurd hn (by simp [Producer.name?])
  · have hname := hb.of_name? hn
    obtain ⟨hitems, hafter⟩ := h.named hn
    refine ⟨?_, fun o ho => Or.inr ?_, fun p hp => Or.inl ?_⟩
    · rcases hafter with hended | hafter
      · rw [hended]
        exact trivial
      · exact comes_of_name? hafter hname
    · exact hname.imp_left fun ⟨f, hf, hs, he⟩ => ⟨f, hf, hs, (hitems o ho).trans he⟩
    · cases h with
      | read => exact absurd hn (by simp [Producer.name?])
      | resolve =>
        obtain ⟨l, -, rfl⟩ := Option.map_eq_some_iff.1 hp
        exact ⟨l, rfl⟩
      | _ => exact absurd hp (by simp)

/-- After any moves every producer comes from the project or from a dependency. -/
theorem comes_play (hb : ∀ i p, r.producers[i]? = some p → r.Comes items [] i p) (ms : List Move) :
    ∀ i p, (r.play ms).producers[i]? = some p → r.Comes items ms i p := by
  induction ms using List.reverseRecOn with
  | nil => exact hb
  | append_singleton ms m ih =>
    have hms : ms <+: ms ++ [m] := List.prefix_append ms [m]
    intro i p hp
    have hwas : ∀ l, p = .dependency l → r.Was (ms ++ [m]) i (.dependency l) := fun l hl =>
      ⟨_, List.prefix_rfl, hl ▸ hp⟩
    rw [play_concat] at hp
    have hdoes := step_cases (r.play ms) m
    generalize (r.play ms).step m = r' at hp hdoes
    cases hdoes with
    | @turn _ j t _ h =>
      obtain ⟨hafter, -, hchild⟩ := h.acts.comes ((ih j _ h.before).mono hms)
      rw [h.getElem?] at hp
      split at hp
      · next hij =>
        obtain rfl := Option.some.inj hp
        exact hij ▸ hafter
      · split at hp
        · -- the producer that is added
          rcases hchild p hp with ⟨l, rfl⟩ | ⟨f, rfl, hf, hs⟩
          · exact Or.inr ⟨l, hwas l rfl⟩
          · exact Or.inl ⟨f, hf, hs, rfl⟩
        · exact (ih i p hp).mono hms
    | rest => exact (ih i p hp).mono hms
    | answer n a => exact (ih i p hp).mono hms
    | take h => exact (ih i p hp).mono hms

/-- What is given is an output of the project, or a script of the project or a dependency gives it. -/
theorem Gave.cases (hb : ∀ i p, r.producers[i]? = some p → r.Comes items [] i p) (h : r.Gave ms i o) :
    o ∈ items ∨ (∃ f, .file f ∈ items ∧ isScript f = true ∧ o.name = f.name) ∨ ∃ l, r.Was ms i (.dependency l) := by
  obtain ⟨before, m, t, hbefore, ht, ho⟩ := h
  have hprefix : before <+: ms := (List.prefix_append before [m]).trans hbefore
  exact (ht.acts.comes ((comes_play hb before i _ ht.before).mono hprefix)).2.1 o ho

/-- What is taken in a batch is an output of the project, or a script of the project or a dependency gives it. -/
theorem of_mem_taken {fails : Bool} (hm : r.merge = {}) (ho : o ∈ (r.begin items fails).taken ms) :
    o ∈ items ∨ (∃ f, .file f ∈ items ∧ isScript f = true ∧ o.name = f.name) ∨
      ∃ i l, (r.begin items fails).Was ms i (.dependency l) ∧ (r.begin items fails).Gave ms i o := by
  have hqueue : (r.begin items fails).merge.queue = [] := by
    show r.merge.queue = []
    rw [hm]
  have hcomes : ∀ i p, (r.begin items fails).producers[i]? = some p → (r.begin items fails).Comes items [] i p := by
    intro i p hp
    obtain rfl : p = .source items fails := by
      have hmem := List.mem_of_getElem? hp
      simpa [begin, spawn] using hmem
    exact fun o ho => ho
  obtain ⟨i, hi⟩ := (gave_of_queue hqueue ms).1 o ho
  refine (hi.cases hcomes).imp_right (Or.imp_right ?_)
  rintro ⟨l, hl⟩
  exact ⟨i, l, hl, hi⟩

/-! ## Containment -/

/-- In some moves nothing that is read leads out of a package. -/
structure StaysInside (r : Run) (ms : List Move) : Prop where
  /-- No specifier of a script does. -/
  scripts : ∀ i f m, r.Was ms i (.script f m) → f.SpecifiesInside r.map
  /-- No file that was fetched before does. -/
  fetched : ∀ n f, r.cache.outcome? n = some (.ok f) → TellsInside r.cache.base f
  /-- No answer does. -/
  answers : ∀ n x, .answer n (.ok x) ∈ ms → x.status = 200 → TellsInside r.cache.base x.fetched

/-- Where the file of a dependency lies. -/
structure Contained (l : Location) : Prop where
  /-- It is named by a package, a version and a path of names. -/
  named : IsPackage l.pkg ∧ '/' ∉ l.version.toList ∧ Inner l.path ∧
    fileName l = "node_modules/" ++ l.pkg ++ "@" ++ l.version ++ "/" ++ l.path
  /-- In an output folder it is written below the folder of its package version. -/
  written : ∀ (t : Files.Tree) (output : String), t.Proper → Files.Proper t.here → Path.root output.toList ≠ ['/', '/'] →
    ∃ dir, Files.Proper dir ∧ ∀ content (t' : Files.Tree),
      Files.writeOne (Path.absolute t.herePath output.toList) (fileName l) content t' =
        let change := t'.writeDeep (dir ++ folder l ++ l.path.toList.splitOn '/') (Utf8.encode content.toList)
        (change.1, [], change.2)

theorem contained {l : Location} (h : Settled Inner l) : Contained l where
  named := ⟨h.shaped.package, h.shaped.version, h.path, rfl⟩
  written t output ht hhere houtput := by
    obtain ⟨dir, hdir, habsolute⟩ := Files.absolute_spelling hhere houtput
    refine ⟨dir, hdir, fun content t' => ?_⟩
    have hwrite := Files.writeOne_spelling hdir (names_fileName h.shaped h.path) content t'
    rw [splitOn_fileName, segments, ← List.append_assoc] at hwrite
    rw [← hwrite, ← habsolute]
    rfl

/-- Every dependency is settled. -/
theorem StaysInside.settled (h : r.StaysInside ms) (hs : r.Sound) (hk : ∀ p ∈ r.producers, p.Keeps Inner r.cache)
    {l : Location} (hl : r.Was ms i (.dependency l)) : Settled Inner l := by
  obtain ⟨before, hbefore, hi⟩ := hl
  have hkeeps := keeps_play hs ⟨hk, fun n f hf => (h.fetched n f hf).tells⟩ before
    (fun j f m hf => (h.scripts j f m (hf.mono hbefore)).specifies)
    fun n x hx h200 => (h.answers n x (hbefore.subset hx) h200).tells
  exact hkeeps.producers _ (List.mem_of_getElem? hi)

/-- A batch of outputs. Processing it is some moves, and in any moves in which nothing that is read leads out of a package
each output comes from the project or from a dependency. All that a dependency gives is named for a file in the folder of its
package version, at a place that neither another dependency nor a file of a project has. -/
theorem dependencies_contained {map : ImportMap} {url : String} {r : Run} (hr : Between map url r) (items : List Output)
    (fails : Bool) :
    (∀ (σ : Type) (fetch : String → StateM σ Answer) (s : σ), ∃ ms,
      ((r.process fetch items fails).run s).1 = ((r.begin items fails).taken ms, (r.begin items fails).play ms)) ∧
    ∀ ms, (r.begin items fails).StaysInside ms →
      (∀ o ∈ (r.begin items fails).taken ms, o ∈ items ∨ (∃ f, .file f ∈ items ∧ isScript f = true ∧ o.name = f.name) ∨
        ∃ i l, (r.begin items fails).Was ms i (.dependency l) ∧ (r.begin items fails).Gave ms i o) ∧
      ∀ i l, (r.begin items fails).Was ms i (.dependency l) →
        Contained l ∧ (∀ o, (r.begin items fails).Gave ms i o → o.name = fileName l) ∧
        (∀ j k, (r.begin items fails).Was ms j (.dependency k) → segments k = segments l → k = l) ∧
        ∀ (t : Files.Tree) source skip project, t.Proper → Files.Project.load t source skip = .ok project →
          ∀ f ∈ project.1, f.name.toList.splitOn '/' ≠ segments l := by
  obtain ⟨hc, hm, hd⟩ := hr.rests
  have hs := sound_begin hc hm hd items fails
  refine ⟨fun σ fetch s => read_plays fetch _ _ s, fun ms hin => ⟨fun o ho => ?_, fun i l hl => ?_⟩⟩
  · exact of_mem_taken hm ho
  · have hkeeps : ∀ p ∈ (r.begin items fails).producers, p.Keeps Inner (r.begin items fails).cache := by
      intro p hp
      obtain rfl : p = .source items fails := by simpa [begin, spawn] using hp
      exact trivial
    have hsettled := hin.settled hs hkeeps hl
    refine ⟨contained hsettled, fun o ho => ho.name hl, fun j k hk hsame => ?_, fun t source skip project ht hload f hf => ?_⟩
    · exact eq_of_segments (hin.settled hs hkeeps hk).shaped hsettled.shaped hsame
    · exact segments_ne_owned (Files.Project.load_names ht hload hf)

/-! ## Scripts that are read -/

theorem play_cons (r : Run) (m : Move) (ms : List Move) : r.play (m :: ms) = (r.step m).play ms := rfl

/-- The project is read, and then its first script. -/
theorem play_opening (r : Run) (ms : List Move) :
    r.play ([.produce 0, .produce 1] ++ ms) = ((r.step (.produce 0)).step (.produce 1)).play ms := rfl

/-- A script is read. -/
theorem produce_script {f : File} {m : ManifestSource} (hi : r.producers[i]? = some (.script f m)) :
    r.step (.produce i) = r.takeScript i f m (Script.imports f.content) := by
  show r.produce i = _
  unfold produce
  rw [hi]
  rfl

theorem produce_parse {f : File} {m : ManifestSource} {imports : List Script.Import}
    (hi : r.producers[i]? = some (.script f m)) (h : Script.imports f.content = .ok imports) :
    r.step (.produce i) = r.become i (.rewriting (.start r.map f imports) m) := by
  rw [produce_script hi, h]
  rfl

/-- A script that imports a file of a package, and one next to itself. -/
def importing : String := "import 'a@1.0.0/x.js'\nimport './x.js'"

/-- What it imports. -/
def imported : List Script.Import := [⟨some "a@1.0.0/x.js", 8, 20, false⟩, ⟨some "./x.js", 30, 36, false⟩]

/-- A script that imports a text of a package. -/
def asking : String := "import 'a@1.0.0/x.txt'"

/-- What it imports. -/
def asked : List Script.Import := [⟨some "a@1.0.0/x.txt", 8, 21, false⟩]

/-- What it is rewritten to. -/
def placed : String := "import './node_modules/a@1.0.0/x.txt'"

/-- A text that is no script. -/
def letter : String := "?"

-- The texts are read in one evaluation, since nearly all of it builds the tables of the grammar.
theorem parse_texts : Script.imports importing = .ok imported ∧ Script.imports letter = .error ⟨0, ⟨0, 0⟩⟩ ∧
    (Script.parse .plain asking.toList).same (Script.readStatement asking.toList) = true ∧
    (Script.parse .plain placed.toList).same (Script.readStatement placed.toList) = true := by
  decide +kernel

theorem imports_importing : Script.imports importing = .ok imported := parse_texts.1

theorem imports_letter : Script.imports letter = .error ⟨0, ⟨0, 0⟩⟩ := parse_texts.2.1

theorem parse_asking : Script.readStatement asking.toList = Script.parse .plain asking.toList :=
  (Script.Tree.eq_of_same parse_texts.2.2.1).symm

theorem parse_placed : Script.readStatement placed.toList = Script.parse .plain placed.toList :=
  (Script.Tree.eq_of_same parse_texts.2.2.2).symm

theorem imports_asking : Script.imports asking = .ok asked := by
  rw [Script.imports, ← parse_asking]
  decide +kernel

/-! ## A project that needs one dependency -/

/-- The file of the project. -/
def notebook : File := { name := "index.js", content := importing }

/-- The state before the project is rewritten. -/
def opened : Run := begin { map := {}, cache := .empty "https://cdn.test/" } [.file notebook] false

/-- The dependency. -/
def x : Location := ⟨"a", "1.0.0", "x.js"⟩

/-- The CDN's answer for it. -/
def served : Response where
  status := 200
  url := "https://cdn.test/a@1.0.0/x.js"
  contentType := "text/javascript"
  text := importing

/-- The moves by which the dependency is found. -/
def moves : List Move := [.produce 0, .produce 1, .resolve 1 1, .answer 0 (.ok served), .resolve 1 1]

/-- The state in which the file has been read. -/
def parsed : Run :=
  (opened.step (.produce 0)).become 1 (.rewriting (.start (opened.step (.produce 0)).map notebook imported) .project)

theorem step_parsed : (opened.step (.produce 0)).step (.produce 1) = parsed := by
  have hscript : (opened.step (.produce 0)).producers[1]? = some (.script notebook .project) := rfl
  exact produce_parse hscript imports_importing

theorem was_moves : opened.Was moves 2 (.dependency x) := by
  refine ⟨moves, List.prefix_rfl, ?_⟩
  unfold moves
  rw [play_cons, play_cons, step_parsed]
  rfl

theorem specifies_notebook : notebook.SpecifiesInside {} := by
  intro imports himports i hi name hname
  obtain rfl : imported = imports := Except.ok.inj (imports_importing.symm.trans himports)
  have hcases : name = "a@1.0.0/x.js" ∨ name = "./x.js" := by
    unfold imported at hi
    simp only [List.mem_cons, List.not_mem_nil, or_false] at hi
    rcases hi with rfl | rfl
    · exact Or.inl (Option.some.inj hname).symm
    · exact Or.inr (Option.some.inj hname).symm
  constructor
  · intro hkind _ l hl _
    rcases hcases with rfl | rfl
    · have hx : parse? "a@1.0.0/x.js".toList = some x := by decide
      rw [hx] at hl
      obtain rfl := Option.some.inj hl
      decide
    · exact absurd hkind (by decide)
  · intro _ hfolder
    exact absurd hfolder (by decide)

theorem scripts_moves : ∀ i f m, opened.Was moves i (.script f m) → f = notebook := by
  rintro i f m ⟨before, hbefore, hi⟩
  have hmem := List.mem_of_getElem? hi
  unfold moves at hbefore
  simp only [List.prefix_cons_iff, List.prefix_nil] at hbefore
  -- before the script is read it is the only one, and behind that there is none
  obtain rfl | ⟨_, rfl, rfl | ⟨rest, rfl, hbefore⟩⟩ := hbefore
  · have hp : (opened.play []).producers = [.source [.file notebook] false] := rfl
    rw [hp] at hmem
    simp at hmem
  · have hp : (opened.play [.produce 0]).producers = [.source [] false, .script notebook .project] := rfl
    rw [hp] at hmem
    have hscript : f = notebook ∧ m = .project := by simpa using (List.mem_cons.1 hmem).resolve_left (by simp)
    exact hscript.1
  · rw [play_cons, play_cons, step_parsed] at hmem
    have hp : ∃ w, (parsed.play rest).producers = [.source [] false, .rewriting w .project] ∨
        ∃ l, (parsed.play rest).producers = [.source [] false, .rewriting w .project, .dependency l] := by
      obtain rfl | ⟨_, rfl, rfl | ⟨_, rfl, rfl | ⟨_, rfl, rfl⟩⟩⟩ := hbefore
      · exact ⟨_, Or.inl rfl⟩
      · exact ⟨_, Or.inl rfl⟩
      · exact ⟨_, Or.inl rfl⟩
      · exact ⟨_, Or.inr ⟨_, rfl⟩⟩
    obtain ⟨w, hp | ⟨l, hp⟩⟩ := hp
    · rw [hp] at hmem
      simp at hmem
    · rw [hp] at hmem
      simp at hmem

theorem tells_served : TellsInside opened.cache.base served.fetched := by
  constructor
  · intro k hk
    have hx : parseUrl? opened.cache.base served.fetched.url = some x := by decide
    rw [hx] at hk
    obtain rfl := Option.some.inj hk
    decide
  · intro m hm
    have herror : (readManifest served.fetched).toOption = none := by rfl
    rw [hm] at herror
    exact absurd herror (by simp [Except.toOption])

theorem staysInside_moves : opened.StaysInside moves where
  scripts i f m hf := by
    rw [scripts_moves i f m hf]
    exact specifies_notebook
  fetched n f hf := by
    have hnone : opened.cache.outcome? n = none := rfl
    rw [hnone] at hf
    exact absurd hf (by simp)
  answers n x hx _ := by
    obtain rfl : x = served := by
      unfold moves at hx
      simp only [List.mem_cons, List.not_mem_nil, or_false, Move.answer.injEq, Except.ok.injEq, reduceCtorEq, false_or] at hx
      exact hx.2
    exact tells_served

/-- Nothing in the script leads out of a package, and its dependency is named for the folder of its version. -/
theorem dependencies_contained_notebook :
    opened.StaysInside moves ∧ opened.Was moves 2 (.dependency x) ∧ Contained x ∧
      fileName x = "node_modules/a@1.0.0/x.js" := by
  have hfresh : Between {} "https://cdn.test/" { map := {}, cache := .empty "https://cdn.test/" } := .fresh
  have hbatch := dependencies_contained hfresh [.file notebook] false
  have hmoves := (hbatch.2 moves staysInside_moves).2 2 x was_moves
  exact ⟨staysInside_moves, was_moves, hmoves.1, by decide⟩

end Run

end BareImports.Build
