import BareImports.Proofs.Build.Assets

/-!
# A script that is rewritten is a script again

* `newName? results i` : the name that a specifier gets when some have come to results;
* `edits_eq` : what is exchanged in a script is what its specifiers with other names ask for;
* `retold_of_rewritten`, `Run.Rewritten.retold`, `Run.scripts_kept` : a parser that does not look into literals reads what a script
  is rewritten to, and its specifiers are those of the script, each with what it was resolved to.
-/

namespace BareImports.Build

open Text Script

variable {f : File} {imports : List Import} {results : List (Open × Except Failure String)}

/-- The name that a specifier gets. -/
def newName? (results : List (Open × Except Failure String)) (i : Import) : Option String :=
  match results.find? (fun e => decide (e.1.span = i)) with
  | some (o, .ok target) => if target == o.name then none else some target
  | _ => none

/-- The result of a specifier is found by where the specifier stands. -/
theorem find?_span {s : List Char} (h : Descending s (results.map (·.1))) {e : Open × Except Failure String}
    (he : e ∈ results) : results.find? (fun x => decide (x.1.span = e.1.span)) = some e := by
  have hapart := h.apart
  induction results with
  | nil => exact absurd he (by simp)
  | cons x results ih =>
    rw [List.map_cons, List.pairwise_cons] at hapart
    rcases List.mem_cons.1 he with rfl | he
    · exact List.find?_cons_of_pos (decide_eq_true rfl)
    · have hbefore := hapart.1 e.1 (List.mem_map_of_mem he)
      have hne : x.1.span ≠ e.1.span := by
        intro heq
        have hlt := hbefore.start
        rw [heq] at hlt
        exact Nat.lt_irrefl _ hlt
      rw [List.find?_cons_of_neg (by simpa using hne)]
      exact ih ⟨fun o ho => h.stands o (List.mem_cons_of_mem _ ho), hapart.2⟩ he hapart.2

theorem edit?_eq {s : List Char} (h : Descending s (results.map (·.1))) {e : Open × Except Failure String} (he : e ∈ results) :
    e.1.span.edit? (newName? results) = edit? e := by
  have hname := (h.stands e.1 (List.mem_map_of_mem he)).2
  unfold Import.edit? newName?
  rw [find?_span h he, hname]
  obtain ⟨o, x⟩ := e
  cases x with
  | error e => rfl
  | ok target =>
    simp only [edit?, Rewriting.replacement, List.cons_append]
    by_cases heq : target = o.name <;> simp [heq]

/-- What is exchanged in a script is what its specifiers with other names ask for. -/
theorem edits_eq {map : ImportMap} {t : Tree} (h : importsOf f.content.toList t = .ok imports)
    (hall : results.map (·.1) = (Rewriting.start map f imports).left) :
    edits results = imports.filterMap (Import.edit? (newName? results)) := by
  have hdescending : Descending f.content.toList (results.map (·.1)) := hall ▸ start_descending h
  have hresults : results.filterMap edit? = (results.map (·.1)).filterMap fun o => o.span.edit? (newName? results) := by
    rw [List.filterMap_map]
    exact List.filterMap_congr fun e he => (edit?_eq hdescending he).symm
  have hleft : (Rewriting.start map f imports).left.filterMap (fun o => o.span.edit? (newName? results)) =
      imports.reverse.filterMap (Import.edit? (newName? results)) := by
    unfold Rewriting.start
    rw [List.filterMap_filterMap]
    refine List.filterMap_congr fun i _ => ?_
    cases hi : i.name with
    | none => exact (edit?_eq_none hi).symm
    | some name => rfl
  unfold edits
  rw [hresults, hall, hleft, List.filterMap_reverse, List.reverse_reverse]

/-- A specifier behind the rewriting of a script: one of a computed argument as before, or one with what it was resolved to. -/
structure Retold (results : List (Open × Except Failure String)) (i i' : Import) : Prop where
  /-- It is that of a statement or of a call as before. -/
  dynamic : i'.dynamic = i.dynamic
  /-- It is computed as before, or named by its result. -/
  name : i.name = none ∧ i'.name = none ∨
    ∃ o target, (o, .ok target) ∈ results ∧ o.span = i ∧ i.name = some o.name ∧ i'.name = some target

/-- A parser that does not look into literals reads what a script is rewritten to, if each of its specifiers has come to one that
may stand in its literal or has stayed. The specifiers are those of the script, in order, each with what it has come to. -/
theorem retold_of_rewritten {P : List Char → Tree} (hP : Steady P) (h : importsOf f.content.toList (P f.content.toList) = .ok imports)
    {map : ImportMap} (hall : results.map (·.1) = (Rewriting.start map f imports).left)
    (hok : ∀ o x, (o, x) ∈ results → ∃ target, x = .ok target ∧
      (target = o.name ∨ o.span.Admits f.content.toList target)) :
    ∃ imports', importsOf (rewritten f results).1 (P (rewritten f results).1) = .ok imports' ∧
      List.Forall₂ (Retold results) imports imports' := by
  have hdescending : Descending f.content.toList (results.map (·.1)) := hall ▸ start_descending h
  have hadmits : ∀ i ∈ imports, ∀ name ∈ newName? results i, i.Admits f.content.toList name := by
    intro i _ name hname
    unfold newName? at hname
    split at hname
    · next o target hfind =>
      split at hname
      · exact absurd hname (by simp)
      · next hne =>
        obtain rfl := Option.mem_some.1 hname
        obtain ⟨target', htarget, hadmits⟩ := hok o _ (List.mem_of_find?_eq_some hfind)
        obtain rfl := Except.ok.inj htarget
        have hspan : o.span = i := by simpa using List.find?_some hfind
        exact hspan ▸ hadmits.resolve_left (by simpa using hne)
    · exact absurd hname (by simp)
  obtain ⟨imports', himports, hrenamed⟩ := hP.importsOf h hadmits
  rw [← edits_eq h hall, ← rewritten_exchange hdescending] at himports
  have hnamed : ∀ i ∈ imports, i.name = none ∨ ∃ o target, (o, .ok target) ∈ results ∧ o.span = i ∧ i.name = some o.name := by
    intro i hi
    refine Option.eq_none_or_eq_some i.name |>.imp_right ?_
    rintro ⟨name, hname⟩
    have hopen : (⟨name, i, .ofSpecifier map f.name name⟩ : Open) ∈ results.map (·.1) := by
      rw [hall]
      exact List.mem_filterMap.2 ⟨i, List.mem_reverse.2 hi, by rw [hname]; rfl⟩
    obtain ⟨⟨o, x⟩, he, ho⟩ := List.mem_map.1 hopen
    obtain ⟨target, rfl, -⟩ := hok o x he
    obtain rfl : o = ⟨name, i, .ofSpecifier map f.name name⟩ := ho
    exact ⟨_, target, he, rfl, hname⟩
  refine ⟨imports', himports, ((List.forall₂_and_left _ _).2 ⟨hnamed, hrenamed⟩).imp ?_⟩
  rintro i i' ⟨hname | ⟨o, target, he, rfl, hname⟩, hrenamed⟩
  · exact ⟨hrenamed.dynamic, Or.inl ⟨hname, by rw [hrenamed.name, hname]; rfl⟩⟩
  · refine ⟨hrenamed.dynamic, Or.inr ⟨o, target, he, rfl, hname, ?_⟩⟩
    rw [hrenamed.name, hname, newName?, find?_span hdescending he]
    by_cases heq : target = o.name <;> simp [heq]

/-- A script that a run gives is a script again, when the parser reads it and the script that it was like one that does not look
into literals, and each specifier has come to one that may stand in its literal or has stayed. -/
theorem Run.Rewritten.retold {P : List Char → Tree} (hP : Steady P) {r : Run} {ms : List Move} {k : Nat} {g : File}
    (hg : Run.Rewritten r ms k f g) (h : Script.imports f.content = .ok imports)
    (hok : ∀ o x, Run.Came r ms k o x → o ∈ (Rewriting.start r.map f imports).left →
      ∃ target, x = .ok target ∧ (target = o.name ∨ o.span.Admits f.content.toList target))
    (hread : P f.content.toList = parse .plain f.content.toList)
    (hread' : P g.content.toList = parse .plain g.content.toList) :
    ∃ imports' results, Script.imports g.content = .ok imports' ∧ (∀ e ∈ results, Run.Came r ms k e.1 e.2) ∧
      List.Forall₂ (Retold results) imports imports' := by
  cases hg with
  | unread herror => exact absurd (h.symm.trans herror) (by simp)
  | @spliced imports₀ results h₀ hall hcame hstands hapart =>
    obtain rfl : imports = imports₀ := Except.ok.inj (h.symm.trans h₀)
    have hreadable : importsOf f.content.toList (P f.content.toList) = .ok imports := hread ▸ h
    have hdescending : Descending f.content.toList (results.map (·.1)) := hall ▸ start_descending hreadable
    obtain ⟨imports', himports, hretold⟩ := retold_of_rewritten hP hreadable hall fun o x he =>
      hok o x (hcame _ he) (hall ▸ List.mem_map_of_mem (f := Prod.fst) he)
    rw [← rewritten_exchange hdescending, String.toList_ofList] at hread'
    refine ⟨imports', results, ?_, hcame, hretold⟩
    rw [← rewritten_exchange hdescending, Script.imports, String.toList_ofList, ← hread']
    exact himports

/-- A script that a parser reads which does not look into literals is read by it when it is rewritten, if each of its specifiers has
come to one that may stand in its literal or has stayed; and so is the file that a run gives it as. The specifiers are those of the
script, in order, each with what it has come to. -/
theorem Run.scripts_kept {P : List Char → Tree} (hP : Steady P)
    (h : importsOf f.content.toList (P f.content.toList) = .ok imports) :
    (∀ map results, results.map (·.1) = (Rewriting.start map f imports).left →
      (∀ o x, (o, x) ∈ results → ∃ target, x = .ok target ∧ (target = o.name ∨ o.span.Admits f.content.toList target)) →
      ∃ imports', importsOf (rewritten f results).1 (P (rewritten f results).1) = .ok imports' ∧
        List.Forall₂ (Retold results) imports imports') ∧
    ∀ r ms k g, Run.Rewritten r ms k f g → P f.content.toList = parse .plain f.content.toList →
      P g.content.toList = parse .plain g.content.toList →
      (∀ o x, Run.Came r ms k o x → o ∈ (Rewriting.start r.map f imports).left →
        ∃ target, x = .ok target ∧ (target = o.name ∨ o.span.Admits f.content.toList target)) →
      ∃ imports' results, Script.imports g.content = .ok imports' ∧ (∀ e ∈ results, Run.Came r ms k e.1 e.2) ∧
        List.Forall₂ (Retold results) imports imports' := by
  refine ⟨fun map results hall hok => retold_of_rewritten hP h hall hok, fun r ms k g hg hread hread' hok => ?_⟩
  have himports : Script.imports f.content = .ok imports := by
    rw [Script.imports, ← hread]
    exact h
  exact hg.retold hP himports hok hread hread'

/-! ## A script of one statement -/

namespace Run.Memo

/-- The specifier of the page. -/
def naming : Open := ⟨"a@1.0.0/x.txt", ⟨some "a@1.0.0/x.txt", 8, 21, false⟩, .ofSpecifier {} page.name "a@1.0.0/x.txt"⟩

/-- What it is resolved to. -/
def resolution : String := "./node_modules/a@1.0.0/x.txt"

/-- The moves by which it is resolved, behind the reading of the page. -/
def resolving : List Build.Move := [.resolve 1 0, .answer 0 (.ok served), .resolve 1 0]

/-- The results that a producer holds. -/
def outcomes : Producer → List (Except Failure String)
  | .rewriting w _ => w.left.filterMap fun o => o.stage.result?
  | _ => []

theorem came_naming : Came untouched ([.produce 0, .produce 1] ++ resolving) 1 naming (.ok resolution) := by
  have hi : (untouched.play ([.produce 0, .produce 1] ++ resolving)).producers[1]? =
      some (.rewriting ⟨page, asking.toList, [{ naming with stage := .done (.ok resolution) }]⟩ .project) := by
    rw [play_opening, step_entered]
    rfl
  exact ⟨_, _, _, List.prefix_rfl, hi, List.mem_singleton_self _⟩

theorem eq_resolution {o : Open} {x : Except Failure String}
    (h : Came untouched ([.produce 0, .produce 1] ++ resolving) 1 o x) : x = .ok resolution := by
  obtain ⟨before, w, m, hb, hi, hmem⟩ := h
  have hx : x ∈ (untouched.play before).producers[1]?.elim [] outcomes := by
    rw [hi]
    exact List.mem_filterMap.2 ⟨_, hmem, rfl⟩
  have hlen : before.length ≤ 5 := hb.length_le
  rw [List.prefix_iff_eq_take.1 hb] at hx
  generalize before.length = n at hx hlen
  -- until the page is read there is no specifier, and then there is one
  rcases n with _ | _ | n
  · have hnone : (untouched.play []).producers[1]?.elim [] outcomes = [] := rfl
    exact absurd (hnone ▸ hx) (by simp)
  · have hnone : (untouched.play [.produce 0]).producers[1]?.elim [] outcomes = [] := rfl
    exact absurd (hnone ▸ hx) (by simp)
  · have hall : ∀ k ≤ 3, ∀ y ∈ (entered.play (resolving.take k)).producers[1]?.elim [] outcomes, y = .ok resolution := by
      decide +kernel
    rw [List.cons_append, List.cons_append, List.nil_append, List.take_succ_cons, List.take_succ_cons, play_cons, play_cons,
      step_entered] at hx
    exact hall n (by omega) x hx

theorem left_page : (Rewriting.start untouched.map page asked).left = [naming] := rfl

theorem rewritten_page :
    Rewritten untouched ([.produce 0, .produce 1] ++ resolving) 1 page { page with content := placed } := by
  have hstart : Descending page.content.toList (Rewriting.start untouched.map page asked).left :=
    start_descending imports_asking
  rw [left_page] at hstart
  have htext : String.ofList (exchange page.content.toList 0 (edits [(naming, .ok resolution)])) = placed := by decide +kernel
  rw [← htext]
  refine @Rewritten.spliced untouched _ 1 page asked [(naming, .ok resolution)] imports_asking left_page.symm ?_ ?_ (by decide)
  · intro e he
    obtain rfl := List.mem_singleton.1 he
    exact came_naming
  · intro e he
    obtain rfl := List.mem_singleton.1 he
    exact ⟨List.mem_singleton_self _, (hstart.stands naming (List.mem_singleton_self _)).1⟩

theorem admits_resolution : naming.span.Admits page.content.toList resolution := by
  intro q hq
  obtain rfl : '\'' = q := by simpa [naming, page, asking] using hq
  decide

end Run.Memo

open Run Run.Memo in
/-- The page is read as a statement that names what its specifier is resolved to, by the parser of one statement and, as a run
gives it, by that of scripts. -/
theorem scripts_kept_page : Steady readStatement ∧
    Rewritten untouched ([.produce 0, .produce 1] ++ resolving) 1 page { page with content := placed } ∧
    (∃ imports', importsOf (rewritten page [(naming, .ok resolution)]).1 (readStatement (rewritten page [(naming, .ok resolution)]).1) =
      .ok imports' ∧ List.Forall₂ (Retold [(naming, .ok resolution)]) asked imports') ∧
    ∃ imports' results, Script.imports placed = .ok imports' ∧
      (∀ e ∈ results, Came untouched ([.produce 0, .produce 1] ++ resolving) 1 e.1 e.2) ∧
      List.Forall₂ (Retold results) asked imports' := by
  have hread : importsOf page.content.toList (readStatement page.content.toList) = .ok asked := by
    rw [show page.content = asking from rfl, parse_asking]
    exact imports_asking
  have hkept := Run.scripts_kept steady_readStatement hread
  refine ⟨steady_readStatement, rewritten_page, ?_, ?_⟩
  · refine hkept.1 {} _ left_page.symm fun o x h => ?_
    obtain ⟨rfl, rfl⟩ : o = naming ∧ x = .ok resolution := by simpa using h
    exact ⟨resolution, rfl, Or.inr admits_resolution⟩
  · have hok : ∀ o x, Came untouched ([.produce 0, .produce 1] ++ resolving) 1 o x →
        o ∈ (Rewriting.start untouched.map page asked).left →
        ∃ t, x = .ok t ∧ (t = o.name ∨ o.span.Admits page.content.toList t) := by
      intro o x hcame ho
      rw [left_page] at ho
      obtain rfl := List.mem_singleton.1 ho
      exact ⟨resolution, eq_resolution hcame, Or.inr admits_resolution⟩
    exact hkept.2 untouched ([.produce 0, .produce 1] ++ resolving) 1 { page with content := placed } rewritten_page parse_asking
      parse_placed hok

end BareImports.Build
