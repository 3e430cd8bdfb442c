import BareImports.CommandLine
import BareImports.Proofs.Build.Containment
import BareImports.Proofs.Table
import BareImports.Proofs.Text.Utf8

/-!
# A build copies what it does not rewrite

* `mem_filesOf`, `of_mem_filesOf` : the files among outputs by name;
* `Noted c c'` : a console that has logged and printed; what its files hold stays, the log file apart;
* `rewriting`, `conclude`, `build_run` : a build that has loaded its project rewrites it and writes what comes of that;
* `build_wrote` : a build that has come to its end has written the outputs of its rewriting;
* `PassedOn`, `Undisturbed` : a text that is no script, and a place of the output folder to which nothing else comes;
* `build_copies` : such a text is in the output folder, its line breaks unified.
-/

namespace BareImports.Console

open Text Arguments Files Build.Run

/-! ## Outputs by name -/

section Names

variable {outputs : List Build.Output} {f : Build.File}

/-- The files among outputs, up to one more output. -/
theorem filesOf_concat (outputs : List Build.Output) (o : Build.Output) : filesOf (outputs ++ [o]) =
    match o with
    | .file f => Table.put (filesOf outputs) f.name f.content
    | .diagnostic .. => filesOf outputs := by
  unfold filesOf
  rw [List.foldl_append]
  rfl

theorem of_mem_filesOf {e : String × String} (h : e ∈ filesOf outputs) :
    ∃ f, .file f ∈ outputs ∧ e = (f.name, f.content) := by
  induction outputs using List.reverseRecOn with
  | nil => exact absurd h (by simp [filesOf])
  | append_singleton outputs o ih =>
    rw [filesOf_concat] at h
    have hbefore : e ∈ filesOf outputs → ∃ f, .file f ∈ outputs ++ [o] ∧ e = (f.name, f.content) := fun h =>
      (ih h).imp fun f hf => ⟨List.mem_append_left _ hf.1, hf.2⟩
    cases o with
    | file f => exact (Table.mem_put h).elim (fun he => ⟨f, by simp, he⟩) hbefore
    | diagnostic name d => exact hbefore h

/-- A file among outputs counts if all others of its name have its text. -/
theorem mem_filesOf (hf : .file f ∈ outputs) (hsame : ∀ g, .file g ∈ outputs → g.name = f.name → g.content = f.content) :
    (f.name, f.content) ∈ filesOf outputs := by
  induction outputs using List.reverseRecOn with
  | nil => exact absurd hf (by simp)
  | append_singleton outputs o ih =>
    rw [filesOf_concat]
    rcases List.mem_append.1 hf with hbefore | hlast
    · have hbefore := ih hbefore fun g hg => hsame g (List.mem_append_left _ hg)
      cases o with
      | diagnostic name d => exact hbefore
      | file g =>
        dsimp only
        by_cases hname : g.name = f.name
        · rw [hname, hsame g (by simp) hname]
          exact Table.mem_put_self _ _ _
        · exact Table.mem_put_of_ne hbefore (Ne.symm hname)
    · obtain rfl := List.mem_singleton.1 hlast
      exact Table.mem_put_self _ _ _

end Names

/-! ## Consoles -/

/-- A console that has logged and printed. -/
inductive Noted (c : Console) : Console → Prop
  /-- Nothing so far. -/
  | refl : Noted c c
  /-- An entry. -/
  | note {c' : Console} (h : Noted c c') (e : Log.Entry) : Noted c (c'.note e)
  /-- Some lines. -/
  | print {c' : Console} (h : Noted c c') (lines : List String) : Noted c { c' with printed := lines }

section Noted

variable {c c' : Console}

theorem Noted.noteAll (h : Noted c c') (es : List Log.Entry) : Noted c (c'.noteAll es) := by
  induction es generalizing c' with
  | nil => exact h
  | cons e es ih => exact ih (h.note e)

theorem note_here (c : Console) (e : Log.Entry) : (c.note e).tree.here = c.tree.here := by
  unfold Console.note
  split
  · dsimp only
    split
    · exact Tree.here_write _ _ _
    · rfl
  · rfl

theorem note_logPlace (c : Console) (e : Log.Entry) : (c.note e).logPlace = c.logPlace := by
  unfold Console.note
  split <;> rfl

/-- The current folder stays, and where the log file is. -/
theorem Noted.stays (h : Noted c c') : c'.tree.here = c.tree.here ∧ c'.logPlace = c.logPlace := by
  induction h with
  | refl => exact ⟨rfl, rfl⟩
  | note _ e ih => exact ⟨(note_here _ e).trans ih.1, (note_logPlace _ e).trans ih.2⟩
  | print _ lines ih => exact ih

/-- A file stays as it is if it is not the log file. -/
theorem Noted.holds (h : Noted c c') {p : Files.Place} {bs : List UInt8} (hp : c.logPlace ≠ some p) (hc : c.tree.Holds p bs) :
    c'.tree.Holds p bs := by
  induction h with
  | refl => exact hc
  | @note c' hnoted e ih =>
    unfold Console.note
    split
    · dsimp only
      split
      · next log hlog =>
        refine ih.write ?_ _
        rintro rfl
        exact hp (hnoted.stays.2.symm.trans hlog)
      · exact ih
    · exact ih
  | print _ lines ih => exact ih

/-- A console that has written files holds what the tree holds, the log file apart. -/
theorem write_holds {output : String} {files : List (String × String)} (h : c.write output files = (c', none))
    {p : Files.Place} {bs : List UInt8} (hp : c.logPlace ≠ some p)
    (hfiles : (writeAll output files c.tree).2.2 = none → (writeAll output files c.tree).1.Holds p bs) :
    c'.tree.Holds p bs ∧ c'.logPlace = c.logPlace := by
  unfold Console.write at h
  rcases hw : writeAll output files c.tree with ⟨t, log, fault⟩
  rw [hw] at h hfiles
  obtain ⟨rfl, rfl⟩ := Prod.mk.inj h
  have hnoted : Noted { c with tree := t } (Console.noteAll { c with tree := t } log) := .noteAll .refl log
  exact ⟨hnoted.holds hp (hfiles rfl), hnoted.stays.2⟩

end Noted

/-! ## Builds -/

section Build

variable {σ : Type} {net : Network (StateM σ)} {s : Settings} {source : String} {o : Options} {c c' : Console}
  {st st' : σ} {outcome : Outcome}

/-- How a build rewrites the files of its project. -/
def rewriting (net : Network (StateM σ)) (s : Settings) (project : List Build.File) :
    StateM σ (List Build.Output × Build.Run) :=
  Build.Run.process net.fetch { map := s.mapping.1, cache := .empty s.cdnUrl } (project.map .file) false

theorem outcome_of_stop {f : Log.Fault} (h : c.stop f = (.ran outcome, c')) : outcome = .fileError := by
  unfold stop at h
  split at h
  · exact (Exit.ran.inj (Prod.mk.inj h).1).symm
  · exact absurd (Prod.mk.inj h).1 (by simp)

theorem Noted.finish (h : Noted c c') (s : Settings) (failed : Nat) (diagnosed : Bool) :
    Noted c (c'.finish s failed diagnosed).2 := by
  unfold Console.finish
  split
  · exact h.note _
  · exact h

/-- What a build comes to once its files are rewritten. -/
def conclude (c : Console) (s : Settings) (o : Options) (outputs : List Build.Output) (failed : Nat) : Exit × Console :=
  match c.write o.output (filesOf outputs) with
  | (c, some f) => c.stop f
  | (c, none) =>
    ({ c with printed := c.printed ++ diagnosticsOf outputs }.note
      (info "Wrote %d files to %s (%d diagnostics)"
        [.count (filesOf outputs).length, .text o.output, .count (diagnosticsOf outputs).length])).finish
      s failed (!(diagnosticsOf outputs).isEmpty && o.failOnWarnings)

/-- A build that has loaded its project rewrites it and writes what comes of that. -/
theorem build_run (net : Network (StateM σ)) (s : Settings) (st : σ) {project : List Build.File}
    {warnings : List Log.Entry} (hfolder : c.tree.isFolder source.toList = true)
    (hload : Project.load c.tree source (some o.output) = .ok (project, warnings)) :
    ∃ failed st', (c.build net s source o).run st =
      (((c.noteAll (warnings ++ s.mapping.2)).noteWarnings ((rewriting net s project).run st).1.2.log).conclude s o
        ((rewriting net s project).run st).1.1 failed, st') := by
  unfold build
  rw [hfolder, hload]
  generalize hp : (rewriting net s project).run st = p
  obtain ⟨⟨outputs, run⟩, behind⟩ := p
  rcases hfailed : net.failed.run behind with ⟨failed, st'⟩
  refine ⟨failed, st', ?_⟩
  unfold rewriting at hp
  have hbind : ∀ {α β : Type} (x : Id α) (f : α → Id β), x >>= f = f x := fun _ _ => rfl
  simp only [Bool.not_true, Bool.false_eq_true, if_false, StateT.run_bind, hp, hbind, hfailed, conclude]
  rcases ((c.noteAll (warnings ++ s.mapping.2)).noteWarnings run.log).write o.output (filesOf outputs) with ⟨c', _ | f⟩ <;> rfl

/-- A build that has come to its end has written the outputs of its rewriting. -/
theorem build_wrote (hrun : (c.build net s source o).run st = ((.ran outcome, c'), st')) (hok : outcome ≠ .fileError) :
    c.tree.isFolder source.toList = true ∧ ∃ project, Project.load c.tree source (some o.output) = .ok project ∧
      ∃ before behind, Noted c before ∧ Noted behind c' ∧
        before.write o.output (filesOf ((rewriting net s project.1).run st).1.1) = (behind, none) := by
  by_cases hfolder : c.tree.isFolder source.toList = true
  swap
  · rw [Bool.not_eq_true] at hfolder
    unfold build at hrun
    rw [hfolder] at hrun
    have hout := Exit.ran.inj (Prod.mk.inj (Prod.mk.inj hrun).1).1
    exact absurd hout.symm hok
  refine ⟨hfolder, ?_⟩
  cases hload : Project.load c.tree source (some o.output) with
  | error f =>
    unfold build at hrun
    rw [hfolder, hload] at hrun
    exact absurd (outcome_of_stop (Prod.mk.inj hrun).1) hok
  | ok loaded =>
    obtain ⟨project, warnings⟩ := loaded
    obtain ⟨failed, st'', hbuild⟩ := build_run net s st hfolder hload
    rw [hbuild] at hrun
    have hbefore : Noted c ((c.noteAll (warnings ++ s.mapping.2)).noteWarnings ((rewriting net s project).run st).1.2.log) :=
      (Noted.refl.noteAll _).noteAll _
    have hend := (Prod.mk.inj hrun).1
    unfold conclude at hend
    split at hend
    · exact absurd (outcome_of_stop hend) hok
    · next behind hwrite =>
      refine ⟨(project, warnings), rfl, ?_⟩
      dsimp only
      refine ⟨_, behind, hbefore, ?_, hwrite⟩
      rw [← show _ = c' from congrArg Prod.snd hend]
      exact ((Noted.refl.print _).note _).finish _ _ _

theorem outcome_finish (c : Console) (s : Settings) (failed : Nat) (diagnosed : Bool) :
    ∃ outcome, (c.finish s failed diagnosed).1 = .ran outcome ∧ outcome ≠ .fileError := by
  unfold Console.finish
  split
  · exact ⟨_, rfl, by simp⟩
  · exact ⟨_, rfl, by split <;> simp⟩

/-- A build that can write what its rewriting gives comes to its end. -/
theorem build_ends {behind : Console} {project : List Build.File} {warnings : List Log.Entry} {outputs : List Build.Output} {run : Build.Run}
    (hfolder : c.tree.isFolder source.toList = true)
    (hload : Project.load c.tree source (some o.output) = .ok (project, warnings))
    (hrewrite : (rewriting net s project).run st = ((outputs, run), st'))
    (hwrite : ((c.noteAll (warnings ++ s.mapping.2)).noteWarnings run.log).write o.output (filesOf outputs) = (behind, none)) :
    ∃ outcome c' st', (c.build net s source o).run st = ((.ran outcome, c'), st') ∧ outcome ≠ .fileError := by
  obtain ⟨failed, st'', hbuild⟩ := build_run net s st hfolder hload
  rw [hrewrite] at hbuild
  unfold conclude at hbuild
  rw [hwrite] at hbuild
  obtain ⟨outcome, hout, hok⟩ := outcome_finish
    ({ behind with printed := behind.printed ++ diagnosticsOf outputs }.note (info "Wrote %d files to %s (%d diagnostics)"
      [.count (filesOf outputs).length, .text o.output, .count (diagnosticsOf outputs).length]))
    s failed (!(diagnosticsOf outputs).isEmpty && o.failOnWarnings)
  exact ⟨outcome, _, st'', hbuild.trans (by rw [← hout]), hok⟩

/-! ## What is copied -/

section Rewriting

variable {project : List Build.File} {f g : Build.File}

/-- The outputs of a rewriting are what was taken of its stream. -/
theorem rewriting_plays (net : Network (StateM σ)) (s : Settings) (project : List Build.File) (st : σ) :
    ∃ ms, ((rewriting net s project).run st).1 =
      ((Build.Run.begin { map := s.mapping.1, cache := .empty s.cdnUrl } (project.map .file) false).taken ms,
        (Build.Run.begin { map := s.mapping.1, cache := .empty s.cdnUrl } (project.map .file) false).play ms) :=
  read_plays net.fetch _ _ st

/-- A file that is no script is among the outputs of a rewriting that has come to its end. -/
theorem mem_rewriting (hread : Readable (project.map .file))
    (hover : ((rewriting net s project).run st).1.2.merge.isOver = true) (hf : f ∈ project) (hscript : isScript f = false) :
    .file f ∈ ((rewriting net s project).run st).1.1 := by
  obtain ⟨ms, hms⟩ := rewriting_plays net s project st
  rw [hms] at hover ⊢
  have hfresh : Between s.mapping.1 s.cdnUrl { map := s.mapping.1, cache := .empty s.cdnUrl } := .fresh
  obtain ⟨hc, hm, hd⟩ := hfresh.rests
  obtain ⟨L, hL⟩ := ledger_play hm false hread ms
  refine (hL.accounts ((sound_begin hc hm hd _ false).play ms) hover).mem_taken (List.mem_map_of_mem hf) ?_
  simpa [Build.Output.passes] using hscript

/-- Where the outputs of a rewriting come from. -/
theorem of_mem_rewriting (hg : .file g ∈ ((rewriting net s project).run st).1.1) :
    g ∈ project ∨ (∃ f ∈ project, isScript f = true ∧ g.name = f.name) ∨ ∃ l, g.name = Build.fileName l := by
  obtain ⟨ms, hms⟩ := rewriting_plays net s project st
  rw [hms] at hg
  have hfile : ∀ {f : Build.File}, .file f ∈ project.map Build.Output.file → f ∈ project := fun hf => by
    obtain ⟨f', hf', heq⟩ := List.mem_map.1 hf
    exact Build.Output.file.inj heq ▸ hf'
  rcases of_mem_taken rfl hg with hitem | ⟨f, hf, hscript, hname⟩ | ⟨i, l, hl, hi⟩
  · exact Or.inl (hfile hitem)
  · exact Or.inr (Or.inl ⟨f, hfile hf, hscript, hname⟩)
  · exact Or.inr (Or.inr ⟨l, hi.name hl⟩)

end Rewriting

/-- A text of the project in the folder `source` that is no script, neither in a folder of installed packages nor in the
output folder; `q` is its place as seen from the project. -/
structure PassedOn (t : Tree) (source output : String) (q : Files.Place) (bs : List UInt8) : Prop where
  /-- It is a file of the project. -/
  held : q ≠ [] ∧ t.files.lookup (t.placeOf source.toList ++ q) = some bs
  /-- It is no script. -/
  plain : FileName.isScript (['/'].intercalate q) = false
  /-- It is in no folder of installed packages. -/
  owned : ∀ g ∈ q.dropLast, g ≠ Project.installed
  /-- It is not in the output folder. -/
  apart : ¬ t.placeOf output.toList <+: t.placeOf source.toList ++ q

/-- Neither the log nor the file of a dependency comes to a place. -/
structure Undisturbed (c : Console) (output : String) (outputs : List Build.Output) (p : Files.Place) : Prop where
  /-- The log file is somewhere else. -/
  log : c.logPlace ≠ some p
  /-- So are the files of dependencies. -/
  dependencies : ∀ g l, .file g ∈ outputs → g.name = Build.fileName l →
    leadsTo (Path.absolute c.tree.herePath output.toList) g.name ≠ p

/-- The file as which such a text is loaded. -/
def loadedAs (q : Files.Place) (cs : List Char) : Build.File :=
  ⟨String.ofList (['/'].intercalate q), String.ofList (unifyBreaks cs), none⟩

section PassedOn

variable {project : Project.Loaded} {outputs : List Build.Output} {q : Files.Place} {bs : List UInt8} {cs : List Char}

theorem PassedOn.proper (h : PassedOn c.tree source o.output q bs) (htree : c.tree.Grounded) : Proper q := fun g hg =>
  htree.files _ (Table.mem_of_lookup h.held.2) g (List.mem_append_right _ hg)

theorem PassedOn.loaded (h : PassedOn c.tree source o.output q bs) (htree : c.tree.Grounded) (hhere : Proper c.tree.here)
    (hfolder : c.tree.isFolder source.toList = true) (hload : Project.load c.tree source (some o.output) = .ok project)
    (hdecode : Utf8.decode? bs = some cs) : loadedAs q cs ∈ project.1 := by
  refine Project.mem_load htree hhere hload hfolder h.held.1 h.held.2 ?_ h.owned h.apart
  unfold Tree.decode
  rw [hdecode]

/-- All outputs that lead to the place of such a text in the output folder have its content. -/
theorem PassedOn.content_eq {dir : Files.Place} (h : PassedOn c.tree source o.output q bs) (htree : c.tree.Grounded)
    (hload : Project.load c.tree source (some o.output) = .ok project) (hmem : loadedAs q cs ∈ project.1)
    (hdir : Proper dir) (hroot : Path.absolute c.tree.herePath o.output.toList = spelling dir)
    (hplace : Undisturbed c o.output ((rewriting net s project.1).run st).1.1 (dir ++ q)) {g : Build.File}
    (hg : .file g ∈ ((rewriting net s project.1).run st).1.1) (hsame : leadsTo (spelling dir) g.name = dir ++ q) :
    g.content = (loadedAs q cs).content := by
  -- a file of the project leads to a place of its own
  have hname : ∀ k ∈ project.1, leadsTo (spelling dir) k.name = dir ++ q → k.name = (loadedAs q cs).name := by
    intro k hk hkq
    obtain ⟨p, hne, hp, -, hname⟩ := Project.load_names htree.toProper hload hk
    rw [leadsTo_eq hdir hp hne hname, List.append_cancel_left_eq] at hkq
    rw [← String.toList_inj, hname, hkq]
    exact String.toList_ofList.symm
  rcases of_mem_rewriting hg with hproject | ⟨k, hk, hscript, hgk⟩ | ⟨l, hl⟩
  · exact Project.load_content_eq htree.toProper hload hproject hmem (hname g hproject hsame)
  · rw [hgk] at hsame
    have hplain : FileName.isScript (loadedAs q cs).name.toList = false := by
      rw [← h.plain]
      exact congrArg FileName.isScript String.toList_ofList
    rw [← hname k hk hsame] at hplain
    exact absurd (hscript.symm.trans hplain) (by simp)
  · exact absurd (hroot ▸ hsame) (hplace.dependencies g l hg hl)

end PassedOn

end Build

/-! ## A folder with one text -/

/-- The files of a project of one text. -/
def shelf : Tree where
  here := []
  folders := [["site".toList]]
  files := [(["site".toList, "a.txt".toList], [104, 105])]

/-- The text. -/
def leaf : Build.File := { name := "a.txt", content := "hi" }

/-- A network of which nothing is asked. -/
def offline : Network (StateM Unit) where
  fetch _ := return .error default
  failed := return 0

theorem load_shelf : Project.load shelf "site" (some "out") = .ok ([leaf], []) := by
  have hfind : shelf.find? "site".toList = some (["site".toList], .folder) := rfl
  have hfiles : shelf.filesIn ["site".toList] = [("a.txt".toList, [104, 105])] := rfl
  have hfolders : shelf.subfolders ["site".toList] = [] := rfl
  have hone : sortedNames ["a.txt".toList] = ["a.txt".toList] := List.mergeSort_singleton _
  have hnone : sortedNames [] = [] := List.mergeSort_nil
  unfold Project.load
  dsimp only
  rw [hfind, if_neg (by decide)]
  show Except.ok (Project.loadFolder shelf _ _ 2 _ _) = _
  unfold Project.loadFolder
  dsimp only
  rw [hfiles, hfolders, List.filter_nil, List.map_cons, List.map_nil, hone, hnone]
  rfl

theorem rewriting_shelf : ∃ r, (rewriting offline {} [leaf]).run () = (([.file leaf], r), ()) ∧
    r.merge.isOver = true ∧ r.log = [] := by
  -- three turns, whatever is left of the others
  have hread : ∀ n, ∃ r, (Build.Run.read offline.fetch (n + 3) (.begin
      { map := ({} : Settings).mapping.1, cache := .empty ({} : Settings).cdnUrl } [.file leaf] false)).run () =
      (([.file leaf], r), ()) ∧ r.merge.isOver = true ∧ r.log = [] := fun n => ⟨_, rfl, rfl, rfl⟩
  exact hread (turnLimit - 3)

theorem write_shelf : ∃ c, Console.write { tree := shelf } "out" [("a.txt", "hi")] = (c, none) := by
  have hwrite : (writeAll "out" [("a.txt", "hi")] shelf).2.2 = none := by decide +kernel
  unfold Console.write
  exact ⟨_, congrArg (Prod.mk _) hwrite⟩

theorem grounded_shelf : shelf.Grounded where
  folders := by decide
  files := by decide
  folder := by
    intro e he p hne hp
    obtain rfl : e = (["site".toList, "a.txt".toList], [104, 105]) := List.mem_singleton.1 he
    rcases List.prefix_cons_iff.1 hp with rfl | ⟨rest, rfl, hrest⟩
    · exact absurd rfl hne
    · obtain rfl := List.prefix_nil.1 hrest
      exact List.mem_singleton_self _

end BareImports.Console
