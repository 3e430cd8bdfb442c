import BareImports.Proofs.Build.Reports

/-!
# Files that are no scripts

* `Inert map name content` : a text that reads as a script of which each named specifier stays, with no request;
* `Was.file_eq` : a producer reads one file; `script_cases` : that of a script of the project, or of a dependency as served;
* `Came.place`, `came_done` : what comes to a result is a specifier of that file, and its result if it needs no request;
* `Rewritten.eq_self`, `not_problem_of_inert` : so an inert text is given as it is, and nothing is told of it;
* `assets_kept` : what is given under a name that is no script's is passed on, or it is such a file of a dependency.
-/

namespace BareImports.Build

open Text Cdn Script

/-- A text that reads as a script of which each named specifier stays, with no request. -/
def Inert (map : ImportMap) (name content : String) : Prop :=
  ∃ imports, Script.imports content = .ok imports ∧
    ∀ i ∈ imports, ∀ x ∈ i.name, Stage.ofSpecifier map name x = .done (.ok x)

namespace Run

variable {map : ImportMap} {url : String} {r : Run} {items : List Output} {fails : Bool} {ms : List Move} {i : Nat} {f g : File}

/-! ## The file of a producer -/

/-- A producer reads one file only. -/
theorem Was.file_eq {m m' : ManifestSource} (h : r.Was ms i (.script f m)) (h' : r.Was ms i (.script g m')) : f = g := by
  have hlater : ∀ {f g m m'} {before before' : List Move}, before <+: before' →
      (r.play before).producers[i]? = some (.script f m) → (r.play before').producers[i]? = some (.script g m') → f = g := by
    intro f g m m' before before' hpre hp hp'
    cases reading_of_was ⟨before, hpre, hp⟩ with
    | unread hi => exact (Producer.script.inj (Option.some.inj (hi.symm.trans hp'))).1
    | writes hi => exact absurd (Option.some.inj (hi.symm.trans hp')) (by simp)
    | wrote hi => exact absurd (Option.some.inj (hi.symm.trans hp')) (by simp)
  obtain ⟨before, hb, hp⟩ := h
  obtain ⟨before', hb', hp'⟩ := h'
  rcases List.prefix_or_prefix_of_prefix hb hb' with hpre | hpre
  · exact hlater hpre hp hp'
  · exact (hlater hpre hp' hp).symm

/-- What a producer reads is a script of the project, or the file of a dependency as it was served. -/
def Read (r : Run) (items : List Output) (f : File) : Prop :=
  (.file f ∈ items ∧ isScript f = true) ∨ ∃ l c, r.cache.Answers l .file (.ok c) ∧ f = Site.fileOf l c

theorem Read.mono {r' : Run} (h : r.Read items f) (he : r.cache.Extends r'.cache) : r'.Read items f :=
  h.imp_right fun ⟨l, c, hc, hf⟩ => ⟨l, c, Cache.Stands.mono (s := .done (.ok c)) hc he, hf⟩

theorem script_cases (hs : (r.begin items fails).Sound) (ms : List Move) : ∀ (i : Nat) f m,
    ((r.begin items fails).play ms).producers[i]? = some (.script f m) → ((r.begin items fails).play ms).Read items f := by
  have hcomes : ∀ i p, (r.begin items fails).producers[i]? = some p → (r.begin items fails).Comes items [] i p := by
    intro i p hp
    obtain rfl : p = .source items fails := by simpa [begin, spawn] using List.mem_of_getElem? hp
    exact fun o ho => ho
  have hnone : ∀ (i : Nat) f m, (r.begin items fails).producers[i]? ≠ some (Producer.script f m) := fun i f m hi =>
    absurd (List.mem_of_getElem? hi) (by simp [begin, spawn])
  generalize r.begin items fails = r₀ at hs hcomes hnone
  induction ms using List.reverseRecOn with
  | nil => exact fun i f m hi => absurd hi (hnone i f m)
  | append_singleton ms m ih =>
    have hsound := hs.play ms
    have hfrom := fun i p => comes_play hcomes ms i p
    rw [play_concat]
    have hdoes := step_cases (r₀.play ms) m
    have hgrows := hdoes.grows hsound
    generalize (r₀.play ms).step m = r' at hdoes hgrows
    intro i f m' hi
    cases hdoes with
    | @turn _ j t _ ht =>
      have hacts := ht.acts
      rw [ht.getElem?] at hi
      split at hi
      · -- the producer that has the turn
        have hafter : t.after = .script f m' := Option.some.inj hi
        have hstands := hsound.stands _ ht.mem_before
        have hcache := ht.cache
        cases hacts with
        | found hr =>
          obtain ⟨rfl, -⟩ := Producer.script.inj hafter
          have hanswers := (kept_resume hsound.cache hstands hr).2
          exact Or.inr ⟨_, _, hcache ▸ hanswers, rfl⟩
        | _ => exact absurd hafter (by simp)
      · split at hi
        · -- the producer that is added
          have hsource := hfrom j _ ht.before
          cases hacts with
          | read hscript =>
            obtain ⟨rfl, -⟩ := Producer.script.inj (Option.some.inj hi)
            exact Or.inl ⟨hsource _ List.mem_cons_self, hscript⟩
          | resolve =>
            obtain ⟨l, -, hl⟩ := Option.map_eq_some_iff.1 hi
            exact absurd hl (by simp)
          | _ => exact absurd hi (by simp)
        · exact (ih i f m' hi).mono hgrows
    | rest => exact (ih i f m' hi).mono hgrows
    | answer n a => exact (ih i f m' hi).mono hgrows
    | take h => exact (ih i f m' hi).mono hgrows

theorem read_of_was (hs : (r.begin items fails).Sound) {m : ManifestSource}
    (h : (r.begin items fails).Was ms i (.script f m)) : ((r.begin items fails).play ms).Read items f := by
  obtain ⟨before, ⟨rest, rfl⟩, hp⟩ := h
  have hgrows := (hs.play before).grows_play rest
  rw [← play_append] at hgrows
  exact (script_cases hs before i f m hp).mono hgrows

/-! ## What specifiers come to -/

/-- What comes to a result is a specifier of the file that the producer reads. -/
theorem Came.place {o : Open} {x : Except Failure String} {m : ManifestSource} {imports : List Import}
    (hnone : ∀ (i : Nat) w m, r.producers[i]? ≠ some (Producer.rewriting w m)) (hf : r.Was ms i (.script f m))
    (h : Came r ms i o x) (himports : Script.imports f.content = .ok imports) :
    ∃ before w m', before <+: ms ∧ (r.play before).producers[i]? = some (.rewriting w m') ∧ w.file = f ∧
      { o with stage := .done x } ∈ w.left ∧ ∃ j ∈ imports, j.name = some o.name := by
  obtain ⟨before, w, m', hb, hi, hmem⟩ := h
  obtain ⟨f', m'', hf'⟩ := was_script hnone before i w m' hi
  obtain rfl := (hf'.mono hb).file_eq hf
  cases reading_of_was hf' with
  | unread hu => exact absurd (Option.some.inj (hu.symm.trans hi)) (by simp)
  | wrote hu => exact absurd (Option.some.inj (hu.symm.trans hi)) (by simp)
  | @writes w₁ m₁ given imports' results rest hu hw =>
    obtain ⟨rfl, rfl⟩ := Producer.rewriting.inj (Option.some.inj (hu.symm.trans hi))
    obtain rfl := Except.ok.inj (hw.read.symm.trans himports)
    -- it is one of those that are left, which are some of those of the script
    have hplace : Open.place { o with stage := .done x } ∈ rest.map Open.place := hw.left ▸ List.mem_map_of_mem hmem
    obtain ⟨o', ho', heq⟩ := List.mem_map.1 hplace
    have hstart : o' ∈ (Rewriting.start r.map f' imports').left := hw.all ▸ List.mem_append_right _ ho'
    obtain ⟨j, hj, hopen⟩ := List.mem_filterMap.1 hstart
    obtain ⟨name, hname, rfl⟩ := Option.map_eq_some_iff.1 hopen
    obtain rfl : name = o.name := (Prod.mk.inj heq).1
    exact ⟨before, _, _, hb, hi, hw.file, hmem, j, List.mem_reverse.1 hj, hname⟩

/-- A specifier that needs no request has its result from the beginning. -/
theorem done_play (hnone : ∀ (i : Nat) w m, r.producers[i]? ≠ some (Producer.rewriting w m)) (ms : List Move) :
    ∀ (i : Nat) w m, (r.play ms).producers[i]? = some (.rewriting w m) → ∀ o ∈ w.left, ∀ x,
      Stage.ofSpecifier r.map w.file.name o.name = .done x → o.stage = .done x := by
  refine left_play (P := fun _ _ n o => ∀ x, Stage.ofSpecifier r.map n o.name = .done x → o.stage = .done x) hnone
    (fun _ _ _ _ _ h => h) (fun _ _ _ _ _ _ hx => hx) (fun ms m i t n o known c c' st found _ _ hs h x hx => ?_) ms
  rw [h x hx] at hs
  obtain ⟨-, hst, -⟩ := by simpa [Stage.step] using hs
  exact hst.symm

theorem came_done {o : Open} {x y : Except Failure String} {m : ManifestSource} {imports : List Import}
    (hnone : ∀ (i : Nat) w m, r.producers[i]? ≠ some (Producer.rewriting w m)) (hf : r.Was ms i (.script f m))
    (h : Came r ms i o x) (himports : Script.imports f.content = .ok imports)
    (hy : ∀ j ∈ imports, j.name = some o.name → Stage.ofSpecifier r.map f.name o.name = .done y) : x = y := by
  obtain ⟨before, w, m', -, hi, rfl, hmem, j, hj, hname⟩ := h.place hnone hf himports
  exact Stage.done.inj (done_play hnone before i w m' hi _ hmem y (hy j hj hname))

/-! ## Inert texts -/

/-- A script is given under its name, with its content type. -/
theorem Rewritten.name_eq (h : Rewritten r ms i f g) : g.name = f.name ∧ g.contentType = f.contentType := by
  cases h <;> exact ⟨rfl, rfl⟩

/-- An inert text is given as it is, and so is one that is no script. -/
theorem Rewritten.eq_self {m : ManifestSource} (hnone : ∀ (i : Nat) w m, r.producers[i]? ≠ some (Producer.rewriting w m))
    (hf : r.Was ms i (.script f m)) (h : Rewritten r ms i f g)
    (hplain : Inert r.map f.name f.content ∨ ∃ e, Script.imports f.content = .error e) : g = f := by
  cases h with
  | unread => rfl
  | @spliced imports results h hall hcame =>
    obtain ⟨imports', himports, hstays⟩ := hplain.resolve_right fun ⟨e, he⟩ => absurd (h.symm.trans he) (by simp)
    obtain rfl := Except.ok.inj (h.symm.trans himports)
    have hnothing : ∀ e ∈ results, edit? e = none := by
      intro ⟨o, x⟩ he
      obtain rfl : x = .ok o.name := came_done hnone hf (hcame _ he) himports fun j hj hname => hstays j hj _ hname
      simp [edit?]
    have hedits : edits results = [] := by
      unfold edits
      rw [List.filterMap_eq_nil_iff.2 hnothing]
      rfl
    rw [hedits, exchange, List.drop_zero, String.ofList_toList]

/-- Nothing is told of an inert text. -/
theorem not_problem_of_inert {d : Diagnostic} {m : ManifestSource}
    (hnone : ∀ (i : Nat) w m, r.producers[i]? ≠ some (Producer.rewriting w m)) (hf : r.Was ms i (.script f m))
    (hinert : Inert r.map f.name f.content) : ¬ Problem r ms i f d := by
  obtain ⟨imports, himports, hstays⟩ := hinert
  intro h
  cases h with
  | fault h =>
    unfold Script.imports importsOf at himports
    dsimp only at himports
    rw [if_pos h.cost] at himports
    exact absurd himports (by simp)
  | @failure o e hcame =>
    have hresult := came_done hnone hf hcame himports fun j hj hname => hstays j hj _ hname
    exact absurd hresult (by simp)

/-- Behind a batch each file with a name that is no script's was passed on, or it is the file of a dependency, with the content
that was served if that is inert or no script at all; and a diagnostic for such a name was passed on, or the content that was
served for it is not inert. -/
theorem assets_kept (hr : Between map url r) (items : List Output) (fails : Bool) (ms : List Move) :
    (∀ g, .file g ∈ (r.begin items fails).taken ms → isScript g = false → .file g ∈ items ∨
      ∃ l c, ((r.begin items fails).play ms).cache.Answers l .file (.ok c) ∧ g.name = fileName l ∧
        g.contentType = some c.contentType ∧
        (Inert r.map g.name c.content ∨ (∃ e, Script.imports c.content = .error e) → g.content = c.content)) ∧
    ∀ name d, .diagnostic name d ∈ (r.begin items fails).taken ms → FileName.isScript name.toList = false →
      .diagnostic name d ∈ items ∨
      ∃ l c, ((r.begin items fails).play ms).cache.Answers l .file (.ok c) ∧ name = fileName l ∧
        ¬ Inert r.map name c.content := by
  obtain ⟨hc, hm, hd⟩ := hr.rests
  have hs := sound_begin hc hm hd items fails
  have hnone := not_rewriting_begin r items fails
  have hqueue : (r.begin items fails).merge.queue = [] := by
    show r.merge.queue = []
    rw [hm]
  refine ⟨fun g hg hname => ?_, fun name d hd hname => ?_⟩
  · obtain ⟨i, hgave⟩ := (gave_of_queue hqueue ms).1 _ hg
    rcases gave_file hgave with ⟨hitem, -⟩ | ⟨f, m, given, hwas, hwrote, hmem, -⟩
    · exact Or.inl hitem
    obtain ⟨g', hrewritten, -, honly⟩ := hwrote.rewrites
    obtain rfl := honly g hmem
    obtain ⟨hsame, htype⟩ := hrewritten.name_eq
    rcases read_of_was hs hwas with ⟨-, hscript⟩ | ⟨l, c, hc, rfl⟩
    · rw [isScript, ← hsame] at hscript
      exact absurd (hscript.symm.trans hname) (by simp)
    · refine Or.inr ⟨l, c, hc, hsame, htype, fun hplain => ?_⟩
      rw [hsame] at hplain
      rw [hrewritten.eq_self hnone hwas hplain]
      rfl
  · obtain ⟨i, hgave⟩ := (gave_of_queue hqueue ms).1 _ hd
    rcases gave_problem hgave with hitem | ⟨f, m, hwas, rfl, hproblem⟩
    · exact Or.inl hitem
    rcases read_of_was hs hwas with ⟨-, hscript⟩ | ⟨l, c, hc, rfl⟩
    · exact absurd (hscript.symm.trans hname) (by simp)
    · exact Or.inr ⟨l, c, hc, rfl, fun hinert => not_problem_of_inert hnone hwas hinert hproblem⟩

/-! ## A text of a package -/

namespace Memo

/-- A script that imports a text of a package. -/
def page : File := { name := "index.js", content := asking }

/-- The CDN's answer for the text. -/
def served : Response := ⟨200, "https://cdn.test/a@1.0.0/x.txt", letter, some "text/plain"⟩

/-- The text as it is given. -/
def memo : File := Site.fileOf ⟨"a", "1.0.0", "x.txt"⟩ served.fetched.file

/-- What is told of it: it is read as a script. -/
def complaint : Diagnostic := syntaxReport ⟨0, ⟨0, 0⟩⟩

/-- The state in which the project is given. -/
def untouched : Run := begin { map := {}, cache := .empty "https://cdn.test/" } [.file page] false

/-- The state in which its script has been read. -/
def entered : Run :=
  (untouched.step (.produce 0)).become 1 (.rewriting (.start (untouched.step (.produce 0)).map page asked) .project)

/-- The moves until the text is there. -/
def fetching : List Build.Move := [.resolve 1 0, .answer 0 (.ok served), .resolve 1 0, .produce 1, .produce 1, .produce 0,
  .produce 2, .produce 2]

/-- The state in which it has been read. -/
def scanned : Run :=
  (entered.play fetching).takeScript 2 memo (.ofPackage ⟨"a", "1.0.0", "x.txt"⟩) (.error ⟨0, ⟨0, 0⟩⟩)

/-- The moves until the text is taken. -/
def reading : List Build.Move := ([.produce 0, .produce 1] ++ fetching ++ [.produce 2]) ++ List.replicate 5 .take

theorem step_entered : (untouched.step (.produce 0)).step (.produce 1) = entered := by
  have hscript : (untouched.step (.produce 0)).producers[1]? = some (.script page .project) := rfl
  exact produce_parse hscript imports_asking

theorem play_fetching : untouched.play ([.produce 0, .produce 1] ++ fetching ++ [.produce 2]) = scanned := by
  have hmemo : (entered.play fetching).producers[2]? = some (.script memo (.ofPackage ⟨"a", "1.0.0", "x.txt"⟩)) := rfl
  have hscanned : (entered.play fetching).step (.produce 2) = scanned := by
    rw [produce_script hmemo]
    exact congrArg ((entered.play fetching).takeScript 2 memo (.ofPackage ⟨"a", "1.0.0", "x.txt"⟩)) imports_letter
  rw [play_append, play_opening, step_entered, play_cons, hscanned]
  rfl

theorem mem_taken_reading :
    .file memo ∈ untouched.taken reading ∧ .diagnostic memo.name complaint ∈ untouched.taken reading := by
  have htaken : scanned.taken (List.replicate 5 .take) =
      [.file { page with content := "import './node_modules/a@1.0.0/x.txt'" }, .file memo, .diagnostic memo.name complaint] := by
    decide +kernel
  rw [reading, taken_append, play_fetching, htaken]
  exact ⟨List.mem_append_right _ (by simp), List.mem_append_right _ (by simp)⟩

/-- Nothing but the text was served. -/
theorem eq_served {l : Location} {c : Cdn.File} (h : (untouched.play reading).cache.Answers l .file (.ok c)) :
    c = served.fetched.file := by
  have hsound : (untouched.play reading).Sound := (sound_begin (.empty _) rfl List.nodup_nil _ _).play reading
  have hcache : (untouched.play reading).cache = scanned.cache := by
    rw [reading, play_append, play_fetching]
    rfl
  have hdownloads : ∀ d ∈ scanned.cache.downloads, d.outcome = some (.ok served.fetched) := by decide +kernel
  have houtcome : ∀ n r, (untouched.play reading).cache.outcome? n = some r → r = .ok served.fetched := by
    intro n r hn
    rw [hcache] at hn
    obtain ⟨d, hd, ho⟩ := Option.bind_eq_some_iff.1 hn
    exact Option.some.inj (ho.symm.trans (hdownloads d (List.mem_of_getElem? hd)))
  generalize hr : (Except.ok c : Except Failure (Goal.Result .file)) = x at h
  cases h with
  | @served m y hm hy =>
    obtain rfl : y = .ok served.fetched := by
      rcases hy with ⟨n, d, hd, -, ho⟩ | ⟨f, hf, rfl⟩
      · exact houtcome n y (by simp [Cache.outcome?, hd, ho])
      · obtain ⟨-, n, hn⟩ := hsound.cache.known _ f hf
        exact houtcome n _ hn
    exact Except.ok.inj hr
  | immediate _ _ ha => exact absurd ha (by simp [Goal.immediate?])

end Memo

open Memo in
/-- A text of a package is given as it was served, although it is read as a script and a diagnostic tells that it is none. -/
theorem assets_kept_memo : .file memo ∈ untouched.taken reading ∧ .diagnostic memo.name complaint ∈ untouched.taken reading ∧
    ∃ l c, (untouched.play reading).cache.Answers l .file (.ok c) ∧ memo.name = fileName l ∧
      memo.contentType = some c.contentType ∧ memo.content = c.content := by
  have hfresh : Between {} "https://cdn.test/" { map := {}, cache := .empty "https://cdn.test/" } := .fresh
  obtain ⟨hfile, hdiagnostic⟩ := mem_taken_reading
  have hname : isScript memo = false ∧ memo.name ≠ page.name := by decide
  refine ⟨hfile, hdiagnostic, ?_⟩
  have hopened : begin { map := {}, cache := .empty "https://cdn.test/" } [.file page] false = untouched := rfl
  have hkept := (assets_kept hfresh [.file page] false reading).1
  rw [hopened] at hkept
  rcases hkept memo hfile hname.1 with hmem | ⟨l, c, hc, hsame, htype, hcontent⟩
  · exact absurd (congrArg Output.name (List.mem_singleton.1 hmem)) hname.2
  · refine ⟨l, c, hc, hsame, htype, hcontent (Or.inr ⟨⟨0, ⟨0, 0⟩⟩, ?_⟩)⟩
    rw [eq_served hc]
    exact imports_letter

end Run

end BareImports.Build
