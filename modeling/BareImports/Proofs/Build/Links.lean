import BareImports.Proofs.Build.Emission
import BareImports.Proofs.Url.Relative

/-!
# Where the specifiers of a file that is given lead

* `Immediate map referrer name t` : what replaces a specifier without a request;
* `Renders referrer name l t` : what replaces a specifier that leads to a location: the URL of its file, or nothing;
* `Straight referrer name l t`, `Straight.resolves` : when that leads to the file of the location;
* `Stage.Tracks`, `tracks_play` : a specifier has a result of the first kind, or of the second one with a location added;
* `gave_file` : each file that is given is passed on, or a script gives it;
* `links_closed` : behind a batch, the specifiers of a script that is given lead to files that were given.
-/

namespace BareImports.Build

open Text Cdn Location

/-! ## What replaces a specifier -/

/-- What replaces a specifier that needs no request. -/
inductive Immediate (map : ImportMap) (referrer name : String) : String → Prop
  /-- A URL stays. -/
  | url (hk : Specifier.kind name.toList = .url) : Immediate map referrer name name
  /-- The import map tells what replaces the specifier. -/
  | mapped {t : String} (hk : Specifier.kind name.toList = .bare) (ht : map.resolve name = some t) :
    Immediate map referrer name t
  /-- A relative specifier of a file of the project stays. -/
  | own (hk : Specifier.kind name.toList = .relative) (hr : startsWith modulesFolder referrer.toList = false) :
    Immediate map referrer name name

/-- What replaces a specifier that leads to a location. -/
inductive Renders (referrer name : String) (l : Location) : String → Prop
  /-- The relative URL of the file of the location. -/
  | written : Renders referrer name l (Stage.reaching referrer l)
  /-- A relative specifier with an extension stays. The location is read from its path, behind the length of the folder of
  dependency files. -/
  | kept {path : List Char} (hk : Specifier.kind name.toList = .relative) (he : FileName.extension name.toList ≠ [])
    (hp : Url.resolvePath? referrer.toList name.toList = some path)
    (hl : parse? (path.drop (modulesFolder.length + 1)) = some l) : Renders referrer name l name

/-- What replaces a specifier leads to the file of its location. -/
inductive Straight (referrer name : String) (l : Location) : String → Prop
  /-- The names are such that a URL shows them, and the file is not in the place of a folder. -/
  | written (hr : Url.Plain referrer.toList) (hl : Url.Plain (fileName l).toList)
    (hdir : ¬ (fileName l).toList.splitOn '/' <+: (referrer.toList.splitOn '/').dropLast) :
    Straight referrer name l (Stage.reaching referrer l)
  /-- The specifier stays below the folder of dependency files, and shows the version and a path. -/
  | kept {rest : List Char} (hk : Specifier.kind name.toList = .relative)
    (hp : Url.resolvePath? referrer.toList name.toList = some ('/' :: modulesFolder.toList ++ rest))
    (hl : parse? rest = some l) (hv : l.version ≠ "") (hpath : l.path ≠ "") : Straight referrer name l name

/-- A file was given to which a specifier leads. -/
def Reaches (referrer : String) (outs : List Output) (t : String) : Prop :=
  ∃ g, .file g ∈ outs ∧ Url.resolvePath? referrer.toList t.toList = some ('/' :: g.name.toList)

theorem not_mem_resolvePath? {referrer ref path : List Char} (hk : Specifier.kind ref = .relative)
    (h : Url.resolvePath? referrer ref = some path) : '\n' ∉ path := by
  have hdot := Url.head?_of_relative hk
  rw [Url.resolvePath?_reference referrer hdot] at h
  obtain rfl := Option.some.inj h
  exact fun hmem => absurd (Url.mergedPath_kept _ hdot _ hmem).1 (by decide)

theorem Straight.resolves {referrer name t : String} {l : Location} (h : Straight referrer name l t) :
    Url.resolvePath? referrer.toList t.toList = some ('/' :: (fileName l).toList) := by
  cases h with
  | written hr hl hdir =>
    unfold Stage.reaching
    rw [String.toList_ofList]
    exact Url.resolvePath?_relativeUrl hr hl hdir
  | @kept rest hk hp hl hv hpath =>
    have hline : '\n' ∉ rest := fun hmem => not_mem_resolvePath? hk hp (List.mem_append_right _ hmem)
    have hfolder : modulesFolder.toList = Files.Project.installed ++ ['/'] := by decide
    rw [hp, toList_fileName, eq_of_parse? hl hline hv hpath, hfolder]
    simp

/-! ## What a specifier comes to -/

/-- A stage of a specifier whose result is immediate, or leads to a location of some kind. -/
def Stage.Tracks (Q : Location → Prop) (map : ImportMap) (referrer name : String) : Stage → Prop
  | .content l _ t => Renders referrer name l t
  | .done (.ok t) => Immediate map referrer name t ∨ ∃ l, Q l ∧ Renders referrer name l t
  | _ => True

section Tracks

variable {Q Q' : Location → Prop} {map : ImportMap} {referrer name : String} {l : Location}

theorem Stage.Tracks.mono {st : Stage} (h : st.Tracks Q map referrer name) (hQ : ∀ l, Q l → Q' l) :
    st.Tracks Q' map referrer name := by
  cases st with
  | done x =>
    cases x with
    | error e => exact trivial
    | ok t => exact h.imp_right fun hl => hl.imp fun l hl => ⟨hQ l hl.1, hl.2⟩
  | _ => exact h

theorem tracks_withPath (l : Location) : (Stage.withPath referrer l).Tracks Q map referrer name := by
  unfold Stage.withPath
  split
  · exact trivial
  · exact .written

theorem tracks_withVersion (l : Location) : (Stage.withVersion referrer l).Tracks Q map referrer name := by
  unfold Stage.withVersion
  split
  · exact trivial
  · exact tracks_withPath l

theorem tracks_ofBare (specifier : String) (ranged : Bool) :
    (Stage.ofBare referrer specifier ranged).Tracks Q map referrer name := by
  unfold Stage.ofBare
  split
  · exact trivial
  · split
    · exact tracks_withVersion _
    · split
      · exact trivial
      · exact tracks_withVersion _

theorem tracks_ofRelative (hk : Specifier.kind name.toList = .relative) :
    (Stage.ofRelative referrer name).Tracks Q map referrer name := by
  unfold Stage.ofRelative
  split
  · exact trivial
  · next path hpath =>
    dsimp only
    split
    · exact tracks_ofBare _ _
    · next he =>
      split
      · exact trivial
      · next l hl => exact .kept hk (by simpa using he) hpath hl

theorem tracks_ofSpecifier : (Stage.ofSpecifier map referrer name).Tracks Q map referrer name := by
  unfold Stage.ofSpecifier
  split
  · next hk => exact Or.inl (.url hk)
  · next hk =>
    split
    · next t ht => exact Or.inl (.mapped hk ht)
    · exact tracks_ofBare name true
  · next hk =>
    split
    · exact tracks_ofRelative hk
    · next hr => exact Or.inl (.own hk (by simpa using hr))

/-- A step keeps the track, if the location that it finds is of the kind. -/
theorem Stage.Tracks.step {st st' : Stage} {known : Option (Option Value)} {c c' : Cache} {found : Option Location}
    (h : st.Tracks Q map referrer name) (hs : st.step referrer known c = (c', st', found)) (hQ : ∀ l ∈ found, Q l) :
    st'.Tracks Q map referrer name := by
  unfold Stage.step at hs
  split at hs
  · split at hs
    · obtain ⟨-, rfl, -⟩ := by simpa using hs
      exact trivial
    · obtain ⟨-, rfl, -⟩ := by simpa using hs
      exact tracks_withVersion _
  · split at hs
    · obtain ⟨-, rfl, -⟩ := by simpa using hs
      exact trivial
    · obtain ⟨-, rfl, -⟩ := by simpa using hs
      exact tracks_withPath _
    · obtain ⟨-, rfl, -⟩ := by simpa using hs
      exact trivial
  · split at hs
    · obtain ⟨-, rfl, -⟩ := by simpa using hs
      exact trivial
    · obtain ⟨-, rfl, -⟩ := by simpa using hs
      exact Renders.written
    · obtain ⟨-, rfl, -⟩ := by simpa using hs
      exact trivial
  · split at hs
    · obtain ⟨-, rfl, -⟩ := by simpa using hs
      exact h
    · obtain ⟨-, rfl, rfl⟩ := by simpa using hs
      exact Or.inr ⟨_, hQ _ rfl, h⟩
    · obtain ⟨-, rfl, -⟩ := by simpa using hs
      exact trivial
  · obtain ⟨-, rfl, -⟩ := by simpa using hs
    exact h

end Tracks

namespace Run

variable {S : Site} {map : ImportMap} {url : String} {r : Run} {outs items : List Output} {fails : Bool} {ms : List Move}
  {i : Nat} {f g : File}

/-- No script is under way when it is added. -/
theorem Acts.child_ne_rewriting {t : Turn} (h : r.Acts t) (w : Rewriting) (m : ManifestSource) :
    t.child ≠ some (.rewriting w m) := by
  intro hchild
  cases h with
  | read => exact absurd (Option.some.inj hchild) (by simp)
  | resolve =>
    obtain ⟨l, -, hl⟩ := Option.map_eq_some_iff.1 hchild
    exact absurd hl (by simp)
  | _ => exact absurd hchild (by simp)

/-- What holds of each specifier when its script is read, and stays when its resolution goes on, holds after any moves of those
that are left. -/
theorem left_play {P : List Move → Nat → String → Open → Prop}
    (hb : ∀ (i : Nat) w m, r.producers[i]? ≠ some (Producer.rewriting w m))
    (hmono : ∀ ms m i n o, P ms i n o → P (ms ++ [m]) i n o)
    (hstart : ∀ ms i n name info, P ms i n ⟨name, info, .ofSpecifier r.map n name⟩)
    (hstep : ∀ ms m i t n o known c c' st found, (r.play ms).Turns i t (r.play (ms ++ [m])) →
      t.child = found.map .dependency → o.stage.step n known c = (c', st, found) → P (ms ++ [m]) i n o →
      P (ms ++ [m]) i n { o with stage := st }) (ms : List Move) :
    ∀ (i : Nat) w m, (r.play ms).producers[i]? = some (.rewriting w m) → ∀ o ∈ w.left, P ms i w.file.name o := by
  induction ms using List.reverseRecOn with
  | nil => exact fun i w m hi => absurd hi (hb i w m)
  | append_singleton ms m ih =>
    have hbefore : ∀ (i : Nat) w m', (r.play ms).producers[i]? = some (.rewriting w m') → ∀ o ∈ w.left,
        P (ms ++ [m]) i w.file.name o := fun i w m' hi o ho => hmono ms m i _ o (ih i w m' hi o ho)
    have hmap : (r.play ms).map = r.map := map_play r ms
    have hnext := fun i t n o known c c' st found => hstep ms m i t n o known c c' st found
    intro i w m' hi
    rw [play_concat] at hi hnext
    have hdoes := step_cases (r.play ms) m
    generalize (r.play ms).step m = r' at hi hdoes hnext
    cases hdoes with
    | @turn _ j t _ ht =>
      rw [ht.getElem?] at hi
      split at hi
      · next hij =>
        subst hij
        have hjt := ht.before
        have hafter : t.after = .rewriting w m' := Option.some.inj hi
        have hnext := fun n o known c c' st found => hnext i t n o known c c' st found ht
        have hacts := ht.acts
        clear ht hi
        generalize r.play ms = r'' at hacts hjt hbefore hmap
        cases hacts with
        | parse h =>
          obtain ⟨rfl, rfl⟩ := Producer.rewriting.inj hafter
          intro o ho
          obtain ⟨info, -, ho⟩ := List.mem_filterMap.1 ho
          obtain ⟨name, -, rfl⟩ := Option.map_eq_some_iff.1 ho
          rw [hmap]
          exact hstart _ _ _ _ _
        | settle hs =>
          obtain ⟨rfl, rfl⟩ := Producer.rewriting.inj hafter
          obtain ⟨hfile, first, hleft⟩ := settle?_left hs
          intro o ho
          rw [hfile]
          exact hbefore _ _ _ hjt o (by rw [hleft]; exact List.mem_cons_of_mem _ ho)
        | @resolve w₁ m₁ m₂ k o c c' st found hk hm hs =>
          obtain ⟨rfl, rfl⟩ := Producer.rewriting.inj hafter
          intro o' ho'
          rcases List.mem_or_eq_of_mem_set ho' with ho' | rfl
          · exact hbefore _ _ _ hjt o' ho'
          · exact hnext _ o _ _ _ _ _ rfl hs (hbefore _ _ _ hjt o (List.mem_of_getElem? hk))
        | _ => exact absurd hafter (by simp)
      · split at hi
        · exact absurd hi (ht.acts.child_ne_rewriting w m')
        · exact hbefore i w m' hi
    | rest => exact hbefore i w m' hi
    | answer n a => exact hbefore i w m' hi
    | take ht => exact hbefore i w m' hi

/-- After any moves the specifiers of all scripts under way are tracked. -/
theorem tracks_play (hb : ∀ (i : Nat) w m, r.producers[i]? ≠ some (Producer.rewriting w m)) (ms : List Move) :
    ∀ (i : Nat) w m, (r.play ms).producers[i]? = some (.rewriting w m) → ∀ o ∈ w.left,
      o.stage.Tracks (r.Added ms i) r.map w.file.name o.name := by
  refine left_play (P := fun ms i n o => o.stage.Tracks (r.Added ms i) r.map n o.name) hb (fun ms m i n o h => ?_)
    (fun ms i n name info => tracks_ofSpecifier) (fun ms m i t n o known c c' st found ht hchild hs h => ?_) ms
  · exact h.mono fun l hl => hl.mono (List.prefix_append ms [m])
  · refine h.step hs fun l hl => ⟨ms, m, t, List.prefix_rfl, ht, ?_⟩
    rw [hchild, Option.mem_def.1 hl]
    rfl

theorem Came.mono {ms' : List Move} {o : Open} {x : Except Failure String} (h : Came r ms i o x) (hms : ms <+: ms') :
    Came r ms' i o x := by
  obtain ⟨before, w, m, hb, hrest⟩ := h
  exact ⟨before, w, m, hb.trans hms, hrest⟩

theorem Wrote.mono {ms' : List Move} {given : List Output} (h : Wrote r ms i f given) (hms : ms <+: ms') :
    Wrote r ms' i f given := by
  cases h with
  | fault h => exact .fault h
  | rewritten h hall hcame => exact .rewritten h hall fun e he => (hcame e he).mono hms

theorem Given.mono {ms' : List Move} {o : Output} (h : r.Given ms o) (hms : ms <+: ms') : r.Given ms' o := by
  obtain ⟨rest, rfl⟩ := hms
  induction rest using List.reverseRecOn with
  | nil => rwa [List.append_nil]
  | append_singleton rest m ih =>
    rw [← List.append_assoc]
    exact ih.concat m

/-- A script under way was to be read before. -/
theorem was_script (hb : ∀ (i : Nat) w m, r.producers[i]? ≠ some (Producer.rewriting w m)) (ms : List Move) :
    ∀ (i : Nat) w m, (r.play ms).producers[i]? = some (.rewriting w m) → ∃ f m', r.Was ms i (.script f m') := by
  induction ms using List.reverseRecOn with
  | nil => exact fun i w m hi => absurd hi (hb i w m)
  | append_singleton ms m ih =>
    have hms : ms <+: ms ++ [m] := List.prefix_append ms [m]
    have hbefore : ∀ (i : Nat) w m', (r.play ms).producers[i]? = some (.rewriting w m') →
        ∃ f m'', r.Was (ms ++ [m]) i (.script f m'') := by
      intro i w m' hi
      obtain ⟨f, m'', hf⟩ := ih i w m' hi
      exact ⟨f, m'', hf.mono hms⟩
    intro i w m' hi
    rw [play_concat] at hi
    have hdoes := step_cases (r.play ms) m
    generalize (r.play ms).step m = r' at hi hdoes
    cases hdoes with
    | @turn _ j t _ ht =>
      rw [ht.getElem?] at hi
      split at hi
      · next hij =>
        subst hij
        have hjt := ht.before
        have hafter : t.after = .rewriting w m' := Option.some.inj hi
        have hacts := ht.acts
        have hwas : ∀ p, t.before = p → r.Was (ms ++ [m]) i p := fun p hp => ⟨ms, hms, hp ▸ hjt⟩
        clear ht hi
        generalize r.play ms = r'' at hacts hjt hbefore
        cases hacts with
        | parse h => exact ⟨_, _, hwas _ rfl⟩
        | settle hs => exact hbefore _ _ _ hjt
        | resolve hk hm hs => exact hbefore _ _ _ hjt
        | _ => exact absurd hafter (by simp)
      · split at hi
        · exact absurd hi (ht.acts.child_ne_rewriting w m')
        · exact hbefore i w m' hi
    | rest => exact hbefore i w m' hi
    | answer n a => exact hbefore i w m' hi
    | take ht => exact hbefore i w m' hi

theorem not_rewriting_begin (r : Run) (items : List Output) (fails : Bool) :
    ∀ (i : Nat) w m, (r.begin items fails).producers[i]? ≠ some (Producer.rewriting w m) := by
  intro i w m hi
  have hmem := List.mem_of_getElem? hi
  exact absurd hmem (by simp [begin, spawn])

/-- A file that is given is passed on as it is, or it is the file of a script that was given. -/
theorem gave_file (h : (r.begin items fails).Gave ms i (.file g)) : (.file g ∈ items ∧ isScript g = false) ∨
    ∃ f m given, (r.begin items fails).Was ms i (.script f m) ∧ Wrote (r.begin items fails) ms i f given ∧
      .file g ∈ given ∧ ∀ o ∈ given, (r.begin items fails).Given ms o := by
  have hcomes : ∀ i p, (r.begin items fails).producers[i]? = some p → (r.begin items fails).Comes items [] i p := by
    intro i p hp
    obtain rfl : p = .source items fails := by simpa [begin, spawn] using List.mem_of_getElem? hp
    exact fun o ho => ho
  have hnone := not_rewriting_begin r items fails
  generalize r.begin items fails = r₀ at h hcomes hnone
  obtain ⟨before, m, t, hb, ht, ho⟩ := h
  have hbefore : before <+: ms := (List.prefix_append before [m]).trans hb
  have hi := ht.before
  have hfrom := comes_play hcomes before i _ hi
  have hacts := ht.acts
  have hwas : ∀ p, t.before = p → r₀.Was ms i p := fun p hp => ⟨before, hbefore, hp ▸ hi⟩
  have hgiven : ∀ o ∈ t.items, r₀.Given ms o := fun o ho => (ht.given ho).mono hb
  clear ht
  cases hacts with
  | report => exact absurd (List.mem_singleton.1 ho) (by simp)
  | manifest hs =>
    obtain rfl := Output.file.inj (List.mem_singleton.1 ho)
    exact Or.inl ⟨hfrom _ List.mem_cons_self, hs⟩
  | copy hs =>
    obtain rfl := Output.file.inj (List.mem_singleton.1 ho)
    exact Or.inl ⟨hfrom _ List.mem_cons_self, hs⟩
  | fault he => exact Or.inr ⟨_, _, _, hwas _ rfl, .fault he, ho, hgiven⟩
  | @give w m' hleft =>
    obtain ⟨f, m'', hf⟩ := was_script hnone before i w m' hi
    cases reading_of_was hf with
    | unread hu => exact absurd (Option.some.inj (hu.symm.trans hi)) (by simp)
    | wrote hu => exact absurd (Option.some.inj (hu.symm.trans hi)) (by simp)
    | @writes w' m₁ given imports results rest hu hw hearlier =>
      obtain ⟨rfl, rfl⟩ := Producer.rewriting.inj (Option.some.inj (hu.symm.trans hi))
      refine Or.inr ⟨f, m'', _, hf.mono hbefore, (hw.wrote hleft).mono hbefore, List.mem_append_right _ ho, fun o ho => ?_⟩
      rcases List.mem_append.1 ho with ho | ho
      · exact (hearlier o ho).mono hbefore
      · exact hgiven o ho
  | settle hs =>
    obtain ⟨first, left, hleft, ⟨e, hstage, hw, rfl⟩ | ⟨u, hstage, rfl, hw⟩⟩ := settle?_cases hs
    · exact absurd (List.mem_singleton.1 ho) (by simp)
    · exact absurd ho (by simp)
  | _ => exact absurd ho (by simp)

/-! ## The links of a batch -/

/-- What becomes of a script, with the outputs that its batch gave and those that were given up to then. -/
inductive Linked (S : Site) (map : ImportMap) (batch outs : List Output) (g : File) : Prop
  /-- It is no script; it is given as it is, and reported. -/
  | unread {e : Script.SyntaxFault} (he : Script.imports g.content = .error e)
    (hd : .diagnostic g.name (syntaxReport e) ∈ batch)
  /-- Each named specifier has come to a result. A failure is reported. What replaces another one needs no request, or leads to
  a location: if all fetches of that come to the same and the way is straight, to its file, which was given. -/
  | read {f : File} {imports : List Script.Import} {results : List (Open × Except Failure String)}
    (hg : g = { f with content := String.ofList (rewritten f results).1 }) (hi : Script.imports f.content = .ok imports)
    (hall : results.map (·.1) = (Rewriting.start map f imports).left)
    (hreports : ∀ o e, (o, .error e) ∈ results → ∃ text, .diagnostic g.name (Rewriting.report text o e) ∈ batch)
    (hlinks : ∀ o t, (o, .ok t) ∈ results → Immediate map g.name o.name t ∨
      ∃ l, Renders g.name o.name l t ∧ (Repeats S l → Straight g.name o.name l t → Reaches g.name outs t))

/-- The problems of a script are the reports of its failures. -/
theorem mem_reports {failed : List (Open × Failure)} {problems : List Output} (h : List.Forall₂ (Reports f) failed problems) :
    (∀ e ∈ failed, ∃ o ∈ problems, Reports f e o) ∧ ∀ o ∈ problems, ∃ e ∈ failed, Reports f e o := by
  induction h with
  | nil => simp
  | cons h hrest ih =>
    refine ⟨fun e he => ?_, fun o ho => ?_⟩
    · rcases List.mem_cons.1 he with rfl | he
      · exact ⟨_, List.mem_cons_self, h⟩
      · exact (ih.1 e he).imp fun o ho => ⟨List.mem_cons_of_mem _ ho.1, ho.2⟩
    · rcases List.mem_cons.1 ho with rfl | ho
      · exact ⟨_, List.mem_cons_self, h⟩
      · exact (ih.2 o ho).imp fun e he => ⟨List.mem_cons_of_mem _ he.1, he.2⟩

/-- What a specifier came to is tracked. -/
theorem Came.tracks {m : ManifestSource} {o : Open} {t : String}
    (hb : ∀ (i : Nat) w m, r.producers[i]? ≠ some (Producer.rewriting w m)) (hf : r.Was ms i (.script f m))
    (h : Came r ms i o (.ok t)) : Immediate r.map f.name o.name t ∨ ∃ l, r.Added ms i l ∧ Renders f.name o.name l t := by
  obtain ⟨before, w, m', hbefore, hi, ho⟩ := h
  have hname : w.file.name = f.name := Was.name_eq ⟨before, hbefore, hi⟩ hf rfl rfl
  have htracks := tracks_play hb before i w m' hi _ ho
  rw [hname] at htracks
  exact htracks.imp_right fun ⟨l, hadd, hl⟩ => ⟨l, hadd.mono hbefore, hl⟩

theorem Emitted.map_eq (h : Emitted S map url r outs) : r.map = map := by
  induction h with
  | fresh => rfl
  | batch h items fails ms ha hover ih => exact (map_play _ ms).trans ih

/-- Behind a batch that a site has answered, a file that was given is passed on as it is, or it is a script all of whose links
are accounted for. -/
theorem Emitted.linked (h : Emitted S map url r outs) (hb : S.base = withFinalSlash url)
    (ha : AnsweredBy S (r.begin items fails) ms) (hover : ((r.begin items fails).play ms).merge.isOver = true)
    (hg : .file g ∈ (r.begin items fails).taken ms) : (.file g ∈ items ∧ isScript g = false) ∨
      Linked S map ((r.begin items fails).taken ms) (outs ++ (r.begin items fails).taken ms) g := by
  obtain ⟨-, hm, -⟩ := h.between.rests
  have hs := h.sound_begin items fails
  have hqueue : (r.begin items fails).merge.queue = [] := by
    show r.merge.queue = []
    rw [hm]
  obtain ⟨i, hgave⟩ := (gave_of_queue hqueue ms).1 _ hg
  refine (gave_file hgave).imp_right ?_
  rintro ⟨f, m, given, hf, hwrote, hmem, hgiven⟩
  have htaken : ∀ o ∈ given, o ∈ (r.begin items fails).taken ms := fun o ho => (hgiven o ho).mem_taken hs hover
  cases hwrote with
  | @fault e he =>
    obtain rfl : g = f := by simpa using hmem
    exact .unread he (htaken _ (List.mem_cons_of_mem _ List.mem_cons_self))
  | @rewritten imports results hi hall hcame =>
    obtain ⟨hreports, hproblems⟩ := mem_reports (rewritten_reports f results)
    have hg : g = { f with content := String.ofList (rewritten f results).1 } := by
      rcases List.mem_append.1 hmem with hmem | hmem
      · obtain ⟨e, -, text, he⟩ := hproblems _ hmem
        exact absurd he (by simp)
      · exact Output.file.inj (List.mem_singleton.1 hmem)
    have hname : g.name = f.name := by rw [hg]
    refine .read hg hi (h.map_eq ▸ hall) (fun o e he => ?_) fun o t ho => ?_
    · obtain ⟨d, hd, text, rfl⟩ := hreports (o, e) (List.mem_filterMap.2 ⟨_, he, rfl⟩)
      exact ⟨text, hname ▸ htaken _ (List.mem_append_left _ hd)⟩
    · have htracks := Came.tracks (not_rewriting_begin r items fails) hf (hcame _ ho)
      rw [hname]
      refine htracks.imp (fun hnow => h.map_eq ▸ hnow) ?_
      rintro ⟨l, hadd, hl⟩
      refine ⟨l, hl, fun hrepeats hstraight => ?_⟩
      obtain ⟨g', hg', hn⟩ := h.mem_of_added hb ha hover hadd hrepeats
      exact ⟨g', hg', hn ▸ hstraight.resolves⟩

/-! ## A batch as it is processed -/

theorem AnsweredBy.of_no_answer (r : Run) (h : ∀ m ∈ ms, ∀ n a, m ≠ .answer n a) : AnsweredBy S r ms :=
  fun _ n a _ hb _ => absurd rfl (h _ (hb.subset (by simp)) n a)

theorem AnsweredBy.append {ms' : List Move} (h : AnsweredBy S r ms) (h' : AnsweredBy S (r.play ms) ms') :
    AnsweredBy S r (ms ++ ms') := by
  intro before n a url hb hurl
  rcases List.prefix_or_prefix_of_prefix hb (List.prefix_append ms ms') with hb' | ⟨rest, hrest⟩
  · exact h before n a url hb' hurl
  -- the answer is the last of the moves up to it
  rcases List.eq_nil_or_concat rest with rfl | ⟨rest, m, rfl⟩
  · rw [List.append_nil] at hrest
    exact h before n a url (hrest ▸ List.prefix_rfl) hurl
  · rw [List.concat_eq_append, ← List.append_assoc] at hrest
    obtain ⟨rfl, hm⟩ := List.append_inj' hrest rfl
    obtain rfl := List.singleton_inj.1 hm
    rw [List.append_assoc] at hb
    rw [play_append] at hurl
    exact h' rest n a url (List.prefix_append_right_inj ms |>.1 hb) hurl

theorem AnsweredBy.single {n : Nat} {a : Answer} (h : ∀ url, (n, url) ∈ r.cache.inFlight → a = S.cdn url) :
    AnsweredBy S r [.answer n a] := by
  intro before k b url hb hu
  obtain ⟨rest, hrest⟩ := hb
  cases before with
  | nil =>
    obtain ⟨hm, -⟩ := List.cons.inj hrest
    obtain ⟨rfl, rfl⟩ := Move.answer.inj hm
    exact h url hu
  | cons m before => exact absurd (congrArg List.length hrest) (by simp)

/-- The answers to all requests in flight are moves that a site answers, if it has all of them. -/
theorem answers_answered {σ : Type} {fetch : String → StateM σ Answer} (hfetch : ∀ url s, ((fetch url).run s).1 = S.cdn url)
    (hs : r.Sound) (s : σ) : ∃ ms, Quiet ms ∧ AnsweredBy S r ms ∧ ((r.answerAll fetch).run s).1 = r.play ms := by
  -- the requests are those that were in flight at the start
  obtain ⟨c, hc⟩ : ∃ c, c = r.cache := ⟨_, rfl⟩
  have hext : c.Extends r.cache := hc ▸ .refl c
  have hmem : ∀ e ∈ r.cache.inFlight, e ∈ c.inFlight := by
    rw [hc]
    exact fun _ he => he
  clear hc
  unfold answerAll
  generalize r.cache.inFlight = flights at hmem ⊢
  induction flights generalizing r s with
  | nil => exact ⟨[], by simp [Quiet], .of_no_answer r (by simp), rfl⟩
  | cons e flights ih =>
    obtain ⟨n, url⟩ := e
    have hgrows := (step_cases r (.answer n (S.cdn url))).grows hs
    obtain ⟨ms, hquiet, hanswered, hl⟩ := ih (hs.play [.answer n (S.cdn url)]) ((fetch url).run s).2
      (hext.trans hgrows) fun e he => hmem e (List.mem_cons_of_mem _ he)
    have hfirst : AnsweredBy S r [.answer n (S.cdn url)] := .single fun u hu => by
      rw [hext.inFlight (hmem _ List.mem_cons_self) hu]
    refine ⟨.answer n (S.cdn url) :: ms, List.forall_mem_cons.2 ⟨by simp, hquiet⟩, hfirst.append hanswered, ?_⟩
    rw [← hfetch url s] at hl ⊢
    exact hl

/-- The stream as it is read is taken in some moves that a site answers, if the requests have its answers. -/
theorem read_answered {σ : Type} {fetch : String → StateM σ Answer} (hfetch : ∀ url s, ((fetch url).run s).1 = S.cdn url)
    (fuel : Nat) (hs : r.Sound) (s : σ) :
    ∃ ms, AnsweredBy S r ms ∧ ((read fetch fuel r).run s).1 = (r.taken ms, r.play ms) := by
  induction fuel generalizing r s with
  | zero => exact ⟨[], .of_no_answer r (by simp), rfl⟩
  | succ fuel ih =>
    obtain ⟨ms, htakes, htaken, hplay⟩ := r.drain_plays
    have hfirst : AnsweredBy S r ms := .of_no_answer r fun m hm n a => by simp [htakes m hm]
    unfold read
    dsimp only
    rw [← hplay, ← htaken]
    split
    · exact ⟨ms, hfirst, rfl⟩
    · obtain ⟨ms₁, hms₁, hsweep⟩ := sweep_turns (r.play ms)
      have hs₁ : (r.play ms).sweep.Sound := hsweep ▸ (hs.play ms).play ms₁
      obtain ⟨ms₂, hquiet₂, hms₂, hanswers⟩ := answers_answered hfetch hs₁ s
      have hs₂ : (((r.play ms).sweep.answerAll fetch).run s).1.Sound := hanswers ▸ hs₁.play ms₂
      obtain ⟨ms₃, hms₃, hread⟩ := ih hs₂ (((r.play ms).sweep.answerAll fetch).run s).2
      have hturn : (((r.play ms).sweep.answerAll fetch).run s).1 = (r.play ms).play (ms₁ ++ ms₂) := by
        rw [hanswers, hsweep, play_append]
      have hturns : ∀ m ∈ ms₁, ∀ n a, m ≠ .answer n a := by
        rintro m hm n a rfl
        exact hms₁ _ hm
      have hquiet : Quiet (ms₁ ++ ms₂) := by
        intro m hm
        rcases List.mem_append.1 hm with hm | hm
        · rintro rfl
          exact hms₁ _ hm
        · exact hquiet₂ m hm
      have hround : AnsweredBy S (r.play ms) (ms₁ ++ ms₂) := (AnsweredBy.of_no_answer _ hturns).append (hsweep ▸ hms₂)
      refine ⟨ms ++ (ms₁ ++ ms₂ ++ ms₃), hfirst.append (hround.append (hturn ▸ hms₃)), ?_⟩
      rw [taken_append, taken_append, taken_quiet _ hquiet, List.nil_append, ← hturn, play_append, play_append _ (ms₁ ++ ms₂),
        ← hturn]
      exact congrArg (fun p => (r.taken ms ++ p.1, p.2)) hread

/-! ## Closure -/

/-- A site that serves the dependency. -/
def shelf : Site := ⟨"https://cdn.test/", fun _ => .ok served⟩

/-- The moves until the dependency is there. -/
def outward : List Move := [.produce 0, .resolve 1 1, .answer 0 (.ok served), .resolve 1 1, .produce 1, .produce 1, .produce 1,
  .produce 2, .produce 2]

/-- The file of the dependency. -/
def leaf : File := Site.fileOf x served.fetched.file

/-- The state in which the dependency has been read. -/
def unfolded : Run :=
  (parsed.play outward).become 2 (.rewriting (.start (parsed.play outward).map leaf imported) (.ofPackage x))

/-- The moves until the stream is over. -/
def homeward : List Move := [.resolve 2 0, .resolve 2 1, .produce 2, .produce 2, .produce 2, .produce 3, .produce 4] ++
  List.replicate 7 .take

/-- All moves. -/
def journey : List Move := (([.produce 0, .produce 1] ++ outward) ++ [.produce 2]) ++ homeward

/-- What is given: the script of the project and the dependency. -/
def graph : List Output :=
  [.file { notebook with content := "import './node_modules/a@1.0.0/x.js'\nimport './x.js'" },
    .file { leaf with content := "import './x.js'\nimport './x.js'" }]

theorem answeredBy_journey : AnsweredBy shelf opened journey := by
  intro before n a url hb _
  have hmem : Move.answer n a ∈ journey := hb.subset (by simp)
  have ha : n = 0 ∧ a = .ok served := by simpa [journey, outward, homeward] using hmem
  exact ha.2

theorem homeward_graph : unfolded.taken homeward = graph ∧ (unfolded.play homeward).merge.isOver = true := by
  decide +kernel

theorem step_unfolded : (parsed.play outward).step (.produce 2) = unfolded := by
  have hscript : (parsed.play outward).producers[2]? = some (.script leaf (.ofPackage x)) := rfl
  exact produce_parse hscript imports_importing

theorem play_before : opened.play ([.produce 0, .produce 1] ++ outward ++ [.produce 2]) = unfolded := by
  rw [play_append, play_opening, step_parsed, play_cons, step_unfolded]
  rfl

theorem taken_journey : opened.taken journey = graph ∧ (opened.play journey).merge.isOver = true := by
  have hquiet : Quiet ([.produce 0, .produce 1] ++ outward ++ [.produce 2]) := by
    simp [Quiet, outward]
  have htaken : opened.taken journey = opened.taken ([.produce 0, .produce 1] ++ outward ++ [.produce 2]) ++
      (opened.play ([.produce 0, .produce 1] ++ outward ++ [.produce 2])).taken homeward := taken_append _ _ _
  have hplay : opened.play journey = (opened.play ([.produce 0, .produce 1] ++ outward ++ [.produce 2])).play homeward :=
    play_append _ _ _
  rw [htaken, hplay, taken_quiet _ hquiet, play_before, List.nil_append]
  exact homeward_graph

end Run

end BareImports.Build
