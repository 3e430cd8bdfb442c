import BareImports.Proofs.Build.Play
import BareImports.Proofs.Build.Stage
import Mathlib

/-!
# What a producer still owes

* `Tells c m v` : a manifest source will come to `v`;
* `Site.gives`, `Site.wants` : what a producer will give, and the locations that it will lead to;
* `Fits c p` : a producer that will come to that;
* `Acts.fits`, `Acts.gives`, `Acts.wants` : a turn keeps it, and owes what it owed but for what it gives and begins.
-/

namespace BareImports.Build

open Text Cdn Location

/-! ## Lists -/

theorem mem_flatMap_set {α β : Type} (F : α → List β) {l : List α} {i : Nat} {a b : α} (h : l[i]? = some a)
    {found : List β} (hF : F a = found ++ F b) {y : β} :
    y ∈ l.flatMap F ↔ y ∈ found ∨ y ∈ (l.set i b).flatMap F := by
  induction l generalizing i with
  | nil => simp at h
  | cons x l ih =>
    cases i with
    | zero =>
      obtain rfl : x = a := by simpa using h
      rw [List.set_cons_zero, List.flatMap_cons, List.flatMap_cons, hF, List.mem_append, List.mem_append,
        List.mem_append, or_assoc]
    | succ i =>
      have hi := ih (by simpa using h)
      rw [List.set_cons_succ, List.flatMap_cons, List.flatMap_cons, List.mem_append, List.mem_append, hi]
      tauto

namespace Site

variable {S : Site} {map : ImportMap} {project v : Option Value} {c c' : Cache} {m m' : ManifestSource}

/-! ## Manifests -/

/-- A manifest source that will come to `v`. -/
inductive Tells (S : Site) (project : Option Value) (c : Cache) : ManifestSource → Option Value → Prop
  /-- The manifest of the project. -/
  | project : Tells S project c .project project
  /-- A manifest of a package that is to be fetched. -/
  | loading {l : Location} {w : Wait} (hl : S.Asked project l) (hw : c.Expects { l with path := Manifest.fileName } w) :
    Tells S project c (.loading w) (S.manifest l).toOption
  /-- A manifest of a package, or none. -/
  | known {l : Location} : Tells S project c (.known (S.manifest l).toOption) (S.manifest l).toOption

theorem Tells.mono (h : S.Tells project c m v) (he : c.Extends c') : S.Tells project c' m v := by
  cases h with
  | project => exact .project
  | loading hl hw => exact .loading hl (hw.mono he)
  | known => exact .known

theorem Tells.provides (h : S.Tells project c m v) : S.Provides project v := by
  cases h with
  | project => exact provides_project
  | loading hl hw => exact provides_manifest _
  | known => exact provides_manifest _

/-- What is waited for. -/
def awaited (S : Site) (c : Cache) : Wait → Except Failure Fetched
  | .turn l | .version l _ | .request l _ => S.fetch l
  | .outcome n => match c.downloads[n]? with
    | some d => S.fetch d.location
    | none => .error (.unexpected "")

theorem awaited_eq (hc : S.Faithful project c) (hS : S.Consistent project) {l : Location} (hl : S.Asked project l)
    {w : Wait} (hw : c.Expects l w) : S.awaited c w = S.fetch l := by
  cases hw with
  | turn => rfl
  | version hm _ _ => exact (hc.of_reaches hS hl hm).2.2
  | request hm _ _ => exact (hc.of_reaches hS hl hm).2.2
  | @outcome k n d hm hd hk =>
    unfold awaited
    dsimp only
    rw [hd]
    dsimp only
    rw [← (hc.of_reaches hS hl hm).2.2, fetch, fetch, hk]

/-- The manifest that a source will come to. -/
def manifestOf (S : Site) (project : Option Value) (c : Cache) : ManifestSource → Option Value
  | .project => project
  | .loading w => ((S.awaited c w).bind readManifest).toOption
  | .known m => m

theorem manifestOf_project : S.manifestOf project c .project = project := rfl

theorem manifestOf_ofPackage (l : Location) : S.manifestOf project c (.ofPackage l) = (S.manifest l).toOption := rfl

theorem Tells.manifestOf (h : S.Tells project c m v) (hc : S.Faithful project c) (hS : S.Consistent project) :
    S.manifestOf project c m = v := by
  cases h with
  | project => rfl
  | loading hl hw =>
    unfold Site.manifestOf manifest
    dsimp only
    rw [awaited_eq hc hS (asked_manifest hl) hw]
  | known => rfl

/-- A manifest source that is loaded, if it is needed. -/
theorem Tells.load (h : S.Tells project c m v) (hc : S.Faithful project c) (hS : S.Consistent project) (needed : Bool) :
    S.Faithful project (Run.load c needed m).1 ∧ c.Extends (Run.load c needed m).1 ∧
      S.Tells project (Run.load c needed m).1 (Run.load c needed m).2 v := by
  cases h with
  | project => exact ⟨hc, .refl c, .project⟩
  | known => exact ⟨hc, .refl c, .known⟩
  | @loading l w hl hw =>
    cases needed with
    | false => exact ⟨hc, .refl c, .loading hl hw⟩
    | true =>
      have hr := hc.resume (g := .manifest) hS (asked_manifest hl) hw
      rcases ho : c.resume .manifest w with ⟨c', r | w'⟩
      · obtain ⟨hc', he, hstands⟩ := ho ▸ hr
        obtain rfl : r = S.manifest l := hc'.answers hS (asked_manifest hl) (fun _ => rfl) hstands
        rw [show Run.load c true (.loading w) = (c', .known (S.manifest l).toOption) by simp [Run.load, ho]]
        exact ⟨hc', he, .known⟩
      · obtain ⟨hc', he, hstands⟩ := ho ▸ hr
        rw [show Run.load c true (.loading w) = (c', .loading w') by simp [Run.load, ho]]
        exact ⟨hc', he, .loading hl hstands⟩

/-! ## Producers -/

/-- What a producer will give. -/
def gives (S : Site) (map : ImportMap) (project : Option Value) (c : Cache) : Producer → List Output
  | .source items _ => items.flatMap (S.project map project)
  | .dependency _ => []
  | .fetching l _ => S.dependency map l
  | .script f m => S.rewrite map (S.manifestOf project c m) f
  | .rewriting w m => settleAll (S.resolve map (S.manifestOf project c m) w.file.name) w.file w.text w.left
  | .ended => []

theorem gives_source_cons (o : Output) (rest : List Output) (fails : Bool) :
    S.gives map project c (.source (o :: rest) fails) =
      S.project map project o ++ S.gives map project c (.source rest fails) :=
  List.flatMap_cons

theorem gives_script (f : File) (m : ManifestSource) :
    S.gives map project c (.script f m) = S.rewrite map (S.manifestOf project c m) f := rfl

theorem gives_rewriting (w : Rewriting) (m : ManifestSource) : S.gives map project c (.rewriting w m) =
    settleAll (S.resolve map (S.manifestOf project c m) w.file.name) w.file w.text w.left := rfl

/-- The location that an open specifier has still to find. -/
def owed (S : Site) (map : ImportMap) (v : Option Value) (referrer : String) (o : Open) : Option Location :=
  o.stage.owed (S.resolve map v referrer o.name)

/-- The locations that a producer will lead to. -/
def wants (S : Site) (map : ImportMap) (project : Option Value) (c : Cache) : Producer → List Location
  | .source items _ => items.flatMap (S.projectNeeds map project)
  | .dependency l => [l]
  | .fetching l _ => S.dependencyNeeds map l
  | .script f m => S.needs map (S.manifestOf project c m) f
  | .rewriting w m => w.left.flatMap fun o => (S.owed map (S.manifestOf project c m) w.file.name o).toList
  | .ended => []

theorem wants_script (f : File) (m : ManifestSource) :
    S.wants map project c (.script f m) = S.needs map (S.manifestOf project c m) f := rfl

theorem wants_rewriting (w : Rewriting) (m : ManifestSource) : S.wants map project c (.rewriting w m) =
    w.left.flatMap fun o => (S.owed map (S.manifestOf project c m) w.file.name o).toList := rfl

/-- No bare specifier of an output of a project has a path that begins with a slash, and a manifest can be read. -/
structure Readable (o : Output) : Prop where
  /-- No bare specifier has a path that begins with a slash. -/
  plain : ∀ f, o = .file f → Run.isScript f = true → Plain f.content
  /-- A manifest can be read. -/
  manifest : ∀ f, o = .file f → f.name = Manifest.fileName → ∀ e, Run.readProject f.content ≠ .error e

/-- A producer that will come to what it is to give. -/
inductive Fits (S : Site) (map : ImportMap) (project : Option Value) (c : Cache) : Producer → Prop
  /-- Outputs of a project that can be read. -/
  | source {items : List Output} {fails : Bool} (h : ∀ o ∈ items, Readable o) : Fits S map project c (.source items fails)
  /-- A dependency that may be asked for. -/
  | dependency {l : Location} (hs : l.Shaped) (hl : S.Asked project l) : Fits S map project c (.dependency l)
  /-- A dependency that is waited for. -/
  | fetching {l : Location} {w : Wait} (hl : S.Asked project l) (hw : c.Expects l w) :
    Fits S map project c (.fetching l w)
  /-- A script with a manifest. -/
  | script {f : File} {m : ManifestSource} {v : Option Value} (hm : S.Tells project c m v) (hp : Plain f.content) :
    Fits S map project c (.script f m)
  /-- A script of which every specifier is on its way to its result. -/
  | rewriting {w : Rewriting} {m : ManifestSource} {v : Option Value} (hm : S.Tells project c m v)
    (h : ∀ o ∈ w.left, S.Pursues project c v w.file.name o.stage (S.resolve map v w.file.name o.name)) :
    Fits S map project c (.rewriting w m)
  /-- Nothing more. -/
  | ended : Fits S map project c .ended

theorem Fits.mono {p : Producer} (h : S.Fits map project c p) (he : c.Extends c') : S.Fits map project c' p := by
  cases h with
  | source h => exact .source h
  | dependency hs hl => exact .dependency hs hl
  | fetching hl hw => exact .fetching hl (hw.mono he)
  | script hm hp => exact .script (hm.mono he) hp
  | rewriting hm h => exact .rewriting (hm.mono he) fun o ho => (h o ho).mono he
  | ended => exact .ended

/-- What a producer owes stays when the cache grows. -/
theorem Fits.same {p : Producer} (h : S.Fits map project c p) (he : c.Extends c') (hc : S.Faithful project c)
    (hc' : S.Faithful project c') (hS : S.Consistent project) :
    S.gives map project c' p = S.gives map project c p ∧ S.wants map project c' p = S.wants map project c p := by
  cases h with
  | script hm hp =>
    unfold gives wants
    dsimp only
    rw [hm.manifestOf hc hS, (hm.mono he).manifestOf hc' hS]
    exact ⟨rfl, rfl⟩
  | rewriting hm h =>
    unfold gives wants
    dsimp only
    rw [hm.manifestOf hc hS, (hm.mono he).manifestOf hc' hS]
    exact ⟨rfl, rfl⟩
  | source h => exact ⟨rfl, rfl⟩
  | dependency hs hl => exact ⟨rfl, rfl⟩
  | fetching hl hw => exact ⟨rfl, rfl⟩
  | ended => exact ⟨rfl, rfl⟩

end Site

namespace Run

open Site

variable {S : Site} {map : ImportMap} {project v : Option Value} {r : Run} {t : Turn}

/-- A run on a faithful cache, which knows the manifest of the project or none. -/
structure Ready (S : Site) (map : ImportMap) (project : Option Value) (r : Run) : Prop where
  /-- The cache is faithful. -/
  faithful : S.Faithful project r.cache
  /-- The import map. -/
  map : r.map = map
  /-- The manifest of the project, if it is known. -/
  project : ∀ m, r.project = some m → m = project

/-- The specifiers of a file have paths that do not begin with a slash. -/
theorem mem_start {f : File} {imports : List Script.Import} {o : Open} (h : o ∈ (Rewriting.start map f imports).left) :
    ∃ i ∈ imports, i.name = some o.name ∧ o.stage = .ofSpecifier map f.name o.name := by
  unfold Rewriting.start at h
  obtain ⟨i, hi, ho⟩ := List.mem_filterMap.1 h
  obtain ⟨name, hn, rfl⟩ := Option.map_eq_some_iff.1 ho
  exact ⟨i, List.mem_reverse.1 hi, hn, rfl⟩

theorem manifest?_eq (hr : r.Ready S map project) {m : ManifestSource} {c : Cache} (hm : S.Tells project c m v) :
    ∀ u, r.manifest? m = some u → u = v := by
  cases hm with
  | project => exact hr.project
  | loading hl hw => exact fun u hu => absurd hu (by simp [manifest?])
  | known => exact fun u hu => (Option.some.inj hu).symm

/-- The stage of an open specifier goes on, with the manifest that it needs. -/
theorem resolve_advances (hr : r.Ready S map project) (hS : S.Consistent project) {w : Rewriting}
    {m m' : ManifestSource} {o : Open} {c c' : Cache} {st : Stage} {l : Option Location}
    (hm : load r.cache o.stage.needsManifest m = (c, m')) (hs : o.stage.step w.file.name (r.manifest? m') c = (c', st, l))
    (ht : S.Tells project r.cache m v)
    (ho : S.Pursues project r.cache v w.file.name o.stage (S.resolve map v w.file.name o.name)) :
    S.Tells project c m' v ∧ r.cache.Extends c' ∧
      S.Advances project c v w.file.name o.stage (S.resolve map v w.file.name o.name) (c', st, l) := by
  obtain ⟨hc, he, ht'⟩ := ht.load hr.faithful hS o.stage.needsManifest
  rw [hm] at hc he ht'
  have hadv := (ho.mono he).step hc hS ht.provides (manifest?_eq hr ht')
  rw [hs] at hadv
  exact ⟨ht', he.trans hadv.grows, hadv⟩

/-- What is fetched for a dependency is what the site has for it. -/
theorem fetched_eq (hr : r.Ready S map project) (hS : S.Consistent project) {l : Location} {w : Wait} {c : Cache}
    {x : Except Failure Cdn.File} (hl : S.Asked project l) (hw : r.cache.Expects l w)
    (h : r.cache.resume .file w = (c, .done x)) : x = (S.fetch l).map (·.file) := by
  obtain ⟨hc', he, hstands⟩ := h ▸ hr.faithful.resume (g := .file) hS hl hw
  exact hc'.answers hS hl (fun _ => rfl) hstands

/-- A dependency that is missing is not on the site. -/
theorem fetch_of_missing (hr : r.Ready S map project) (hS : S.Consistent project) {l : Location} {w : Wait} {c : Cache}
    {e : Failure} (hl : S.Asked project l) (hw : r.cache.Expects l w)
    (h : r.cache.resume .file w = (c, .done (.error e))) : ∃ e', S.fetch l = .error e' := by
  have hf := fetched_eq hr hS hl hw h
  rcases hfetch : S.fetch l with e' | f
  · exact ⟨e', rfl⟩
  · rw [hfetch] at hf
    exact absurd hf (by simp [Except.map])

/-- A dependency that is found is the file on the site. -/
theorem fetch_of_found (hr : r.Ready S map project) (hS : S.Consistent project) {l : Location} {w : Wait} {c : Cache}
    {f : Cdn.File} (hl : S.Asked project l) (hw : r.cache.Expects l w)
    (h : r.cache.resume .file w = (c, .done (.ok f))) : ∃ x, S.fetch l = .ok x ∧ x.file = f := by
  have hf := fetched_eq hr hS hl hw h
  rcases hfetch : S.fetch l with e | x
  · rw [hfetch] at hf
    exact absurd hf (by simp [Except.map])
  · rw [hfetch] at hf
    exact ⟨x, rfl, (Except.ok.inj hf).symm⟩

/-- A turn keeps the cache faithful, and every producer fits. -/
theorem Acts.fits (h : r.Acts t) (hr : r.Ready S map project) (hS : S.Consistent project)
    (hP : ∀ url f, S.get url = .ok f → Plain f.file.content) (hb : S.Fits map project r.cache t.before) :
    S.Faithful project t.cache ∧ r.cache.Extends t.cache ∧ S.Fits map project t.cache t.after ∧
      ∀ p ∈ t.child, S.Fits map project t.cache p := by
  have hc := hr.faithful
  cases h with
  | finish => exact ⟨hc, .refl _, .ended, by simp⟩
  | report =>
    cases hb with
    | source h => exact ⟨hc, .refl _, .source fun o ho => h o (List.mem_cons_of_mem _ ho), by simp⟩
  | read hs =>
    cases hb with
    | source h =>
      refine ⟨hc, .refl _, .source fun o ho => h o (List.mem_cons_of_mem _ ho), fun p hp => ?_⟩
      obtain rfl := Option.some.inj hp
      exact .script .project ((h _ (by simp)).plain _ rfl hs)
  | manifest hs hn hp hm =>
    cases hb with
    | source h => exact ⟨hc, .refl _, .source fun o ho => h o (List.mem_cons_of_mem _ ho), by simp⟩
  | crash hs hn hp hm => exact ⟨hc, .refl _, .ended, by simp⟩
  | copy hs hn =>
    cases hb with
    | source h => exact ⟨hc, .refl _, .source fun o ho => h o (List.mem_cons_of_mem _ ho), by simp⟩
  | known h => exact ⟨hc, .refl _, .ended, by simp⟩
  | begin h =>
    cases hb with
    | dependency hs hl => exact ⟨hc, .refl _, .fetching hl .turn, by simp⟩
  | wait h =>
    cases hb with
    | fetching hl hw =>
      obtain ⟨hc', he, hstands⟩ := h ▸ hc.resume (g := .file) hS hl hw
      exact ⟨hc', he, .fetching hl hstands, by simp⟩
  | missing h =>
    cases hb with
    | fetching hl hw =>
      obtain ⟨hc', he, -⟩ := h ▸ hc.resume (g := .file) hS hl hw
      exact ⟨hc', he, .ended, by simp⟩
  | @found l w c f h =>
    cases hb with
    | fetching hl hw =>
      obtain ⟨hc', he, -⟩ := h ▸ hc.resume (g := .file) hS hl hw
      obtain ⟨x, hfetch, rfl⟩ := fetch_of_found hr hS hl hw h
      exact ⟨hc', he, .script (.loading hl .turn) (hP _ _ hfetch), by simp⟩
  | @parse f m imports h =>
    cases hb with
    | script hm hp =>
      refine ⟨hc, .refl _, .rewriting hm fun o ho => ?_, by simp⟩
      rw [hr.map] at ho
      obtain ⟨i, hi, hname, hstage⟩ := mem_start ho
      rw [hstage]
      exact (begins_ofSpecifier map fun hk l hl => hp imports h i hi o.name hname hk l hl).pursues
  | fault h => exact ⟨hc, .refl _, .ended, by simp⟩
  | give h => exact ⟨hc, .refl _, .ended, by simp⟩
  | @settle w w' m o h =>
    cases hb with
    | rewriting hm hopen =>
      obtain ⟨hfile, first, hleft⟩ := settle?_left h
      refine ⟨hc, .refl _, .rewriting hm fun o ho => ?_, by simp⟩
      rw [hfile]
      exact hopen o (by rw [hleft]; exact List.mem_cons_of_mem _ ho)
  | @resolve w m m' k o c c' st l hk hm hs =>
    cases hb with
    | rewriting ht hopen =>
      obtain ⟨ht', he, hadv⟩ := resolve_advances hr hS hm hs ht (hopen o (List.mem_of_getElem? hk))
      refine ⟨hadv.faithful, he, .rewriting (ht'.mono hadv.grows) fun o' ho' => ?_, fun p hp => ?_⟩
      · rcases List.mem_or_eq_of_mem_set ho' with ho' | rfl
        · exact (hopen o' ho').mono he
        · exact hadv.pursues
      · obtain ⟨k, hk, rfl⟩ := Option.map_eq_some_iff.1 hp
        obtain ⟨hshaped, hasked⟩ := hadv.found k hk
        exact .dependency hshaped hasked

/-! ## What is given -/

theorem rewrite_of_ok {f : File} {imports : List Script.Import} (h : Script.imports f.content = .ok imports) :
    S.rewrite map v f =
      settleAll (S.resolve map v f.name) f f.content.toList (Rewriting.start map f imports).left := by
  rw [Site.rewrite, h]
  rfl

theorem rewrite_of_error {f : File} {e : Script.SyntaxFault} (h : Script.imports f.content = .error e) :
    S.rewrite map v f = [.file f, .diagnostic f.name (syntaxReport e)] := by
  rw [Site.rewrite, h]
  rfl

theorem settleAll_cons (result : String → Except Failure (String × Option Location)) (f : File) (text : List Char)
    (o : Open) (left : List Open) : settleAll result f text (o :: left) = match result o.name with
      | .error e => .diagnostic f.name (Rewriting.report text o e) :: settleAll result f text left
      | .ok (target, _) => settleAll result f (if target == o.name then text
          else splice text o.span.start o.span.stop (Rewriting.replacement o target)) left := rfl

theorem settleAll_set {result : String → Except Failure (String × Option Location)} {f : File} {left : List Open}
    {k : Nat} {o : Open} (hk : left[k]? = some o) (st : Stage) (text : List Char) :
    settleAll result f text (left.set k { o with stage := st }) = settleAll result f text left := by
  induction left generalizing k text with
  | nil => simp at hk
  | cons x left ih =>
    cases k with
    | zero =>
      obtain rfl : x = o := by simpa using hk
      rfl
    | succ k =>
      have hk : left[k]? = some o := by simpa using hk
      rw [List.set_cons_succ, settleAll_cons, settleAll_cons]
      simp only [ih hk]

/-- What a producer has to give is given in a turn, or still to be given behind it. -/
theorem Acts.gives (h : r.Acts t) (hr : r.Ready S map project) (hS : S.Consistent project)
    (hb : S.Fits map project r.cache t.before) :
    (S.gives map project r.cache t.before ++ t.begun.toList.flatMap (S.dependency map)).Perm
      (t.items ++ (S.gives map project t.cache t.after ++ t.child.toList.flatMap (S.gives map project t.cache))) := by
  have hc := hr.faithful
  cases h with
  | finish => exact .refl _
  | report => simp [Site.gives, Site.project]
  | @read f rest fails hs =>
    rw [gives_source_cons, Site.project, if_pos hs, Option.toList_some, List.flatMap_singleton, gives_script,
      manifestOf_project, Option.toList_none, List.flatMap_nil, List.append_nil, List.nil_append]
    exact List.perm_append_comm
  | manifest hs hn hp hm => simp [Site.gives, Site.project, hs]
  | @crash f rest fails e hs hn hp hm =>
    cases hb with
    | source h => exact absurd hm ((h (.file f) (by simp)).manifest f rfl hn e)
  | copy hs hn => simp [Site.gives, Site.project, hs]
  | known h => exact .refl _
  | begin h => simp [Site.gives]
  | wait h => simp [Site.gives]
  | @missing l w c f h =>
    cases hb with
    | fetching hl hw =>
      obtain ⟨e', hfetch⟩ := fetch_of_missing hr hS hl hw h
      simp [Site.gives, dependency, hfetch]
  | @found l w c f h =>
    cases hb with
    | fetching hl hw =>
      obtain ⟨x, hfetch, rfl⟩ := fetch_of_found hr hS hl hw h
      have hgives : S.gives map project r.cache (.fetching l w) =
          S.gives map project c (.script (fileOf l x.file) (.ofPackage l)) := by
        rw [gives_script, manifestOf_ofPackage]
        simp only [Site.gives, dependency, hfetch]
      dsimp only
      rw [hgives, Option.toList_none, Option.toList_none, List.flatMap_nil, List.flatMap_nil, List.append_nil,
        List.nil_append]
  | @parse f m imports h =>
    have hgives : S.gives map project r.cache (.script f m) =
        S.gives map project r.cache (.rewriting (.start map f imports) m) := by
      rw [gives_script, gives_rewriting, rewrite_of_ok h]
      rfl
    rw [hgives, hr.map]
    simp
  | @fault f m e h =>
    dsimp only
    rw [gives_script, rewrite_of_error h]
    simp [Site.gives]
  | @give w m h => simp [Site.gives, h, settleAll, Rewriting.output]
  | @settle w w' m o h =>
    cases hb with
    | rewriting hm hopen =>
      dsimp only
      rw [gives_rewriting, gives_rewriting, hm.manifestOf hc hS]
      obtain ⟨first, left, hleft, hcases⟩ := settle?_cases h
      have hp := hopen first (by rw [hleft]; simp)
      rw [hleft, settleAll_cons]
      rcases hcases with ⟨e, hstage, rfl, rfl⟩ | ⟨target, hstage, rfl, rfl⟩
      · rw [hstage] at hp
        rcases hx : S.resolve map _ w.file.name first.name with e' | ⟨target, l⟩
        · obtain rfl : e = e' := Except.error.inj (hp.of_done.trans (by rw [hx]; rfl))
          simp
        · exact absurd (hp.of_done.trans (by rw [hx]; rfl) : _ = Except.ok target) (by simp)
      · rw [hstage] at hp
        rcases hx : S.resolve map _ w.file.name first.name with e' | ⟨target', l⟩
        · exact absurd (hp.of_done.trans (by rw [hx]; rfl) : _ = Except.error e') (by simp)
        · obtain rfl : target = target' := Except.ok.inj (hp.of_done.trans (by rw [hx]; rfl))
          simp
  | @resolve w m m' k o c c' st l hk hm hs =>
    cases hb with
    | rewriting ht hopen =>
      obtain ⟨ht', he, hadv⟩ := resolve_advances hr hS hm hs ht (hopen o (List.mem_of_getElem? hk))
      have hgives : S.gives map project c' (.rewriting { w with left := w.left.set k { o with stage := st } } m') =
          S.gives map project r.cache (.rewriting w m) := by
        simp only [Site.gives, ht.manifestOf hc hS, (ht'.mono hadv.grows).manifestOf hadv.faithful hS]
        exact settleAll_set hk st w.text
      rw [hgives]
      cases l <;> simp [Site.gives]

/-! ## What is led to -/

theorem needs_of_ok {f : File} {imports : List Script.Import} (h : Script.imports f.content = .ok imports) :
    S.needs map v f = (Rewriting.start map f imports).left.filterMap (target? (S.resolve map v f.name)) := by
  rw [Site.needs, h]
  rfl

theorem needs_of_error {f : File} {e : Script.SyntaxFault} (h : Script.imports f.content = .error e) :
    S.needs map v f = [] := by
  rw [Site.needs, h]
  rfl

/-- A script that is read is to lead to all that the script leads to. -/
theorem flatMap_owed_start {f : File} {imports : List Script.Import} (hp : Plain f.content)
    (h : Script.imports f.content = .ok imports) :
    (Rewriting.start map f imports).left.flatMap (fun o => (S.owed map v f.name o).toList) = S.needs map v f := by
  rw [needs_of_ok h, List.filterMap_eq_flatMap_toList]
  refine List.flatMap_congr fun o ho => congrArg Option.toList ?_
  obtain ⟨i, hi, hname, hstage⟩ := mem_start ho
  -- what is owed does not depend on a project or a cache
  have hbegins : S.Begins none (.empty "") v f.name (.ofSpecifier map f.name o.name) (S.resolve map v f.name o.name) :=
    begins_ofSpecifier map fun hk l hl => hp imports h i hi o.name hname hk l hl
  rw [Site.owed, hstage, hbegins.owed]
  rfl

/-- The locations that a producer is to lead to are led to in a turn, or still to be led to behind it. -/
theorem Acts.wants (h : r.Acts t) (hr : r.Ready S map project) (hS : S.Consistent project)
    (hb : S.Fits map project r.cache t.before) (l : Location) :
    l ∈ S.wants map project r.cache t.before ++ t.begun.toList.flatMap (S.dependencyNeeds map) ↔
      l ∈ S.wants map project t.cache t.after ++ t.child.toList.flatMap (S.wants map project t.cache) ++
        t.begun.toList ∨ t.before = .dependency l ∧ written l ∈ r.handled := by
  have hc := hr.faithful
  cases h with
  | finish => simp [Site.wants]
  | report => simp [Site.wants, Site.projectNeeds]
  | @read f rest fails hs =>
    simp only [Site.wants, Site.projectNeeds, hs, List.flatMap_cons, if_true, Option.toList_none, Option.toList_some,
      List.flatMap_nil, List.append_nil, List.mem_append, reduceCtorEq, false_and, or_false]
    exact or_comm
  | manifest hs hn hp hm => simp [Site.wants, Site.projectNeeds, hs]
  | @crash f rest fails e hs hn hp hm =>
    cases hb with
    | source h => exact absurd hm ((h (.file f) (by simp)).manifest f rfl hn e)
  | copy hs hn => simp [Site.wants, Site.projectNeeds, hs]
  | @known k h =>
    simp only [Site.wants, Option.toList_none, List.flatMap_nil, List.append_nil, List.mem_singleton, List.not_mem_nil,
      false_or, Producer.dependency.injEq]
    constructor
    · rintro rfl
      exact ⟨rfl, h⟩
    · exact fun hk => hk.1.symm
  | @begin k h =>
    simp only [Site.wants, Option.toList_none, Option.toList_some, List.flatMap_nil, List.flatMap_singleton,
      List.append_nil, List.mem_append, List.mem_singleton, Producer.dependency.injEq]
    constructor
    · exact fun hl => Or.inl hl.symm
    · rintro (hl | ⟨rfl, hl⟩)
      · exact hl.symm
      · exact absurd hl h
  | wait h => simp [Site.wants]
  | @missing k w c f h =>
    cases hb with
    | fetching hl hw =>
      obtain ⟨e', hfetch⟩ := fetch_of_missing hr hS hl hw h
      simp [Site.wants, dependencyNeeds, hfetch]
  | @found k w c f h =>
    cases hb with
    | fetching hl hw =>
      obtain ⟨x, hfetch, rfl⟩ := fetch_of_found hr hS hl hw h
      have hwants : S.wants map project r.cache (.fetching k w) =
          S.wants map project c (.script (fileOf k x.file) (.ofPackage k)) := by
        simp only [Site.wants, dependencyNeeds, hfetch]
        rfl
      simp [hwants]
  | @parse f m imports h =>
    cases hb with
    | @script _ _ v hm hp =>
      have hwants : S.wants map project r.cache (.rewriting (.start map f imports) m) = S.needs map v f := by
        rw [wants_rewriting, hm.manifestOf hc hS]
        exact flatMap_owed_start hp h
      dsimp only
      rw [wants_script, hm.manifestOf hc hS, hr.map, hwants]
      simp
  | @fault f m e h =>
    dsimp only
    rw [wants_script, needs_of_error h]
    simp [Site.wants]
  | @give w m h => simp [Site.wants, h]
  | @settle w w' m o h =>
    cases hb with
    | rewriting hm hopen =>
      obtain ⟨first, left, hleft, hcases⟩ := settle?_cases h
      have hdone : ∀ v, S.owed map v w.file.name first = none := by
        intro v
        unfold Site.owed
        rcases hcases with ⟨e, hstage, -⟩ | ⟨target, hstage, -⟩
        · rw [hstage]; rfl
        · rw [hstage]; rfl
      obtain ⟨hfile, first', hleft'⟩ := settle?_left h
      have hsame : first = first' ∧ left = w'.left := by rw [hleft] at hleft'; simpa using hleft'
      dsimp only
      rw [wants_rewriting, wants_rewriting, hleft, hfile, ← hsame.2]
      simp [hdone]
  | @resolve w m m' k o c c' st found hk hm hs =>
    cases hb with
    | @rewriting _ _ v ht hopen =>
      obtain ⟨ht', he, hadv⟩ := resolve_advances hr hS hm hs ht (hopen o (List.mem_of_getElem? hk))
      have hwants := mem_flatMap_set (fun o => (S.owed map v w.file.name o).toList) hk
        (b := { o with stage := st }) hadv.owed (y := l)
      dsimp only
      rw [wants_rewriting, wants_rewriting, ht.manifestOf hc hS, (ht'.mono hadv.grows).manifestOf hadv.faithful hS]
      simp only [Option.toList_none, List.flatMap_nil, List.append_nil, reduceCtorEq, false_and, or_false]
      rw [hwants, List.mem_append, or_comm]
      cases found <;> simp [Site.wants]

end Run

end BareImports.Build
