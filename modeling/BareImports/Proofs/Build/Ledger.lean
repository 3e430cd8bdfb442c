import BareImports.Proofs.Build.Play

/-!
# Who gave what

* `Entry` : why a producer was added and what it has given, in the order in which producers were added;
* `Came`, `Fetched`, `Finds` : what the resolution of a specifier, the fetch of a dependency and the fetch for a
  specifier have come to in some moves;
* `Wrote i f given` : what producer `i` gives for a script: its problems, one for each specifier that came to a failure,
  and the script; `Writes`, the same for a script under way;
* `Tells i e p` : producer `i` is as its entry tells; `Acts.books` : a turn keeps that.
-/

namespace BareImports.Build

open Text Cdn

/-- How far the fetch of a dependency is. -/
inductive Fetch
  /-- Another producer was begun for the same file, or none was begun so far. -/
  | idle
  /-- It is under way. -/
  | begun
  /-- It has come to a result. -/
  | came (x : Except Failure Cdn.File)

/-- Why a producer was added. -/
inductive Origin
  /-- It passes the outputs of the project on. -/
  | source
  /-- It rewrites a script of the project. -/
  | script (f : File)
  /-- A specifier led to a location. -/
  | dependency (l : Location) (fetch : Fetch)

/-- Why a producer was added and what it has given. -/
structure Entry where
  /-- Why it was added. -/
  origin : Origin
  /-- What it has given. -/
  given : List Output := []

namespace Entry

/-- The script of the project that it rewrites. -/
def script? (e : Entry) : Option File :=
  match e.origin with
  | .script f => some f
  | _ => none

/-- The location that a specifier led to. -/
def location? (e : Entry) : Option Location :=
  match e.origin with
  | .dependency l _ => some l
  | _ => none

/-- The location whose file it has begun to fetch, as it is written. -/
def begun? (e : Entry) : Option String :=
  match e.origin with
  | .dependency l .begun | .dependency l (.came _) => some (written l)
  | _ => none

/-- The script that it rewrites. -/
def file? (e : Entry) : Option File :=
  match e.origin with
  | .script f => some f
  | .dependency l (.came (.ok f)) => some (Site.fileOf l f)
  | _ => none

/-- The entry of a new producer. -/
def ofChild : Producer → Entry
  | .script f _ => { origin := .script f }
  | .dependency l => { origin := .dependency l .idle }
  | _ => { origin := .source }

end Entry

/-! ## Outputs of the project -/

/-- Whether an output of the project is passed on as it is. -/
def Output.passes : Output → Bool
  | .file f => !Run.isScript f
  | .diagnostic .. => true

/-- The script that an output of the project is. -/
def Output.script? : Output → Option File
  | .file f => if Run.isScript f then some f else none
  | .diagnostic .. => none

/-- The file that tells the manifest of the project. -/
def Output.manifest? : Output → Option File
  | .file f => if f.name = Manifest.fileName then some f else none
  | .diagnostic .. => none

/-! ## What a script gives -/

/-- A specifier is replaced, or reported, in a text. -/
def advance (f : File) : List Char × List Output → Open × Except Failure String → List Char × List Output
  | (text, outs), (o, .error e) => (text, outs ++ [.diagnostic f.name (Rewriting.report text o e)])
  | (text, outs), (o, .ok target) => (if target == o.name then text
      else splice text o.span.start o.span.stop (Rewriting.replacement o target), outs)

/-- The text of a script and its problems, when some specifiers have come to results. -/
def rewritten (f : File) (results : List (Open × Except Failure String)) : List Char × List Output :=
  results.foldl (advance f) (f.content.toList, [])

/-- The specifiers that have come to failures. -/
def failures (results : List (Open × Except Failure String)) : List (Open × Failure) :=
  results.filterMap fun (o, x) => match x with
    | .error e => some (o, e)
    | .ok _ => none

/-- A problem of a script is the report of a specifier that has come to a failure. -/
def Reports (f : File) (e : Open × Failure) (out : Output) : Prop :=
  ∃ text, out = .diagnostic f.name (Rewriting.report text e.1 e.2)

/-- One more specifier comes to its result. -/
theorem rewritten_concat (f : File) (results : List (Open × Except Failure String)) (e : Open × Except Failure String) :
    rewritten f (results ++ [e]) = advance f (rewritten f results) e := by
  unfold rewritten
  rw [List.foldl_append]
  rfl

/-- Each specifier that has come to a failure is reported, in order, and no other one. -/
theorem rewritten_reports (f : File) (results : List (Open × Except Failure String)) :
    List.Forall₂ (Reports f) (failures results) (rewritten f results).2 := by
  induction results using List.reverseRecOn with
  | nil => exact .nil
  | append_singleton results e ih =>
    obtain ⟨o, x⟩ := e
    rw [rewritten_concat, failures, List.filterMap_append]
    cases x with
    | error e => exact List.rel_append ih (.cons ⟨_, rfl⟩ .nil)
    | ok target =>
      rw [List.filterMap_cons, List.filterMap_nil, List.append_nil]
      exact ih

/-- What identifies an open specifier: its text and where it stands. -/
def Open.place (o : Open) : String × Script.Import := (o.name, o.span)

namespace Run

section Events

variable (r₀ : Run) (ms : List Move)

/-- In some moves, the resolution of a specifier of a producer has come to a result. -/
def Came (i : Nat) (o : Open) (x : Except Failure String) : Prop :=
  ∃ before w m, before <+: ms ∧ (r₀.play before).producers[i]? = some (.rewriting w m) ∧
    { o with stage := .done x } ∈ w.left

/-- In some moves, the fetch of the dependency of a producer has come to a result. -/
def Fetched (i : Nat) (l : Location) (x : Except Failure Cdn.File) : Prop :=
  ∃ before w c, before ++ [.produce i] <+: ms ∧ (r₀.play before).producers[i]? = some (.fetching l w) ∧
    (r₀.play before).cache.resume .file w = (c, .done x)

/-- In some moves, the fetch for a specifier of a producer has come to a file. -/
def Finds (i k : Nat) (l : Location) : Prop :=
  ∃ before w m o w' replacement c f, before ++ [.resolve i k] <+: ms ∧
    (r₀.play before).producers[i]? = some (.rewriting w m) ∧ w.left[k]? = some o ∧
    o.stage = .content l w' replacement ∧ (r₀.play before).cache.resume .file w' = (c, .done (.ok f))

/-- What a producer gives for a script: the script as it is with the problem that it cannot be read, or a problem for
each named specifier that came to a failure, the last one first, and the script with the others replaced. -/
inductive Wrote (i : Nat) (f : File) : List Output → Prop
  /-- The script cannot be read. -/
  | fault {e : Script.SyntaxFault} (h : Script.imports f.content = .error e) :
    Wrote i f [.file f, .diagnostic f.name (syntaxReport e)]
  /-- Every named specifier has come to a result. -/
  | rewritten {imports : List Script.Import} {results : List (Open × Except Failure String)}
    (h : Script.imports f.content = .ok imports)
    (hall : results.map (·.1) = (Rewriting.start r₀.map f imports).left) (hcame : ∀ e ∈ results, Came r₀ ms i e.1 e.2) :
    Wrote i f ((rewritten f results).2 ++ [.file { f with content := String.ofList (rewritten f results).1 }])

/-- What a producer has given for a script under way, when some specifiers have come to results. -/
structure Writes (i : Nat) (f : File) (w : Rewriting) (given : List Output) (imports : List Script.Import)
    (results : List (Open × Except Failure String)) (rest : List Open) : Prop where
  /-- The script can be read. -/
  read : Script.imports f.content = .ok imports
  /-- The named specifiers are those that have come to results and those that are left. -/
  all : results.map (·.1) ++ rest = (Rewriting.start r₀.map f imports).left
  /-- Those that are left. -/
  left : w.left.map Open.place = rest.map Open.place
  /-- The file is the script. -/
  file : w.file = f
  /-- The text and the problems so far. -/
  state : rewritten f results = (w.text, given)
  /-- What the specifiers have come to. -/
  came : ∀ e ∈ results, Came r₀ ms i e.1 e.2

/-- A producer is as its entry tells. -/
inductive Tells (handled : List String) (i : Nat) : Entry → Producer → Prop
  /-- The outputs of the project. -/
  | source {given items : List Output} {fails : Bool} (hi : i = 0) : Tells handled i ⟨.source, given⟩ (.source items fails)
  /-- All outputs of the project were passed on. -/
  | passed {given : List Output} (hi : i = 0) : Tells handled i ⟨.source, given⟩ .ended
  /-- A script of the project. -/
  | script {f : File} : Tells handled i ⟨.script f, []⟩ (.script f .project)
  /-- A location. -/
  | dependency {l : Location} : Tells handled i ⟨.dependency l .idle, []⟩ (.dependency l)
  /-- A location whose file another producer has begun to fetch. -/
  | known {l : Location} (h : written l ∈ handled) : Tells handled i ⟨.dependency l .idle, []⟩ .ended
  /-- A location whose file is being fetched. -/
  | fetching {l : Location} {w : Wait} : Tells handled i ⟨.dependency l .begun, []⟩ (.fetching l w)
  /-- A location whose file is not to be had. -/
  | missing {l : Location} {e : Failure} : Tells handled i ⟨.dependency l (.came (.error e)), []⟩ .ended
  /-- A location whose file is there. -/
  | found {l : Location} {f : Cdn.File} {m : ManifestSource} :
    Tells handled i ⟨.dependency l (.came (.ok f)), []⟩ (.script (Site.fileOf l f) m)
  /-- A script under way. -/
  | writes {e : Entry} {f : File} {w : Rewriting} {m : ManifestSource} {imports : List Script.Import}
    {results : List (Open × Except Failure String)} {rest : List Open} (he : e.file? = some f)
    (h : Writes r₀ ms i f w e.given imports results rest) : Tells handled i e (.rewriting w m)
  /-- A script that was given. -/
  | wrote {e : Entry} {f : File} (he : e.file? = some f) (h : Wrote r₀ ms i f e.given) : Tells handled i e .ended

end Events

section Mono

variable {r₀ : Run} {ms : List Move} {i : Nat}

theorem Came.concat {o : Open} {x : Except Failure String} (h : Came r₀ ms i o x) (m : Move) :
    Came r₀ (ms ++ [m]) i o x := by
  obtain ⟨before, w, m', hb, hrest⟩ := h
  exact ⟨before, w, m', hb.trans (List.prefix_append _ _), hrest⟩

theorem Wrote.concat {f : File} {given : List Output} (h : Wrote r₀ ms i f given) (m : Move) :
    Wrote r₀ (ms ++ [m]) i f given := by
  cases h with
  | fault h => exact .fault h
  | rewritten h hall hcame => exact .rewritten h hall fun e he => (hcame e he).concat m

/-- A script that can be read has one problem for each specifier that came to a failure, and none for another one. -/
theorem Wrote.reports {f : File} {given : List Output} (h : Wrote r₀ ms i f given) {imports : List Script.Import}
    (hi : Script.imports f.content = .ok imports) :
    ∃ (results : List (Open × Except Failure String)) (problems : List Output) (content : String),
      results.map (·.1) = (Rewriting.start r₀.map f imports).left ∧
      (∀ e ∈ results, Came r₀ ms i e.1 e.2) ∧ List.Forall₂ (Reports f) (failures results) problems ∧
      given = problems ++ [.file { f with content }] := by
  cases h with
  | fault h => exact absurd (h.symm.trans hi) (by simp)
  | @rewritten imports' results h hall hcame =>
    obtain rfl := Except.ok.inj (h.symm.trans hi)
    exact ⟨results, _, _, hall, hcame, rewritten_reports f results, rfl⟩

theorem Writes.concat {f : File} {w : Rewriting} {given : List Output} {imports : List Script.Import}
    {results : List (Open × Except Failure String)} {rest : List Open}
    (h : Writes r₀ ms i f w given imports results rest) (m : Move) :
    Writes r₀ (ms ++ [m]) i f w given imports results rest :=
  ⟨h.read, h.all, h.left, h.file, h.state, fun e he => (h.came e he).concat m⟩

theorem Tells.concat {handled handled' : List String} {e : Entry} {p : Producer} (h : Tells r₀ ms handled i e p)
    (hsub : handled ⊆ handled') (m : Move) : Tells r₀ (ms ++ [m]) handled' i e p := by
  cases h with
  | source hi => exact .source hi
  | passed hi => exact .passed hi
  | script => exact .script
  | dependency => exact .dependency
  | known h => exact .known (hsub h)
  | fetching => exact .fetching
  | missing => exact .missing
  | found => exact .found
  | writes he h => exact .writes he (h.concat m)
  | wrote he h => exact .wrote he (h.concat m)

end Mono

/-! ## One turn -/

section Turn

variable {r₀ : Run} {ms : List Move} {i : Nat} {r : Run} {t : Turn}

theorem map_place_set {left : List Open} {k : Nat} {o : Open} (hk : left[k]? = some o) (st : Stage) :
    (left.set k { o with stage := st }).map Open.place = left.map Open.place := by
  rw [List.map_set]
  refine List.ext_getElem? fun j => ?_
  rw [List.getElem?_set]
  split
  · next hkj =>
    obtain ⟨hlt, ho⟩ := List.getElem?_eq_some_iff.1 hk
    subst hkj
    rw [if_pos (by simpa using hlt), List.getElem?_map, hk]
    rfl
  · rfl

theorem report_congr {o o' : Open} (hname : o.name = o'.name) (hspan : o.span = o'.span) {text : List Char}
    {e : Failure} : Rewriting.report text o e = Rewriting.report text o' e := by
  unfold Rewriting.report
  rw [hname, hspan]

theorem replacement_congr {o o' : Open} (hspan : o.span = o'.span) {target : String} :
    Rewriting.replacement o target = Rewriting.replacement o' target := by
  unfold Rewriting.replacement
  rw [hspan]

/-- The last specifier that is left is replaced or reported. -/
theorem Writes.settle {f : File} {w w' : Rewriting} {given : List Output} {imports : List Script.Import}
    {results : List (Open × Except Failure String)} {rest : List Open} {m : ManifestSource} {o : Option Output}
    (h : Writes r₀ ms i f w given imports results rest) (hb : (r₀.play ms).producers[i]? = some (.rewriting w m))
    (hs : w.settle? = some (w', o)) :
    ∃ results' rest', Writes r₀ ms i f w' (given ++ o.toList) imports results' rest' := by
  obtain ⟨first, left, hleft, hcases⟩ := settle?_cases hs
  obtain ⟨next, rest, rfl, hplace, hrest⟩ : ∃ next rest', rest = next :: rest' ∧ first.place = next.place ∧
      left.map Open.place = rest'.map Open.place := by
    have hl := h.left
    rw [hleft, List.map_cons] at hl
    obtain ⟨next, rest', rfl, hn, hr⟩ := List.map_eq_cons_iff.1 hl.symm
    exact ⟨next, rest', rfl, hn.symm, hr.symm⟩
  obtain ⟨hname, hspan⟩ := Prod.mk.inj hplace
  have hall : ∀ x : Except Failure String, (results ++ [(next, x)]).map (·.1) ++ rest =
      (Rewriting.start r₀.map f imports).left := by
    intro x
    rw [← h.all, List.map_append, List.append_assoc]
    rfl
  have hcame : ∀ x : Except Failure String, first.stage = .done x → ∀ e ∈ results ++ [(next, x)],
      Came r₀ ms i e.1 e.2 := by
    intro x hx e he
    rcases List.mem_append.1 he with he | he
    · exact h.came e he
    · obtain rfl := List.mem_singleton.1 he
      refine ⟨ms, w, m, List.prefix_rfl, hb, ?_⟩
      have hfirst : { next with stage := .done x } = first := by
        rw [← hx, ← hname, ← hspan]
      rw [hleft]
      exact hfirst ▸ List.mem_cons_self
  rcases hcases with ⟨e, hstage, rfl, rfl⟩ | ⟨target, hstage, rfl, rfl⟩
  · refine ⟨results ++ [(next, .error e)], rest, h.read, hall _, hrest, h.file, ?_, hcame _ hstage⟩
    rw [rewritten_concat, h.state, report_congr hname hspan, h.file]
    rfl
  · refine ⟨results ++ [(next, .ok target)], rest, h.read, hall _, hrest, h.file, ?_, hcame _ hstage⟩
    rw [rewritten_concat, h.state, hname, hspan, replacement_congr hspan, Option.toList_none, List.append_nil]
    rfl

/-- All specifiers have come to results. -/
theorem Writes.wrote {f : File} {w : Rewriting} {given : List Output} {imports : List Script.Import}
    {results : List (Open × Except Failure String)} {rest : List Open}
    (h : Writes r₀ ms i f w given imports results rest) (hleft : w.left = []) : Wrote r₀ ms i f (given ++ [w.output]) := by
  have hrest : rest = [] := by simpa [hleft] using h.left.symm
  have hout : given ++ [w.output] =
      (rewritten f results).2 ++ [.file { f with content := String.ofList (rewritten f results).1 }] := by
    rw [h.state, Rewriting.output, h.file]
  rw [hout]
  exact .rewritten h.read (by rw [← h.all, hrest, List.append_nil]) h.came

/-- The origin of a producer with what its fetch comes to. -/
inductive Follows : Origin → Origin → Prop
  /-- Nothing changes. -/
  | same (o : Origin) : Follows o o
  /-- The fetch of a dependency begins. -/
  | begin (l : Location) : Follows (.dependency l .idle) (.dependency l .begun)
  /-- The fetch of a dependency comes to a result. -/
  | come (l : Location) (x : Except Failure Cdn.File) : Follows (.dependency l .begun) (.dependency l (.came x))

/-- What a turn makes of the entry of its producer. -/
structure Books (r : Run) (t : Turn) (e e' : Entry) : Prop where
  /-- What the producer gives is added. -/
  given : e'.given = e.given ++ t.items
  /-- The producer stays what it was added for. -/
  origin : Follows e.origin e'.origin
  /-- A dependency that is begun is one of this producer. -/
  begun : e'.begun?.toList = (t.begun.map written).toList ++ e.begun?.toList
  /-- A fetch that comes to a result is one of this producer. -/
  comes : ∀ l w c x, t.before = .fetching l w → r.cache.resume .file w = (c, .done x) →
    e'.origin = .dependency l (.came x)

theorem Books.same {e : Entry} {given : List Output} (hgiven : given = e.given ++ t.items) (hbegun : t.begun = none)
    (hfetch : ∀ l w c x, t.before = .fetching l w → r.cache.resume .file w ≠ (c, .done x)) :
    Books r t e { e with given } :=
  ⟨hgiven, .same _, by rw [hbegun]; rfl, fun l w c x hb hr => absurd hr (hfetch l w c x hb)⟩

/-- A turn keeps a producer as its entry tells. -/
theorem Acts.books (h : (r₀.play ms).Acts t) (hmap : (r₀.play ms).map = r₀.map)
    (hb : (r₀.play ms).producers[i]? = some t.before) {e : Entry}
    (he : Tells r₀ ms (r₀.play ms).handled i e t.before) (m : Move) :
    ∃ e', Books (r₀.play ms) t e e' ∧
      Tells r₀ (ms ++ [m]) ((t.begun.map written).toList ++ (r₀.play ms).handled) i e' t.after := by
  cases h with
  | finish =>
    cases he with
    | source hi => exact ⟨_, .same rfl rfl (by simp), .passed hi⟩
  | report =>
    cases he with
    | source hi => exact ⟨_, .same rfl rfl (by simp), .source hi⟩
  | read hs =>
    cases he with
    | source hi => exact ⟨_, .same rfl rfl (by simp), .source hi⟩
  | manifest hs hn hp hm =>
    cases he with
    | source hi => exact ⟨_, .same rfl rfl (by simp), .source hi⟩
  | crash hs hn hp hm =>
    cases he with
    | source hi => exact ⟨_, .same rfl rfl (by simp), .passed hi⟩
  | copy hs hn =>
    cases he with
    | source hi => exact ⟨_, .same rfl rfl (by simp), .source hi⟩
  | known h =>
    cases he with
    | dependency => exact ⟨_, .same rfl rfl (by simp), .known h⟩
  | @begin l h =>
    cases he with
    | dependency => exact ⟨⟨.dependency l .begun, []⟩, ⟨rfl, .begin l, rfl, by simp⟩, .fetching⟩
  | @wait l w w' c h =>
    cases he with
    | fetching =>
      refine ⟨_, .same rfl rfl fun l' w₁ c' x hw hr => ?_, .fetching⟩
      obtain ⟨rfl, rfl⟩ := Producer.fetching.inj hw
      rw [h] at hr
      exact absurd hr (by simp)
  | @missing l w c f h =>
    cases he with
    | fetching =>
      refine ⟨⟨.dependency l (.came (.error f)), []⟩, ⟨rfl, .come l _, rfl, fun l' w' c' x hw hr => ?_⟩, .missing⟩
      obtain ⟨rfl, rfl⟩ := Producer.fetching.inj hw
      rw [h] at hr
      obtain ⟨-, hx⟩ := Prod.mk.inj hr
      rw [Status.done.inj hx]
  | @found l w c f h =>
    cases he with
    | fetching =>
      refine ⟨⟨.dependency l (.came (.ok f)), []⟩, ⟨rfl, .come l _, rfl, fun l' w' c' x hw hr => ?_⟩, .found⟩
      obtain ⟨rfl, rfl⟩ := Producer.fetching.inj hw
      rw [h] at hr
      obtain ⟨-, hx⟩ := Prod.mk.inj hr
      rw [Status.done.inj hx]
  | @parse f m' imports h =>
    obtain ⟨hfile, hgiven⟩ : e.file? = some f ∧ e.given = [] := by cases he <;> exact ⟨rfl, rfl⟩
    have hstart : Writes r₀ (ms ++ [m]) i f (.start r₀.map f imports) e.given imports [] _ :=
      ⟨h, rfl, rfl, rfl, by rw [hgiven]; rfl, by simp⟩
    refine ⟨e, .same (by simp) rfl (by simp), ?_⟩
    rw [hmap]
    exact .writes hfile hstart
  | @fault f m' x h =>
    obtain ⟨hfile, hgiven⟩ : e.file? = some f ∧ e.given = [] := by cases he <;> exact ⟨rfl, rfl⟩
    refine ⟨{ e with given := _ }, .same rfl rfl (by simp), .wrote hfile ?_⟩
    rw [hgiven]
    exact .fault h
  | @give w m' h =>
    cases he with
    | writes hfile hw =>
      exact ⟨{ e with given := _ }, .same rfl rfl (by simp), .wrote hfile ((hw.wrote h).concat m)⟩
  | @settle w w' m' o h =>
    cases he with
    | writes hfile hw =>
      obtain ⟨results, rest, hw'⟩ := hw.settle hb h
      exact ⟨{ e with given := _ }, .same rfl rfl (by simp), .writes hfile (hw'.concat m)⟩
  | @resolve w m₁ m₂ k o c c' st l hk hm hs =>
    cases he with
    | writes hfile hw =>
      have hleft := (map_place_set hk st).trans hw.left
      have hw' : Writes r₀ ms i _ { w with left := w.left.set k { o with stage := st } } e.given _ _ _ :=
        ⟨hw.read, hw.all, hleft, hw.file, hw.state, hw.came⟩
      exact ⟨e, .same (by simp) rfl (by simp), .writes hfile (hw'.concat m)⟩

end Turn

end Run

end BareImports.Build
