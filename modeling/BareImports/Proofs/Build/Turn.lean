import BareImports.Proofs.Build.Reference

/-!
# What a move of a build does

* `Turn` : what one producer does: what it was and becomes, its child, what it gives, the dependency that it begins;
* `Acts r t` : all turns that a producer of `r` may have;
* `Turns r i t r'` : producer `i` has a turn, and nothing else changes;
* `Does r m r'`, `step_cases` : all that a move does.
-/

namespace BareImports.Build

open Text Cdn

/-- Whether a producer may still add to the stream. -/
def Producer.isLive : Producer → Bool
  | .ended => false
  | _ => true

/-- The text by which a dependency is known to have begun. -/
def written (l : Location) : String := l.pkg ++ "@" ++ l.version ++ "/" ++ l.path

/-- What a producer does in one turn. -/
structure Turn where
  /-- What it was. -/
  before : Producer
  /-- What it becomes. -/
  after : Producer
  /-- The producer that it adds. -/
  child : Option Producer
  /-- What it gives. -/
  items : List Output
  /-- The dependency that it begins. -/
  begun : Option Location
  /-- The cache behind the turn. -/
  cache : Cache
  /-- The manifest of the project behind the turn. -/
  project : Option (Option Value)
  /-- What it logs. -/
  noted : List Log.Entry

namespace Run

/-- What is logged when a producer ends by an accident. -/
def accident : Log.Entry := ⟨.error, "Merged producer failed", [], []⟩

/-- What is logged when a dependency is not to be had. -/
def absence (l : Location) (f : Failure) : Log.Entry :=
  Log.warn "Could not fetch dependency %s: %s" [.text (written l), .failure f]

/-- The turns that a producer may have. -/
inductive Acts (r : Run) : Turn → Prop
  /-- The outputs of the build are at their end. -/
  | finish {fails : Bool} : Acts r ⟨.source [] fails, .ended, none, [], none, r.cache, some (r.project.getD none),
    if fails then [accident] else []⟩
  /-- A diagnostic is passed on. -/
  | report {name : String} {d : Diagnostic} {rest : List Output} {fails : Bool} :
    Acts r ⟨.source (.diagnostic name d :: rest) fails, .source rest fails, none, [.diagnostic name d], none, r.cache,
      r.project, []⟩
  /-- A script becomes a producer. -/
  | read {f : File} {rest : List Output} {fails : Bool} (hs : isScript f = true) :
    Acts r ⟨.source (.file f :: rest) fails, .source rest fails, some (.script f .project), [], none, r.cache, r.project, []⟩
  /-- The manifest of the project is read. -/
  | manifest {f : File} {rest : List Output} {fails : Bool} {m : Option Value} {e : Option Log.Entry}
    (hs : isScript f = false) (hn : f.name = Manifest.fileName) (hp : r.project = none)
    (hm : readProject f.content = .ok (m, e)) :
    Acts r ⟨.source (.file f :: rest) fails, .source rest fails, none, [.file f], none, r.cache, some m, e.toList⟩
  /-- The manifest of the project cannot be read. -/
  | crash {f : File} {rest : List Output} {fails : Bool} {e : Json.Fault}
    (hs : isScript f = false) (hn : f.name = Manifest.fileName) (hp : r.project = none)
    (hm : readProject f.content = .error e) :
    Acts r ⟨.source (.file f :: rest) fails, .ended, none, [], none, r.cache, some (r.project.getD none), [accident]⟩
  /-- Another file is passed on. -/
  | copy {f : File} {rest : List Output} {fails : Bool} (hs : isScript f = false)
    (hn : f.name = Manifest.fileName → r.project ≠ none) :
    Acts r ⟨.source (.file f :: rest) fails, .source rest fails, none, [.file f], none, r.cache, r.project, []⟩
  /-- A dependency was begun before. -/
  | known {l : Location} (h : written l ∈ r.handled) : Acts r ⟨.dependency l, .ended, none, [], none, r.cache, r.project, []⟩
  /-- A dependency is begun. -/
  | begin {l : Location} (h : written l ∉ r.handled) :
    Acts r ⟨.dependency l, .fetching l (.turn l), none, [], some l, r.cache, r.project, []⟩
  /-- A dependency is waited for. -/
  | wait {l : Location} {w w' : Wait} {c : Cache} (h : r.cache.resume .file w = (c, .waiting w')) :
    Acts r ⟨.fetching l w, .fetching l w', none, [], none, c, r.project, []⟩
  /-- A dependency is not to be had. -/
  | missing {l : Location} {w : Wait} {c : Cache} {f : Failure} (h : r.cache.resume .file w = (c, .done (.error f))) :
    Acts r ⟨.fetching l w, .ended, none, [], none, c, r.project, [absence l f]⟩
  /-- A dependency is there. -/
  | found {l : Location} {w : Wait} {c : Cache} {f : Cdn.File} (h : r.cache.resume .file w = (c, .done (.ok f))) :
    Acts r ⟨.fetching l w, .script (Site.fileOf l f) (.ofPackage l), none, [], none, c, r.project, []⟩
  /-- A script is read. -/
  | parse {f : File} {m : ManifestSource} {imports : List Script.Import} (h : Script.imports f.content = .ok imports) :
    Acts r ⟨.script f m, .rewriting (.start r.map f imports) m, none, [], none, r.cache, r.project, []⟩
  /-- A script cannot be read. -/
  | fault {f : File} {m : ManifestSource} {e : Script.SyntaxFault} (h : Script.imports f.content = .error e) :
    Acts r ⟨.script f m, .ended, none, [.file f, .diagnostic f.name (syntaxReport e)], none, r.cache, r.project, []⟩
  /-- A file is given. -/
  | give {w : Rewriting} {m : ManifestSource} (h : w.left = []) :
    Acts r ⟨.rewriting w m, .ended, none, [w.output], none, r.cache, r.project, []⟩
  /-- A specifier is replaced or reported. -/
  | settle {w w' : Rewriting} {m : ManifestSource} {o : Option Output} (h : w.settle? = some (w', o)) :
    Acts r ⟨.rewriting w m, .rewriting w' m, none, o.toList, none, r.cache, r.project, []⟩
  /-- The resolution of a specifier goes on. -/
  | resolve {w : Rewriting} {m m' : ManifestSource} {k : Nat} {o : Open} {c c' : Cache} {st : Stage}
    {l : Option Location} (hk : w.left[k]? = some o) (hm : load r.cache o.stage.needsManifest m = (c, m'))
    (hs : o.stage.step w.file.name (r.manifest? m') c = (c', st, l)) :
    Acts r ⟨.rewriting w m, .rewriting { w with left := w.left.set k { o with stage := st } } m',
      l.map .dependency, [], none, c', r.project, []⟩

/-- Producer `i` has a turn, and nothing else changes. -/
structure Turns (r : Run) (i : Nat) (t : Turn) (r' : Run) : Prop where
  /-- It is a turn that a producer may have. -/
  acts : r.Acts t
  /-- What the producer was. -/
  before : r.producers[i]? = some t.before
  /-- What it becomes, with the producer that it adds. -/
  producers : r'.producers = r.producers.set i t.after ++ t.child.toList
  /-- What it gives, and its end. -/
  queue : r'.merge.queue = r.merge.queue ++ t.items.map some ++ if t.after.isLive then [] else [none]
  /-- The producer that it adds is counted. -/
  outstanding : r'.merge.outstanding = r.merge.outstanding + t.child.toList.length
  /-- The dependency that it begins is kept. -/
  handled : r'.handled = (t.begun.map written).toList ++ r.handled
  /-- The cache. -/
  cache : r'.cache = t.cache
  /-- The manifest of the project. -/
  project : r'.project = t.project
  /-- What it logs. -/
  log : r'.log = r.log ++ t.noted
  /-- The import map stays. -/
  map : r'.map = r.map

/-- All that a move does. -/
inductive Does (r : Run) : Move → Run → Prop
  /-- A producer has a turn. -/
  | turn {m : Move} {i : Nat} {t : Turn} {r' : Run} (h : r.Turns i t r') : Does r m r'
  /-- Nothing. -/
  | rest {m : Move} : Does r m r
  /-- A request is answered. -/
  | answer (n : Nat) (a : Answer) : Does r (.answer n a) { r with cache := r.cache.complete n a }
  /-- An entry is taken. -/
  | take {e : Option Output} {q : Merge Output} (h : r.merge.take? = some (e, q)) : Does r .take { r with merge := q }

theorem queue_foldl_put (items : List Output) (m : Merge Output) :
    (items.foldl Merge.put m).queue = m.queue ++ items.map some := by
  induction items generalizing m with
  | nil => simp
  | cons o items ih => simp [ih, Merge.put]

theorem outstanding_foldl_put (items : List Output) (m : Merge Output) :
    (items.foldl Merge.put m).outstanding = m.outstanding := by
  induction items generalizing m with
  | nil => rfl
  | cons o items ih => exact ih _

section Cases

variable {r r' : Run} {i : Nat} {t : Turn}

/-- A turn at whose end the producer ends. -/
theorem Acts.closes (h : r.Acts t) (hb : r.producers[i]? = some t.before) (ha : t.after = .ended)
    (hc : t.child = none) (hd : t.begun = none) (hp : r'.producers = r.producers.set i .ended)
    (hm : r'.merge = (t.items.foldl Merge.put r.merge).close) (hh : r'.handled = r.handled) (hcache : r'.cache = t.cache)
    (hproject : r'.project = t.project) (hlog : r'.log = r.log ++ t.noted) (hmap : r'.map = r.map) :
    r.Turns i t r' where
  acts := h
  before := hb
  producers := by simp [hp, ha, hc]
  queue := by
    rw [hm, Merge.close, queue_foldl_put, ha]
    rfl
  outstanding := by
    rw [hm, Merge.close, outstanding_foldl_put, hc]
    rfl
  handled := by simp [hh, hd]
  cache := hcache
  project := hproject
  log := hlog
  map := hmap

/-- A turn behind which the producer goes on. -/
theorem Acts.stays (h : r.Acts t) (hb : r.producers[i]? = some t.before) (ha : t.after.isLive = true)
    (hp : r'.producers = r.producers.set i t.after ++ t.child.toList)
    (hm : r'.merge = t.items.foldl Merge.put (t.child.elim r.merge fun _ => r.merge.add))
    (hh : r'.handled = (t.begun.map written).toList ++ r.handled) (hcache : r'.cache = t.cache)
    (hproject : r'.project = t.project) (hlog : r'.log = r.log ++ t.noted) (hmap : r'.map = r.map) :
    r.Turns i t r' where
  acts := h
  before := hb
  producers := hp
  queue := by
    rw [hm, queue_foldl_put, ha]
    cases t.child <;> simp [Merge.add]
  outstanding := by
    rw [hm, outstanding_foldl_put]
    cases t.child <;> rfl
  handled := hh
  cache := hcache
  project := hproject
  log := hlog
  map := hmap

theorem source_turns {items : List Output} {fails : Bool} (h : r.producers[i]? = some (.source items fails)) :
    ∃ t, r.Turns i t (r.produceSource i items fails) := by
  have hset : ∀ p, r.producers.set i p = r.producers.set i p ++ [] := fun p => (List.append_nil _).symm
  have hlog : r.log = r.log ++ [] := (List.append_nil _).symm
  unfold produceSource
  split
  · cases fails with
    | true => exact ⟨_, Acts.finish.closes h rfl rfl rfl rfl rfl rfl rfl rfl rfl rfl⟩
    | false => exact ⟨_, Acts.finish.closes h rfl rfl rfl rfl rfl rfl rfl rfl hlog rfl⟩
  · next o rest =>
    dsimp only
    split
    · exact ⟨_, Acts.report.stays h rfl (hset _) rfl rfl rfl rfl hlog rfl⟩
    · next f =>
      split
      · next hs => exact ⟨_, (Acts.read hs).stays h rfl rfl rfl rfl rfl rfl hlog rfl⟩
      · next hs =>
        have hs : isScript f = false := by simpa using hs
        split
        · next hn =>
          simp only [Bool.and_eq_true, beq_iff_eq, Option.isNone_iff_eq_none] at hn
          split
          · next e hm => exact ⟨_, (Acts.crash hs hn.1 hn.2 hm).closes h rfl rfl rfl rfl rfl rfl rfl rfl rfl rfl⟩
          · next m e hm =>
            refine ⟨_, (Acts.manifest hs hn.1 hn.2 hm).stays h rfl ?_ ?_ ?_ ?_ ?_ ?_ ?_⟩ <;> cases e <;>
              simp [emit, note, become]
        · next hn =>
          refine ⟨_, (Acts.copy hs fun hname hp => hn ?_).stays h rfl (hset _) rfl rfl rfl rfl hlog rfl⟩
          simp [hname, hp]

/-- A producer that is not there or has ended, or that waits for its last specifier, does nothing. -/
theorem produce_turns (r : Run) (i : Nat) : (r.produce i = r ∧ ∀ p, r.producers[i]? = some p → p = .ended ∨
      ∃ w m o left, p = .rewriting w m ∧ w.left = o :: left ∧ w.settle? = none) ∨
    ∃ t, r.Turns i t (r.produce i) := by
  have hset : ∀ p, r.producers.set i p = r.producers.set i p ++ [] := fun p => (List.append_nil _).symm
  have hlog : r.log = r.log ++ [] := (List.append_nil _).symm
  unfold produce
  split
  · next items fails h => exact Or.inr (source_turns h)
  · next l h =>
    unfold produceDependency
    dsimp only
    right
    split
    · next hk =>
      exact ⟨_, (Acts.known (by simpa [written] using hk)).closes h rfl rfl rfl rfl rfl rfl rfl rfl hlog rfl⟩
    · next hk =>
      exact ⟨_, (Acts.begin (by simpa [written] using hk)).stays h rfl (hset _) rfl rfl rfl rfl hlog rfl⟩
  · next l w h =>
    unfold produceFetching
    right
    split
    · next hr => exact ⟨_, (Acts.wait hr).stays h rfl (hset _) rfl rfl rfl rfl hlog rfl⟩
    · next hr => exact ⟨_, (Acts.missing hr).closes h rfl rfl rfl rfl rfl rfl rfl rfl rfl rfl⟩
    · next hr => exact ⟨_, (Acts.found hr).stays h rfl (hset _) rfl rfl rfl rfl hlog rfl⟩
  · next f m h =>
    right
    rw [produceScript]
    rcases hi : Script.imports f.content with e | imports
    · exact ⟨_, (Acts.fault hi).closes h rfl rfl rfl rfl rfl rfl rfl rfl hlog rfl⟩
    · exact ⟨_, (Acts.parse hi).stays h rfl (hset _) rfl rfl rfl rfl hlog rfl⟩
  · next w m h =>
    unfold produceRewriting
    split
    · next hl => exact Or.inr ⟨_, (Acts.give hl).closes h rfl rfl rfl rfl rfl rfl rfl rfl hlog rfl⟩
    · next o left hl =>
      split
      · next hs =>
        refine Or.inl ⟨rfl, fun p hp => Or.inr ⟨w, m, o, left, ?_, hl, hs⟩⟩
        exact Option.some.inj (hp.symm.trans h)
      · next w' o hs =>
        right
        cases o with
        | none => exact ⟨_, (Acts.settle hs).stays h rfl (hset _) rfl rfl rfl rfl hlog rfl⟩
        | some o => exact ⟨_, (Acts.settle hs).stays h rfl (hset _) rfl rfl rfl rfl hlog rfl⟩
  · next h => exact Or.inl ⟨rfl, fun p hp => Or.inl (Option.some.inj (hp.symm.trans h))⟩
  · next h => exact Or.inl ⟨rfl, fun p hp => absurd (hp.symm.trans h) (by simp)⟩

theorem resolve_turns (r : Run) (i k : Nat) : r.resolve i k = r ∨ ∃ t, r.Turns i t (r.resolve i k) := by
  unfold resolve
  split
  · next w m h =>
    split
    · exact Or.inl rfl
    · next o hk =>
      right
      rcases hm : load r.cache o.stage.needsManifest m with ⟨c, m'⟩
      rcases hs : o.stage.step w.file.name (r.manifest? m') c with ⟨c', st, l⟩
      refine ⟨_, (Acts.resolve hk hm hs).stays h rfl ?_ ?_ ?_ ?_ ?_ ?_ ?_⟩ <;>
        cases l <;> simp [hs, spawn, become]
  · exact Or.inl rfl

theorem step_cases (r : Run) (m : Move) : r.Does m (r.step m) := by
  cases m with
  | produce i =>
    show r.Does (.produce i) (r.produce i)
    rcases r.produce_turns i with ⟨h, -⟩ | ⟨t, h⟩
    · rw [h]
      exact .rest
    · exact .turn h
  | resolve i k =>
    show r.Does (.resolve i k) (r.resolve i k)
    rcases r.resolve_turns i k with h | ⟨t, h⟩
    · rw [h]
      exact .rest
    · exact .turn h
  | answer n a => exact .answer n a
  | take =>
    unfold step
    dsimp only
    split
    · next e q h => exact .take h
    · exact .rest

end Cases

end Run

end BareImports.Build
