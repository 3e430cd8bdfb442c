import BareImports.Build.Rewriting
import BareImports.Json.Reader
import BareImports.Merge.Basic

/-!
# Rewriting a build

The outputs of a build, the files that they need and the files that those need are producers of one stream.

* `Producer`: what adds to the stream;
* `Run`: the cache, the producers, the stream and the dependencies that were begun;
* `Move`: the moves, in any order: a producer goes on, a resolution goes on, a request is answered, an output is taken;
* `Run.step`: what a move does;
* `Run.process`: moves by turns until the stream ends.
-/

namespace BareImports.Build

open Text Cdn Script

/-- Where the ranges of a file's specifiers come from. -/
inductive ManifestSource
  /-- The manifest of the project, which the build gives. -/
  | project
  /-- The manifest of a package, which is being fetched or will be when it is needed. -/
  | loading (w : Wait)
  /-- A manifest, or none. -/
  | known (m : Option Value)

/-- The manifest source of a dependency file. -/
def ManifestSource.ofPackage (l : Location) : ManifestSource := .loading (.turn { l with path := Manifest.fileName })

/-- What adds to the stream. -/
inductive Producer
  /-- The outputs of the build that are left; at their end there may be an accident. -/
  | source (items : List Output) (fails : Bool)
  /-- A dependency that is to be fetched. -/
  | dependency (l : Location)
  /-- A dependency that is being fetched. -/
  | fetching (l : Location) (w : Wait)
  /-- A file that is to be read as a script. -/
  | script (f : File) (m : ManifestSource)
  /-- A file that is being rewritten. -/
  | rewriting (r : Rewriting) (m : ManifestSource)
  /-- Nothing more. -/
  | ended

/-- The state of a rewriting. -/
structure Run where
  /-- The import map. -/
  map : ImportMap
  /-- The cache in front of the CDN. -/
  cache : Cache
  /-- The dependencies that were begun, by `pkg@version/path`. -/
  handled : List String := []
  /-- The manifest of the project, once it is known. -/
  project : Option (Option Value) := none
  /-- The producers. -/
  producers : List Producer := []
  /-- The stream. -/
  merge : Merge Output := {}
  /-- What was logged. -/
  log : List Log.Entry := []

/-- A move. -/
inductive Move
  /-- A producer goes on. -/
  | produce (i : Nat)
  /-- The resolution of one of a producer's open specifiers goes on. -/
  | resolve (i k : Nat)
  /-- A request is answered. -/
  | answer (n : Nat) (a : Answer)
  /-- The consumer takes the oldest entry of the stream. -/
  | take

namespace Run

/-- Whether a file of the build is rewritten. -/
def isScript (f : File) : Bool := FileName.isScript f.name.toList

/-- A further producer. -/
def spawn (r : Run) (p : Producer) : Run := { r with producers := r.producers ++ [p], merge := r.merge.add }

/-- Another state of a producer. -/
def become (r : Run) (i : Nat) (p : Producer) : Run := { r with producers := r.producers.set i p }

/-- An output. -/
def emit (r : Run) (o : Output) : Run := { r with merge := r.merge.put o }

/-- The end of a producer. -/
def close (r : Run) (i : Nat) : Run := { r.become i .ended with merge := r.merge.close }

/-- A log entry. -/
def note (r : Run) (e : Log.Entry) : Run := { r with log := r.log ++ [e] }

/-- The end of a producer by an accident. -/
def abort (r : Run) (i : Nat) : Run := (r.close i).note ⟨.error, "Merged producer failed", [], []⟩

/-- The project has no manifest, unless it has been given one. -/
def settleProject (r : Run) : Run := { r with project := some (r.project.getD none) }

/-- The manifest of the project is given as a text; the log entry that it causes, if any. -/
def readProject (content : String) : Except Json.Fault (Option Value × Option Log.Entry) :=
  match Json.read content with
  | .ok (.map kvs) => .ok (some (.map kvs), none)
  | .ok _ => .ok (none, some (Log.warn "Invalid package.json: expected an object" []))
  | .error .malformed => .ok (none, some (Log.warn "Invalid package.json: %s" [.fault .notJson]))
  | .error .tooManyDigits => .error .tooManyDigits

/-- The source of the build goes on by one output. -/
def produceSource (r : Run) (i : Nat) (items : List Output) (fails : Bool) : Run :=
  match items with
  | [] => if fails then r.settleProject.abort i else r.settleProject.close i
  | o :: rest =>
    let next := r.become i (.source rest fails)
    match o with
    | .diagnostic .. => next.emit o
    | .file f =>
      if isScript f then next.spawn (.script f .project)
      else if f.name == Manifest.fileName && r.project.isNone then
        match readProject f.content with
        | .error _ => r.settleProject.abort i
        | .ok (m, e) =>
          let next := { next with project := some m }
          (e.elim next next.note).emit o
      else next.emit o

/-- A dependency is begun, unless it was before. -/
def produceDependency (r : Run) (i : Nat) (l : Location) : Run :=
  let key := l.pkg ++ "@" ++ l.version ++ "/" ++ l.path
  if r.handled.contains key then r.close i
  else { r.become i (.fetching l (.turn l)) with handled := key :: r.handled }

/-- A dependency is fetched. -/
def produceFetching (r : Run) (i : Nat) (l : Location) (w : Wait) : Run :=
  match r.cache.resume .file w with
  | (cache, .waiting w) => { r.become i (.fetching l w) with cache }
  | (cache, .done (.error f)) =>
    let key := l.pkg ++ "@" ++ l.version ++ "/" ++ l.path
    ({ r with cache }.close i).note (Log.warn "Could not fetch dependency %s: %s" [.text key, .failure f])
  | (cache, .done (.ok f)) =>
    { r.become i (.script ⟨fileName l, f.content, some f.contentType⟩ (.ofPackage l)) with cache }

/-- What becomes of a file with the specifiers or the fault that reading it as a script has found. -/
def takeScript (r : Run) (i : Nat) (f : File) (m : ManifestSource) : Except SyntaxFault (List Import) → Run
  | .ok imports => r.become i (.rewriting (.start r.map f imports) m)
  | .error fault => ((r.emit (.file f)).emit (.diagnostic f.name (syntaxReport fault))).close i

/-- A file is read as a script. -/
def produceScript (r : Run) (i : Nat) (f : File) (m : ManifestSource) : Run :=
  r.takeScript i f m (Script.imports f.content)

/-- A file is rewritten by one specifier, or given when none is left. -/
def produceRewriting (r : Run) (i : Nat) (w : Rewriting) (m : ManifestSource) : Run :=
  match w.left with
  | [] => (r.emit w.output).close i
  | _ :: _ => match w.settle? with
    | none => r
    | some (w, o) => o.elim (r.become i (.rewriting w m)) (r.become i (.rewriting w m)).emit

/-- A producer goes on. -/
def produce (r : Run) (i : Nat) : Run :=
  match r.producers[i]? with
  | some (.source items fails) => r.produceSource i items fails
  | some (.dependency l) => r.produceDependency i l
  | some (.fetching l w) => r.produceFetching i l w
  | some (.script f m) => r.produceScript i f m
  | some (.rewriting w m) => r.produceRewriting i w m
  | some .ended | none => r

/-- The manifest of a package is fetched, if it is needed. -/
def load (c : Cache) (needed : Bool) : ManifestSource → Cache × ManifestSource
  | .loading w =>
    if needed then
      match c.resume .manifest w with
      | (c, .waiting w) => (c, .loading w)
      | (c, .done r) => (c, .known r.toOption)
    else (c, .loading w)
  | m => (c, m)

/-- The manifest, as far as it is known. -/
def manifest? (r : Run) : ManifestSource → Option (Option Value)
  | .project => r.project
  | .loading _ => none
  | .known m => some m

/-- The resolution of one of a producer's open specifiers goes on. -/
def resolve (r : Run) (i k : Nat) : Run :=
  match r.producers[i]? with
  | some (.rewriting w m) => match w.left[k]? with
    | none => r
    | some o =>
      let (c, m) := load r.cache o.stage.needsManifest m
      let (c, stage, found) := o.stage.step w.file.name (r.manifest? m) c
      let w := { w with left := w.left.set k { o with stage } }
      let r := { r.become i (.rewriting w m) with cache := c }
      found.elim r fun l => r.spawn (.dependency l)
  | _ => r

/-- What a move does. -/
def step (r : Run) : Move → Run
  | .produce i => r.produce i
  | .resolve i k => r.resolve i k
  | .answer n a => { r with cache := r.cache.complete n a }
  | .take => match r.merge.take? with
    | some (_, merge) => { r with merge }
    | none => r

/-- The open specifiers of a producer. -/
def openCount (r : Run) (i : Nat) : Nat :=
  match r.producers[i]? with
  | some (.rewriting w _) => w.left.length
  | _ => 0

/-- Every resolution and every producer goes on. -/
def sweep (r : Run) : Run :=
  (List.range r.producers.length).foldl (fun r i =>
    ((List.range (r.openCount i)).foldl (fun r k => r.step (.resolve i k)) r).step (.produce i)) r

/-- Every request in flight is answered. -/
def answerAll {m : Type → Type} [Monad m] (fetch : String → m Answer) (r : Run) : m Run :=
  r.cache.inFlight.foldlM (fun r (n, url) => do return r.step (.answer n (← fetch url))) r

/-- Moves by turns until the stream ends, or the fuel. -/
def read {m : Type → Type} [Monad m] (fetch : String → m Answer) : Nat → Run → m (List Output × Run)
  | 0, r => return ([], r)
  | fuel + 1, r => do
    let (items, merge) := r.merge.drain
    let r := { r with merge }
    if merge.isOver then return (items, r)
    let r ← r.sweep.answerAll fetch
    let (more, r) ← read fetch fuel r
    return (items ++ more, r)

/-- How many turns a batch may take. -/
def turnLimit : Nat := 1000000

/-- The state in which a batch of outputs begins: what was fetched and begun before stays. -/
def begin (r : Run) (items : List Output) (fails : Bool) : Run :=
  { r with producers := [], project := none }.spawn (.source items fails)

/-- Rewrites a batch of outputs. -/
def process {m : Type → Type} [Monad m] (fetch : String → m Answer) (r : Run) (items : List Output) (fails : Bool) :
    m (List Output × Run) :=
  read fetch turnLimit (r.begin items fails)

end Run

end BareImports.Build
