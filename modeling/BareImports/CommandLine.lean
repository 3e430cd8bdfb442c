import BareImports.Arguments.Command
import BareImports.Build.Run
import BareImports.Files.Project
import BareImports.Typings.Session

/-!
# Running commands

* `Network`: how files of the CDN are requested;
* `Console`: the files, what is logged from which level on, and what was printed;
* `Console.build`, `Console.types`: the two commands;
* `Console.run`: a command line, with what it came to in `Exit`.
-/

namespace BareImports

open Arguments Files

/-- How files of the CDN are requested, and how many requests have failed so far. -/
structure Network (m : Type → Type) where
  /-- A request. -/
  fetch : String → m Cdn.Answer
  /-- The number of failed requests. -/
  failed : m Nat

/-- What a command comes to. -/
inductive Outcome
  | success
  /-- A file could not be read or written. -/
  | fileError
  /-- Requests failed for want of a connection. -/
  | connectionError
  /-- There were diagnostics, and they count as failure. -/
  | diagnosed
  deriving BEq, DecidableEq, Repr

/-- The exit code of an outcome. -/
def Outcome.code : Outcome → Nat
  | success => 0
  | fileError => 1
  | connectionError => 2
  | diagnosed => 3

/-- What a command line comes to. -/
inductive Exit
  /-- A command that was run. -/
  | ran (o : Outcome)
  /-- No command. -/
  | stopped (s : Stop)
  /-- A fault for which no outcome provides. -/
  | broken (f : Log.Fault)

/-- The exit code of a command line. -/
def Exit.code : Exit → Nat
  | ran o => o.code
  | stopped .help => 0
  | stopped .usage => 2
  | broken _ => 1

/-- The files, the log and what was printed. -/
structure Console where
  /-- The files. -/
  tree : Files.Tree
  /-- The least rank that is logged. -/
  least : Nat := Log.Level.warning.rank
  /-- The place of the log file. -/
  logPlace : Option Place := none
  /-- What was logged. -/
  log : List Log.Entry := []
  /-- The diagnostics that were printed. -/
  printed : List String := []

namespace Console

/-- The line of an entry in a log file. -/
def logLine (e : Log.Entry) : List UInt8 := Text.Utf8.encode (e.level.name ++ " " ++ e.template ++ "\n").toList

/-- A console that has logged an entry, if its rank is great enough. -/
def note (c : Console) (e : Log.Entry) : Console :=
  if c.least ≤ e.level.rank then
    let tree := match c.logPlace with
      | some p => (c.tree.write p (· ++ logLine e)).1
      | none => c.tree
    { c with tree, log := c.log ++ [e] }
  else c

/-- A console that has logged entries. -/
def noteAll (c : Console) (es : List Log.Entry) : Console := es.foldl note c

/-- A console that has logged the warnings and errors among some entries. -/
def noteWarnings (c : Console) (es : List Log.Entry) : Console := c.noteAll (Log.visible Log.Level.warning.rank es)

/-- Information about a command. -/
def info (template : String) (args : List Log.Arg) : Log.Entry := ⟨.info, template, args, []⟩

/-- An error of a command. -/
def error (template : String) (args : List Log.Arg) : Log.Entry := ⟨.error, template, args, []⟩

/-- The level and the log file of the settings. -/
def configure (c : Console) (s : Settings) : Console × Option Log.Fault :=
  let c := { c with least := Log.threshold (some s.logLevel) none, logPlace := none }
  match s.logFile with
  | none => (c, none)
  | some path =>
    let p := c.tree.placeOf path.toList
    match c.tree.write p id with
    | (_, some f) => (c, some f)
    | (tree, none) => ({ c with tree, logPlace := some p }.note (info "Logging to file: %s" [.text path]), none)

/-- The end of a command by a fault: one of access is reported, any other is not provided for. -/
def stop (c : Console) (f : Log.Fault) : Exit × Console :=
  if f == .notAccessible then (.ran .fileError, c.note (error "File error: %s" [.fault f])) else (.broken f, c)

/-- Writes the files of a command. -/
def write (c : Console) (output : String) (files : List (String × String)) : Console × Option Log.Fault :=
  let (tree, log, fault) := Files.writeAll output files c.tree
  ({ c with tree }.noteAll log, fault)

/-- The end of a command that has written its files: failed requests count before diagnostics. -/
def finish (c : Console) (s : Settings) (failed : Nat) (diagnosed : Bool) : Exit × Console :=
  if failed != 0 then
    (.ran .connectionError,
      c.note (error "%d CDN requests failed; check connectivity to %s" [.count failed, .text s.cdnUrl]))
  else (.ran (if diagnosed then .diagnosed else .success), c)

/-! ## Builds -/

/-- The files among outputs by name: the last one of a name counts. -/
def filesOf (outputs : List Build.Output) : List (String × String) :=
  outputs.foldl (fun t o => match o with
    | .file f => Table.put t f.name f.content
    | .diagnostic .. => t) []

/-- The lines of the diagnostics among outputs. -/
def diagnosticsOf (outputs : List Build.Output) : List String := outputs.filterMap fun
  | .diagnostic name d => some (d.line name)
  | .file _ => none

/-- Rewrites the modules of a folder into the output folder. -/
def build {m : Type → Type} [Monad m] (net : Network m) (s : Settings) (source : String) (o : Options) (c : Console) :
    m (Exit × Console) := do
  if !c.tree.isFolder source.toList then
    return (.ran .fileError, c.note (error "Source directory not found: %s" [.text source]))
  match Project.load c.tree source (some o.output) with
  | .error f => return c.stop f
  | .ok (project, warnings) =>
    let (map, more) := s.mapping
    let start : Build.Run := { map, cache := .empty s.cdnUrl }
    let (outputs, run) ← start.process net.fetch (project.map .file) false
    let failed ← net.failed
    let files := filesOf outputs
    let lines := diagnosticsOf outputs
    match (c.noteAll (warnings ++ more)).noteWarnings run.log |>.write o.output files with
    | (c, some f) => return c.stop f
    | (c, none) =>
      let c := { c with printed := c.printed ++ lines }
      let c := c.note (info "Wrote %d files to %s (%d diagnostics)"
        [.count files.length, .text o.output, .count lines.length])
      return c.finish s failed (!lines.isEmpty && o.failOnWarnings)

/-! ## Typings -/

/-- The texts of sources, up to the first fault. -/
def readSources (t : Files.Tree) (paths : List String) : Except Log.Fault (List String) :=
  paths.mapM fun p => return String.ofList (← t.text p.toList)

/-- The manifest at a path, if it is one, and a warning if it is none. -/
def readManifest (t : Files.Tree) (path : Option String) : Except Log.Fault (Option Value × List Log.Entry) :=
  match Log.given? path with
  | none => .ok (none, [])
  | some path => do
    let text := String.ofList (← t.text path.toList)
    match Json.read text with
    | .ok (.map kvs) => return (some (.map kvs), [])
    | .ok _ => return (none, [Log.warn "Ignoring %s: expected an object" [.text path]])
    | .error .malformed => return (none, [Log.warn "Ignoring invalid %s: %s" [.text path, .fault .notJson]])
    | .error .tooManyDigits => throw .badValue

/-- Collects the typings that sources and standard libraries need into the output folder. -/
def types {m : Type → Type} [Monad m] (net : Network m) (s : Settings) (paths : List String) (manifest : Option String)
    (libs : List String) (o : Options) (c : Console) : m (Exit × Console) := do
  let inputs : Except Log.Fault (List String × Option Value × List Log.Entry) := do
    let sources ← readSources c.tree paths
    return (sources, ← readManifest c.tree manifest)
  match inputs with
  | .error f => return c.stop f
  | .ok (sources, manifest, warnings) =>
    let (map, more) := s.mapping
    let start : Typings.Session := { map, cache := .empty s.cdnUrl }
    let start := sources.foldl (fun t text => t.addSource text manifest) start
    let session ← (libs.foldl (fun t lib => t.addLib lib manifest) start).finish net.fetch
    let failed ← net.failed
    let files := session.files
    match (c.noteAll (warnings ++ more)).noteWarnings session.log |>.write o.output files with
    | (c, some f) => return c.stop f
    | (c, none) =>
      let c := c.note (info "Wrote %d typings files to %s" [.count files.length, .text o.output])
      return c.finish s failed false

/-! ## Command lines -/

/-- Runs a command with its settings. -/
def perform {m : Type → Type} [Monad m] (net : Network m) (s : Settings) (cmd : Command) (c : Console) :
    m (Exit × Console) :=
  match cmd with
  | .build source o => build net s source o c
  | .types files manifest libs o => types net s files manifest libs o c

/-- Runs the command that the words of a command line give. -/
def run {m : Type → Type} [Monad m] (net : Network m) (words : List String) (c : Console) : m (Exit × Console) :=
  match Command.parse words with
  | .error s => return (.stopped s, c)
  | .ok cmd => match Settings.effective c.tree cmd.options.overrides with
    | .error (f, log) => return (.broken f, c.noteAll log)
    | .ok (s, log) => match (c.noteAll log).configure s with
      | (c, some f) => return (.broken f, c)
      | (c, none) => perform net s cmd c

end Console

end BareImports
