import BareImports.Cdn.Response
import BareImports.FileName
import BareImports.Json.Reader
import BareImports.Location
import BareImports.Version

/-!
# The cache in front of the CDN

A cache keeps every download that was ever started, which download an inexact version is resolved by, and which
download or file answers for a `pkg@version/path`. Callers that need the same thing wait for the same download.

* `Download`: a request, in flight or done;
* `Cache`: the downloads and the two tables;
* `Goal`: what a call is after, `Wait` what it waits for, `Status` where it stands;
* `Cache.start`, `Cache.resume`: what a call does until it has to wait;
* `Cache.complete`: what the answer to a request changes.
-/

namespace BareImports.Cdn

open Text

/-- A request to the CDN. -/
structure Download where
  /-- The location that is asked for. -/
  location : Location
  /-- Whether the version of its range is being found out by it. -/
  resolves : Bool
  /-- What it came to, `none` while it is in flight. -/
  outcome : Option (Except Failure Fetched)

/-- What answers for a location. -/
inductive Source
  /-- The download with this number. -/
  | download (n : Nat)
  /-- A file that another request led to. -/
  | known (f : Fetched)

/-- The state of the cache. -/
structure Cache where
  /-- The base URL, which ends with a slash. -/
  base : String
  /-- Every request that was started, in order. -/
  downloads : List Download := []
  /-- The download that resolves each inexact `pkg@version`, as long as it has not failed. -/
  versions : List (String × Nat) := []
  /-- What answers for each `pkg@version/path`. -/
  files : List (String × Source) := []

/-- A base URL with a slash at its end. -/
def withFinalSlash (url : String) : String := if endsWith "/" url.toList then url else url ++ "/"

/-- An empty cache. -/
def Cache.empty (url : String) : Cache := { base := withFinalSlash url }

/-- The location that a URL of the CDN names. -/
def parseUrl? (base url : String) : Option Location := (after? base url.toList).bind Location.parse?

/-- The location that a final URL names. -/
def readUrl (base url : String) : Except Failure Location :=
  match parseUrl? base url with
  | some l => .ok l
  | none => .error (.badUrl url)

/-- The manifest that a file holds. -/
def readManifest (f : Fetched) : Except Failure Value :=
  match Json.read f.file.content with
  | .ok (.map kvs) => .ok (.map kvs)
  | .error .tooManyDigits => .error .numberTooLong
  | _ => .error (.badManifest f.url f.file.content)

/-- What a call is after. -/
inductive Goal
  /-- The file of a location. -/
  | file
  /-- The exact version and concrete path of a location. -/
  | location
  /-- The manifest of a package. -/
  | manifest
  deriving BEq, DecidableEq, Repr

/-- The kind of result that a goal has. -/
abbrev Goal.Result : Goal → Type
  | .file => File
  | .location => Location
  | .manifest => Value

/-- What a fetched file means for a call. -/
def Goal.finish (base : String) : (g : Goal) → Except Failure Fetched → Except Failure g.Result
  | .file, r => r.map (·.file)
  | .location, r => r.bind fun f => readUrl base f.url
  | .manifest, r => r.bind readManifest

/-- The answer that needs no file: a location with an exact version and an extension is its own canonical one. -/
def Goal.immediate? : (g : Goal) → Location → Option g.Result
  | .location, l => if FileName.extension l.path.toList != [] then some l else none
  | .file, _ => none
  | .manifest, _ => none

/-- What a call waits for. -/
inductive Wait
  /-- Its first turn, at which it asks for this location. -/
  | turn (l : Location)
  /-- The version of a location, which the download with this number finds out; that may be all it needs. -/
  | version (l : Location) (n : Nat)
  /-- The same for a location whose file it needs. -/
  | request (l : Location) (n : Nat)
  /-- The outcome of the download with this number. -/
  | outcome (n : Nat)
  deriving BEq, DecidableEq, Repr

/-- Where a call stands. -/
inductive Status (g : Goal)
  /-- It has its result. -/
  | done (r : Except Failure g.Result)
  /-- It waits. -/
  | waiting (w : Wait)

namespace Cache

/-- What a download came to, `none` while it is in flight. -/
def outcome? (c : Cache) (n : Nat) : Option (Except Failure Fetched) := (c.downloads[n]?).bind (·.outcome)

/-- The version that a successful download resolved its range to. -/
def versionOf? (c : Cache) (n : Nat) : Option String :=
  match c.outcome? n with
  | some (.ok f) => (parseUrl? c.base f.url).map (·.version)
  | _ => none

/-- What is known about the version of a location. -/
inductive Known
  /-- It is exact, or resolved already. -/
  | exact (l : Location)
  /-- The download with this number is finding it out. -/
  | pending (n : Nat)
  /-- Nothing. -/
  | unknown

/-- Looks up the version of a location. -/
def version (c : Cache) (l : Location) : Known :=
  if Version.isExact l.version then .exact l
  else match c.versions.lookup l.pkgVersion with
    | none => .unknown
    | some n => match c.versionOf? n with
      | some v => .exact { l with version := v }
      | none => .pending n

/-- Starts a download, which resolves the version of its range if that is not exact. -/
def startDownload (c : Cache) (l : Location) (exact : Bool) : Cache :=
  let n := c.downloads.length
  { c with
    downloads := c.downloads ++ [⟨l, !exact, none⟩]
    versions := if exact then c.versions else (l.pkgVersion, n) :: c.versions
    files := (l.key, .download n) :: c.files }

/-- Waits for a download, or takes its outcome if it is done. -/
def await (c : Cache) (goal : Goal) (n : Nat) : Status goal :=
  match c.outcome? n with
  | some r => .done (goal.finish c.base r)
  | none => .waiting (.outcome n)

/-- What a call does for the file of a location: take what is there, wait for it, or start a download. -/
def obtain (c : Cache) (goal : Goal) (l : Location) (exact : Bool) : Cache × Status goal :=
  match c.files.lookup l.key with
  | some (.known f) => (c, .done (goal.finish c.base (.ok f)))
  | some (.download n) => (c, c.await goal n)
  | none =>
    let c' := c.startDownload l exact
    (c', c'.await goal c.downloads.length)

/-- Asks for the file of a location, under the version that is known for it. -/
def request (c : Cache) (goal : Goal) (l : Location) : Cache × Status goal :=
  match c.version l with
  | .exact l => c.obtain goal l true
  | .unknown => c.obtain goal l false
  | .pending n => (c, .waiting (.request l n))

/-- What a call does with a location whose version is known: that may be its answer. -/
def settle (c : Cache) (goal : Goal) (l : Location) : Cache × Status goal :=
  match goal.immediate? l with
  | some a => (c, .done (.ok a))
  | none => c.request goal l

/-- Starts a call. A call for a location looks its version up first, since it may need no file. -/
def start (c : Cache) (goal : Goal) (l : Location) : Cache × Status goal :=
  if goal == .location then match c.version l with
    | .exact l => c.settle goal l
    | .unknown => c.request goal l
    | .pending n => (c, .waiting (.version l n))
  else c.request goal l

/-- Goes on with a call as far as what it waits for is there. A resolution that failed is looked up again, since
another caller may have started a new one meanwhile. -/
def resume (c : Cache) (goal : Goal) : Wait → Cache × Status goal
  | .turn l => c.start goal l
  | .outcome n => (c, c.await goal n)
  | .version l n => match c.outcome? n, c.versionOf? n with
    | none, _ => (c, .waiting (.version l n))
    | some _, some v => c.settle goal { l with version := v }
    | some _, none => c.start goal l
  | .request l n => match c.outcome? n, c.versionOf? n with
    | none, _ => (c, .waiting (.request l n))
    | some _, some v => c.obtain goal { l with version := v } true
    | some _, none => c.request goal l

/-- The URL of a download. -/
def urlOf (c : Cache) (d : Download) : String := c.base ++ d.location.key

/-- What an answer makes of a download. -/
def judge (c : Cache) (d : Download) : Answer → Except Failure Fetched
  | .error f => .error f
  | .ok r =>
    if r.status != 200 then .error (.refused r.status r.text)
    else if d.resolves then (readUrl c.base r.url).map fun _ => r.fetched
    else .ok r.fetched

/-- The location under which a fetched file is kept too, if it differs from the one that was asked for. -/
def canonical? (c : Cache) (d : Download) (f : Fetched) : Option Location :=
  if d.resolves || f.url != c.urlOf d then parseUrl? c.base f.url else none

/-- Keeps a file under a further key unless something answers for that already. -/
def remember (c : Cache) (key : String) (f : Fetched) : Cache :=
  match c.files.lookup key with
  | some _ => c
  | none => { c with files := (key, .known f) :: c.files }

/-- The entries of a table but that of a key. -/
def without {β : Type} (key : String) (table : List (String × β)) : List (String × β) :=
  table.filter fun (k, _) => k != key

/-- Gives up the resolution of a range by a download. -/
def release (c : Cache) (d : Download) (n : Nat) : Cache :=
  let range := d.location.pkgVersion
  if d.resolves && c.versions.lookup range == some n then { c with versions := without range c.versions } else c

/-- Takes the answer to a download in flight. -/
def complete (c : Cache) (n : Nat) (answer : Answer) : Cache :=
  match c.downloads[n]? with
  | none => c
  | some d => match d.outcome with
    | some _ => c
    | none =>
      let r := c.judge d answer
      let c := { c with downloads := c.downloads.set n { d with outcome := some r } }
      match r with
      | .error _ => c.release d n
      | .ok f => match c.canonical? d f with
        | some l => c.remember l.key f
        | none => c

/-- The downloads in flight with their URLs, in the order in which they were started. -/
def inFlight (c : Cache) : List (Nat × String) :=
  c.downloads.zipIdx.filterMap fun (d, n) => if d.outcome.isNone then some (n, c.urlOf d) else none

end Cache

end BareImports.Cdn
