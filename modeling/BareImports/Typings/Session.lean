import BareImports.Cdn.Cache
import BareImports.ImportMap
import BareImports.Json.Reader
import BareImports.Placement
import BareImports.Table
import BareImports.Typings.Crawl

/-!
# Crawling declaration files

Crawls start from the sources of a project and follow the references of each declaration file that they find. Every
package is pinned to an exact version, and which version each package version depends on is kept.

* `Asset`: a file that is being fetched, or its content;
* `Stage`, `Crawl`: how far a reference is followed;
* `Session`: the cache, the assets, the crawls and what they have found;
* `Move`: the moves, in any order: a crawl goes on, an asset goes on, a request is answered;
* `Session.step`: what a move does; `Session.finish`: moves by turns until every crawl has ended;
* `Session.files`: the declaration files, laid out as nested package directories.
-/

namespace BareImports.Typings

open Text Cdn

/-- A file that is being fetched, or its content if it could be. -/
inductive Asset
  /-- It is being fetched. -/
  | loading (w : Wait)
  /-- Its content, `none` if it could not be fetched. -/
  | known (content : Option String)

/-- Where the ranges of bare references come from. -/
inductive ManifestSource
  /-- A manifest, or none. -/
  | given (m : Option Value)
  /-- The manifest of a package version. -/
  | package (p : PackageVersion)

/-- How far a reference is followed. -/
inductive Stage
  /-- A bare specifier has not been looked at. -/
  | bare (specifier : String)
  /-- The manifest is to tell the range of a package. -/
  | range (l : Location)
  /-- The CDN is to tell the exact version of a package. -/
  | version (l : Location) (w : Wait)
  /-- The package's own manifest is to tell its declaration file. -/
  | entry (l : Location)
  /-- A declaration file of a package is being fetched; `whole` tells whether it stands for the package. -/
  | declaration (l : Location) (whole : Bool)
  /-- The files that a relative reference may mean are tried in turn. -/
  | relative (candidates : List Location)
  /-- The end, by an accident or not. -/
  | ended (accident : Option Failure)

/-- A reference that is being followed. -/
structure Crawl where
  /-- How far it is followed. -/
  stage : Stage
  /-- Where ranges come from. -/
  manifest : ManifestSource
  /-- The package version whose dependency it is, `none` for the project itself. -/
  referrer : Option PackageVersion
  /-- The package whose declaration file has it, `none` for a source of the project. -/
  within : Option String

/-- The state of the crawling. -/
structure Session where
  /-- The import map. -/
  map : ImportMap
  /-- The cache in front of the CDN. -/
  cache : Cache
  /-- The crawls. -/
  crawls : List Crawl := []
  /-- The declaration files whose references are followed. -/
  handled : List Location := []
  /-- The files that were asked for. -/
  assets : List (Location × Asset) := []
  /-- The packages that the project itself depends on. -/
  roots : List (String × String) := []
  /-- The packages that package versions depend on. -/
  graph : Graph := []
  /-- What was logged. -/
  log : List Log.Entry := []

/-- A move. -/
inductive Move
  /-- A crawl goes on. -/
  | crawl (i : Nat)
  /-- The fetching of a file goes on. -/
  | load (j : Nat)
  /-- A request is answered. -/
  | answer (n : Nat) (a : Answer)

namespace Session

/-- A log entry. -/
def note (s : Session) (e : Log.Entry) : Session := { s with log := s.log ++ [e] }

/-- A crawl in another stage. -/
def become (s : Session) (i : Nat) (c : Crawl) (stage : Stage) : Session :=
  { s with crawls := s.crawls.set i { c with stage } }

/-- The entry for a crawl that ended by an accident. -/
def accident (activity : String) (f : Failure) : Log.Entry :=
  Log.warn "%s failed: %s" [.text activity, .failure f]

/-- The end of a crawl. An accident inside a package is logged; those of the project's own crawls are reported when
the files are asked for. -/
def stop (s : Session) (i : Nat) (c : Crawl) (f : Option Failure) : Session :=
  let s := s.become i c (.ended f)
  match f, c.within with
  | some f, some pkg => s.note (accident ("Typings crawl from " ++ pkg) f)
  | _, _ => s

/-- A file of a package, `none` while it is not known. It is asked for if it has not been. -/
def asset (s : Session) (l : Location) : Session × Option (Option String) :=
  match s.assets.lookup l with
  | some (.known content) => (s, some content)
  | some (.loading _) => (s, none)
  | none => ({ s with assets := s.assets ++ [(l, .loading (.turn l))] }, none)

/-- The manifest in a text; a text that is no mapping counts as none. -/
def readManifest (content : Option String) : Except Failure (Option Value) :=
  match content with
  | none => .ok none
  | some text => match Json.read text with
    | .ok (.map kvs) => .ok (some (.map kvs))
    | .error .tooManyDigits => .error .numberTooLong
    | _ => .ok none

/-- The manifest of a package version, `none` while it is not known. -/
def packageManifest (s : Session) (p : PackageVersion) : Session × Option (Except Failure (Option Value)) :=
  let (s, content) := s.asset ⟨p.pkg, p.version, Manifest.fileName⟩
  (s, content.map readManifest)

/-- The manifest that tells ranges, `none` while it is not known. -/
def rangeManifest (s : Session) : ManifestSource → Session × Option (Except Failure (Option Value))
  | .given m => (s, some (.ok m))
  | .package p => s.packageManifest p

/-- Keeps the version of a dependency. The first one of the project wins; a package is no dependency of itself. -/
def record (s : Session) (referrer : Option PackageVersion) (pkg version : String) : Session :=
  match referrer with
  | none => match s.roots.lookup pkg with
    | none => { s with roots := s.roots ++ [(pkg, version)] }
    | some kept =>
      if kept == version then s
      else s.note (Log.warn "Conflicting root versions of %s: keeping %s, ignoring %s"
        [.text pkg, .text kept, .text version])
  | some r =>
    if r.pkg == pkg then s
    else { s with graph := Table.update r.pkg (fun versions =>
      Table.update r.version (fun deps => Table.put (deps.getD []) pkg version) (versions.getD [])) s.graph }

/-- A crawl for a reference. -/
def Crawl.ofReference (referrer : Option Location) (manifest : ManifestSource) (r : Reference) : Crawl :=
  let within := referrer.map (·.pkg)
  match r with
  | .bare specifier => ⟨.bare specifier, manifest, referrer.map fun l => ⟨l.pkg, l.version⟩, within⟩
  | .lib name => ⟨.bare (libSpecifier name), manifest, none, within⟩
  | .relative reference =>
    let found := referrer.toList.flatMap fun l => (candidates reference.toList).filterMap (locate? l)
    ⟨.relative found, manifest, none, within⟩

/-- The references of a declaration file are followed, and the crawl that found it ends. -/
def follow (s : Session) (i : Nat) (c : Crawl) (l : Location) (manifest : ManifestSource) (content : String) :
    Session :=
  let s := s.stop i c none
  { s with crawls := s.crawls ++ (references content).map (Crawl.ofReference (some l) manifest) }

/-- A package has no declarations of its own: its types package is tried instead, unless it is one. -/
def fallBack (s : Session) (i : Nat) (c : Crawl) (pkg : String) : Session :=
  if startsWith typesScope pkg.toList then s.stop i c none
  else s.become i c (.bare (typesPackage pkg))

/-- The exact version of a package is known. -/
def pin (s : Session) (i : Nat) (c : Crawl) (l : Location) : Session :=
  let s := s.record c.referrer l.pkg l.version
  if l.path.isEmpty then s.become i c (.entry l)
  else
    let l := { l with path := String.ofList (Manifest.toDeclaration l.path.toList) }
    if s.handled.contains l then s.stop i c none
    else { s.become i c (.declaration l false) with handled := l :: s.handled }

/-- The range of a package is known. -/
def withRange (s : Session) (i : Nat) (c : Crawl) (l : Location) : Session :=
  if Version.isExact l.version then s.pin i c l
  else s.become i c (.version l (.turn { l with path := Manifest.fileName }))

/-- A bare specifier is looked at. -/
def crawlBare (s : Session) (i : Nat) (c : Crawl) (specifier : String) : Session :=
  if (s.map.resolve specifier).isSome then s.stop i c none
  else match Location.parse? specifier.toList with
    | none => (s.stop i c none).note (Log.warn "Ignoring invalid module specifier %r" [.text specifier])
    | some l => if l.version.isEmpty then s.become i c (.range l) else s.withRange i c l

/-- The manifest tells the range of a package. -/
def crawlRange (s : Session) (i : Nat) (c : Crawl) (l : Location) : Session :=
  match s.rangeManifest c.manifest with
  | (s, none) => s
  | (s, some (.error f)) => s.stop i c (some f)
  | (s, some (.ok m)) => s.withRange i c { l with version := (Manifest.range? m l.pkg).getD Location.defaultVersion }

/-- The CDN tells the exact version of a package. -/
def crawlVersion (s : Session) (i : Nat) (c : Crawl) (l : Location) (w : Wait) : Session :=
  match s.cache.resume .location w with
  | (cache, .waiting w) => { s.become i c (.version l w) with cache }
  | (cache, .done (.ok exact)) => { s with cache }.pin i c { l with version := exact.version }
  | (cache, .done (.error f)) =>
    let s := { s with cache }
    if !f.isExpected then s.stop i c (some f)
    else if l.path.isEmpty then s.fallBack i c l.pkg
    else s.stop i c none

/-- The package's own manifest tells its declaration file. -/
def crawlEntry (s : Session) (i : Nat) (c : Crawl) (l : Location) : Session :=
  match s.packageManifest ⟨l.pkg, l.version⟩ with
  | (s, none) => s
  | (s, some (.error f)) => s.stop i c (some f)
  | (s, some (.ok m)) =>
    let l := { l with path := Manifest.declarations m }
    if s.handled.contains l then s.stop i c none
    else { s.become i c (.declaration l true) with handled := l :: s.handled }

/-- The declaration file of a package is read. -/
def crawlDeclaration (s : Session) (i : Nat) (c : Crawl) (l : Location) (whole : Bool) : Session :=
  match s.asset l with
  | (s, none) => s
  | (s, some (some content)) => s.follow i c l (.package ⟨l.pkg, l.version⟩) content
  | (s, some none) => if whole then s.fallBack i c l.pkg else s.stop i c none

/-- The files that a relative reference may mean are tried in turn. -/
def crawlRelative (s : Session) (i : Nat) (c : Crawl) (found : List Location) : Session :=
  match found with
  | [] => s.stop i c none
  | l :: rest => match s.asset l with
    | (s, none) => s
    | (s, some none) => s.become i c (.relative rest)
    | (s, some (some content)) =>
      if s.handled.contains l then s.stop i c none
      else { s with handled := l :: s.handled }.follow i c l c.manifest content

/-- A crawl goes on. -/
def crawl (s : Session) (i : Nat) : Session :=
  match s.crawls[i]? with
  | none => s
  | some c => match c.stage with
    | .bare specifier => s.crawlBare i c specifier
    | .range l => s.crawlRange i c l
    | .version l w => s.crawlVersion i c l w
    | .entry l => s.crawlEntry i c l
    | .declaration l whole => s.crawlDeclaration i c l whole
    | .relative found => s.crawlRelative i c found
    | .ended _ => s

/-- The entry for a file that could not be fetched by an accident. -/
def unexpected (l : Location) (f : Failure) : Log.Entry :=
  Log.warn "Unexpected error fetching %s@%s/%s: %s" [.text l.pkg, .text l.version, .text l.path, .failure f]

/-- The fetching of a file goes on. -/
def load (s : Session) (j : Nat) : Session :=
  match s.assets[j]? with
  | some (l, .loading w) => match s.cache.resume .file w with
    | (cache, .waiting w) => { s with cache, assets := s.assets.set j (l, .loading w) }
    | (cache, .done (.ok f)) => { s with cache, assets := s.assets.set j (l, .known (some f.content)) }
    | (cache, .done (.error f)) =>
      let s := { s with cache, assets := s.assets.set j (l, .known none) }
      if f.isExpected then s else s.note (unexpected l f)
  | _ => s

/-- What a move does. -/
def step (s : Session) : Move → Session
  | .crawl i => s.crawl i
  | .load j => s.load j
  | .answer n a => { s with cache := s.cache.complete n a }

/-- Crawls for the references of a source of the project. -/
def addSource (s : Session) (text : String) (manifest : Option Value) : Session :=
  { s with crawls := s.crawls ++ (entryReferences text).map (Crawl.ofReference none (.given manifest)) }

/-- A crawl for a standard library. -/
def addLib (s : Session) (lib : String) (manifest : Option Value) : Session :=
  { s with crawls := s.crawls ++ [Crawl.ofReference none (.given manifest) (.lib lib)] }

/-- Whether a crawl has ended. -/
def Crawl.isOver (c : Crawl) : Bool :=
  match c.stage with
  | .ended _ => true
  | _ => false

/-- Whether a file is being fetched. -/
def Asset.isLoading : Asset → Bool
  | .loading _ => true
  | .known _ => false

/-- Whether nothing is left to do. -/
def isOver (s : Session) : Bool := s.crawls.all Crawl.isOver && !s.assets.any fun (_, a) => Asset.isLoading a

/-- Every crawl and every file goes on. -/
def sweep (s : Session) : Session :=
  let s := (List.range s.crawls.length).foldl (fun s i => s.step (.crawl i)) s
  (List.range s.assets.length).foldl (fun s j => s.step (.load j)) s

/-- Every request in flight is answered. -/
def answerAll {m : Type → Type} [Monad m] (fetch : String → m Answer) (s : Session) : m Session :=
  s.cache.inFlight.foldlM (fun s (n, url) => do return s.step (.answer n (← fetch url))) s

/-- Moves by turns until nothing is left to do, or the fuel. -/
def run {m : Type → Type} [Monad m] (fetch : String → m Answer) : Nat → Session → m Session
  | 0, s => return s
  | fuel + 1, s => do if s.isOver then return s else run fetch fuel (← s.sweep.answerAll fetch)

/-- How many turns the crawling may take. -/
def turnLimit : Nat := 1000000

/-- The accidents by which crawls of the project's own references ended. -/
def accidents (s : Session) : List Failure := s.crawls.filterMap fun c => match c.within, c.stage with
  | none, .ended f => f
  | _, _ => none

/-- Crawls to the end and reports the accidents. -/
def finish {m : Type → Type} [Monad m] (fetch : String → m Answer) (s : Session) : m Session := do
  let s ← run fetch turnLimit s
  return { s with log := s.log ++ s.accidents.map (accident "Typings crawl") }

/-- The files of a package version that were fetched. -/
def contents (s : Session) (pkg version : String) : List (String × String) := s.assets.filterMap fun
  | (l, .known (some content)) => if l.pkg == pkg && l.version == version then some (l.path, content) else none
  | _ => none

/-- The folder of a copy of a package. -/
def folder (p : Placed) : String := "/node_modules/".intercalate p.trail.reverse ++ "/"

/-- The files of a copy of a package; a manifest that was not fetched is written empty. -/
def filesOf (s : Session) (p : Placed) : List (String × String) :=
  let fetched := s.contents p.pkg p.version
  let stub := if (fetched.lookup Manifest.fileName).isSome then [] else [(Manifest.fileName, "\x7b\x7d")]
  (fetched ++ stub).map fun (path, content) => (folder p ++ path, content)

/-- The declaration files and manifests, laid out as nested package directories. -/
def files (s : Session) : List (String × String) :=
  ((Layout.place s.roots s.graph).flatMap s.filesOf).foldl (fun t (k, v) => Table.put t k v) []

end Session

end BareImports.Typings
