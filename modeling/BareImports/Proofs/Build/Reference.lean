import BareImports.Build.Run
import BareImports.Proofs.Location.Key

/-!
# A build rewritten in order

The same results without caches, producers and turns: each specifier is resolved by requests of its own, each file is
rewritten at once.

* `Site`: a base URL and a CDN that has one answer for each URL;
* `Site.resolve`: what replaces a specifier, and the location that it leads to;
* `Site.rewrite`, `Site.needs`: what a file gives, and the locations that its specifiers lead to;
* `Site.Reachable`: the locations that the outputs of a project lead to;
* `Site.reference`: what a build gives in all;
* `Site.Consistent`: an inexact range is served like an exact version, and final URLs answer for themselves.
-/

namespace BareImports.Build

open Text Cdn

/-- A CDN that has one answer for each URL. -/
structure Site where
  /-- The base URL, which ends with a slash. -/
  base : String
  /-- The answer to a request for a URL. -/
  cdn : String → Answer

namespace Site

variable (S : Site)

/-! ## Resolving a specifier -/

/-- The file that a URL leads to. -/
def get (url : String) : Except Failure Fetched :=
  match S.cdn url with
  | .error f => .error f
  | .ok r => if r.status != 200 then .error (.refused r.status r.text) else .ok r.fetched

/-- The file that the URL of a location leads to. -/
def fetch (l : Location) : Except Failure Fetched := S.get (S.base ++ l.key)

/-- The manifest of the package of a location. -/
def manifest (l : Location) : Except Failure Value :=
  (S.fetch { l with path := Manifest.fileName }).bind readManifest

/-- A location whose file has to be there, with what replaces the specifier. -/
def content (l : Location) (replacement : String) : Except Failure (String × Option Location) :=
  (S.fetch l).map fun _ => (replacement, some l)

/-- A location of which the CDN tells the exact version and path. -/
def canonical (referrer : String) (l : Location) : Except Failure (String × Option Location) :=
  ((S.fetch l).bind fun f => readUrl S.base f.url).bind fun l => S.content l (Stage.reaching referrer l)

/-- A location with a version and a path. -/
def withPath (referrer : String) (l : Location) : Except Failure (String × Option Location) :=
  if (FileName.extension l.path.toList).isEmpty || !Version.isExact l.version then S.canonical referrer l
  else S.content l (Stage.reaching referrer l)

/-- A location of which the package's own manifest tells the path. -/
def withEntry (referrer : String) (l : Location) : Except Failure (String × Option Location) :=
  (S.manifest l).bind fun m => S.withPath referrer { l with path := Manifest.entry m }

/-- A location with a version. -/
def withVersion (referrer : String) (l : Location) : Except Failure (String × Option Location) :=
  if l.path.isEmpty then S.withEntry referrer l else S.withPath referrer l

/-- A location of which a manifest may tell the range. -/
def withManifest (referrer : String) (m : Option Value) (l : Location) : Except Failure (String × Option Location) :=
  S.withVersion referrer { l with version := (Manifest.range? m l.pkg).getD Location.defaultVersion }

/-- A text that names a package. -/
def ofBare (referrer specifier : String) (m : Option Value) : Except Failure (String × Option Location) :=
  match Location.parse? specifier.toList with
  | none => .error (.badSpecifier specifier)
  | some l => if !l.version.isEmpty then S.withVersion referrer l else S.withManifest referrer m l

/-- A relative specifier in a dependency file. -/
def ofRelative (referrer specifier : String) : Except Failure (String × Option Location) :=
  match Url.resolvePath? referrer.toList specifier.toList with
  | none => .error (.badSpecifier specifier)
  | some path =>
    let bare := path.drop (modulesFolder.length + 1)
    if (FileName.extension specifier.toList).isEmpty then S.ofBare referrer (String.ofList bare) none
    else match Location.parse? bare with
      | none => .error (.badSpecifier specifier)
      | some l => S.content l specifier

/-- What replaces a specifier, and the location that it leads to, if it is one of the CDN. -/
def resolve (map : ImportMap) (m : Option Value) (referrer specifier : String) :
    Except Failure (String × Option Location) :=
  match Specifier.kind specifier.toList with
  | .url => .ok (specifier, none)
  | .bare => match map.resolve specifier with
    | some target => .ok (target, none)
    | none => S.ofBare referrer specifier m
  | .relative => if startsWith modulesFolder referrer.toList then S.ofRelative referrer specifier else .ok (specifier, none)

/-! ## Rewriting a file -/

/-- What the specifiers that are left give, with the results that they have. -/
def settleAll (result : String → Except Failure (String × Option Location)) (f : File) :
    List Char → List Open → List Output
  | text, [] => [.file { f with content := String.ofList text }]
  | text, o :: left => match result o.name with
    | .error e => .diagnostic f.name (Rewriting.report text o e) :: settleAll result f text left
    | .ok (target, _) => settleAll result f (if target == o.name then text
        else splice text o.span.start o.span.stop (Rewriting.replacement o target)) left

/-- The location that a specifier leads to. -/
def target? (result : String → Except Failure (String × Option Location)) (o : Open) : Option Location :=
  (result o.name).toOption.bind (·.2)

/-- What a script gives when it is read: the problems that its specifiers have, and the file with its new text. -/
def rewriteRead (map : ImportMap) (m : Option Value) (f : File) :
    Except Script.SyntaxFault (List Script.Import) → List Output
  | .ok imports => settleAll (S.resolve map m f.name) f f.content.toList (Rewriting.start map f imports).left
  | .error fault => [.file f, .diagnostic f.name (syntaxReport fault)]

/-- What a script gives. -/
def rewrite (map : ImportMap) (m : Option Value) (f : File) : List Output :=
  S.rewriteRead map m f (Script.imports f.content)

/-- The locations that the specifiers of a script lead to when it is read. -/
def needsRead (map : ImportMap) (m : Option Value) (f : File) :
    Except Script.SyntaxFault (List Script.Import) → List Location
  | .ok imports => (Rewriting.start map f imports).left.filterMap (target? (S.resolve map m f.name))
  | .error _ => []

/-- The locations that the specifiers of a script lead to. -/
def needs (map : ImportMap) (m : Option Value) (f : File) : List Location :=
  S.needsRead map m f (Script.imports f.content)

/-- The file that a location is written to. -/
def fileOf (l : Location) (f : Cdn.File) : File := ⟨fileName l, f.content, some f.contentType⟩

/-- What the file of a location gives. -/
def dependency (map : ImportMap) (l : Location) : List Output :=
  match S.fetch l with
  | .ok f => S.rewrite map (S.manifest l).toOption (fileOf l f.file)
  | .error _ => []

/-- The locations that the file of a location leads to. -/
def dependencyNeeds (map : ImportMap) (l : Location) : List Location :=
  match S.fetch l with
  | .ok f => S.needs map (S.manifest l).toOption (fileOf l f.file)
  | .error _ => []

/-! ## Rewriting a project -/

/-- The manifest of a project, which its first `package.json` holds. -/
def projectManifest : List Output → Option Value
  | [] => none
  | .file f :: items =>
    if !Run.isScript f && f.name == Manifest.fileName then match Run.readProject f.content with
      | .ok (m, _) => m
      | .error _ => none
    else projectManifest items
  | .diagnostic .. :: items => projectManifest items

/-- What one output of a project gives. -/
def project (map : ImportMap) (m : Option Value) : Output → List Output
  | .file f => if Run.isScript f then S.rewrite map m f else [.file f]
  | .diagnostic name d => [.diagnostic name d]

/-- The locations that one output of a project leads to. -/
def projectNeeds (map : ImportMap) (m : Option Value) : Output → List Location
  | .file f => if Run.isScript f then S.needs map m f else []
  | .diagnostic .. => []

/-- The locations that the outputs of a project lead to: what its specifiers lead to and, with each location, what the
specifiers of its file lead to. -/
inductive Reachable (map : ImportMap) (items : List Output) : Location → Prop
  /-- A specifier of the project leads there. -/
  | project {o : Output} {l : Location} (ho : o ∈ items)
      (hl : l ∈ S.projectNeeds map (projectManifest items) o) : Reachable map items l
  /-- A specifier of a file that is reachable leads there. -/
  | dependency {k l : Location} (hk : Reachable map items k) (hl : l ∈ S.dependencyNeeds map k) :
      Reachable map items l

/-- What a project gives, with the files of some locations. -/
def reference (map : ImportMap) (items : List Output) (locations : List Location) : List Output :=
  items.flatMap (S.project map (projectManifest items)) ++ locations.flatMap (S.dependency map)

/-! ## Consistent sites -/

/-- A range that a specifier or a manifest can name. -/
def Names (project : Option Value) (pkg range : String) : Prop :=
  '/' ∉ range.toList ∨ Manifest.range? project pkg = some range ∨
    ∃ url f m, S.get url = .ok f ∧ readManifest f = .ok m ∧ Manifest.range? (some m) pkg = some range

/-- An inexact range that is served at all is served like one exact version. The file of an exact version has a final
URL that names the same version and a path with an extension, which is that of the request if that has one, and the
final URL answers for itself. -/
structure Consistent (project : Option Value) : Prop where
  /-- An inexact range that is served at all is served like one exact version. -/
  pinned : ∀ (pkg range path : String) (f : Fetched), Location.IsPackage pkg → Version.isExact range = false →
    S.Names project pkg range → S.fetch ⟨pkg, range, path⟩ = .ok f →
    ∃ v, Version.isExact v = true ∧ ∀ path, S.fetch ⟨pkg, range, path⟩ = S.fetch ⟨pkg, v, path⟩
  /-- The final URL of a file names its version and answers for itself. -/
  served : ∀ (pkg v path : String) (f : Fetched), Location.IsPackage pkg → Version.isExact v = true →
    S.fetch ⟨pkg, v, path⟩ = .ok f → ∃ p : String, f.url = S.base ++ pkg ++ "@" ++ v ++ "/" ++ p ∧
      '\n' ∉ p.toList ∧ p.toList.head? ≠ some '/' ∧ FileName.extension p.toList ≠ [] ∧ S.get f.url = .ok f ∧
      (FileName.extension path.toList ≠ [] → path.toList.head? ≠ some '/' → p = path)

/-- No bare specifier of a script has a path that begins with a slash. -/
def Plain (content : String) : Prop :=
  ∀ imports, Script.imports content = .ok imports → ∀ i ∈ imports, ∀ name, i.name = some name →
    Specifier.kind name.toList = .bare → ∀ l, Location.parse? name.toList = some l → l.path.toList.head? ≠ some '/'

end Site

end BareImports.Build
