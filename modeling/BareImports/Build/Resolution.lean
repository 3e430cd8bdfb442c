import BareImports.Cdn.Cache
import BareImports.ImportMap
import BareImports.Manifest
import BareImports.Specifier
import BareImports.Url.Join

/-!
# Resolving a specifier

A bare specifier becomes a file of the CDN: its range comes from the manifest of the importing package, its entry from
its own manifest, its exact version and path from the CDN, and its file has to be there.

* `Stage`: how far a specifier is resolved;
* `Stage.ofSpecifier`: where its resolution begins;
* `Stage.step`: what it does until it has to wait.
-/

namespace BareImports.Build

open Text Cdn

/-- The folder of dependency files, with the slash behind it. -/
def modulesFolder : String := "node_modules/"

/-- The name of the file that a location is written to. -/
def fileName (l : Location) : String := modulesFolder ++ l.pkg ++ "@" ++ l.version ++ "/" ++ l.path

/-- How far a specifier is resolved. -/
inductive Stage
  /-- The manifest of the importing package is to tell the range. -/
  | range (l : Location)
  /-- The package's own manifest is to tell the entry. -/
  | entry (l : Location) (w : Wait)
  /-- The CDN is to tell the exact version and path. -/
  | canonical (w : Wait)
  /-- The file has to be there; then the specifier is replaced by a text. -/
  | content (l : Location) (w : Wait) (replacement : String)
  /-- It is resolved. -/
  | done (r : Except Failure String)

namespace Stage

/-- The relative URL that reaches the file of a location. -/
def reaching (referrer : String) (l : Location) : String :=
  String.ofList (FileName.relativeUrl referrer.toList (fileName l).toList)

/-- The last stage of a location that is known. -/
def atContent (referrer : String) (l : Location) : Stage := .content l (.turn l) (reaching referrer l)

/-- The stage of a location with a version and a path. -/
def withPath (referrer : String) (l : Location) : Stage :=
  if (FileName.extension l.path.toList).isEmpty || !Version.isExact l.version then .canonical (.turn l)
  else atContent referrer l

/-- The stage of a location with a version. -/
def withVersion (referrer : String) (l : Location) : Stage :=
  if l.path.isEmpty then .entry l (.turn { l with path := Manifest.fileName }) else withPath referrer l

/-- The stage of a location with the range that a manifest gives. -/
def withManifest (referrer : String) (m : Option Value) (l : Location) : Stage :=
  withVersion referrer { l with version := (Manifest.range? m l.pkg).getD Location.defaultVersion }

/-- The stage of a text that names a package; `ranged` tells whether a manifest may give the range. -/
def ofBare (referrer specifier : String) (ranged : Bool) : Stage :=
  match Location.parse? specifier.toList with
  | none => .done (.error (.badSpecifier specifier))
  | some l =>
    if !l.version.isEmpty then withVersion referrer l
    else if ranged then .range l
    else withManifest referrer none l

/-- The stage of a relative specifier in a dependency file. Without an extension only the CDN knows which file it
means. -/
def ofRelative (referrer specifier : String) : Stage :=
  match Url.resolvePath? referrer.toList specifier.toList with
  | none => .done (.error (.badSpecifier specifier))
  | some path =>
    let bare := path.drop (modulesFolder.length + 1)
    if (FileName.extension specifier.toList).isEmpty then ofBare referrer (String.ofList bare) false
    else match Location.parse? bare with
      | none => .done (.error (.badSpecifier specifier))
      | some l => .content l (.turn l) specifier

/-- Where the resolution of a specifier begins. URLs, mapped specifiers and references between project files need
nothing. -/
def ofSpecifier (m : ImportMap) (referrer specifier : String) : Stage :=
  match Specifier.kind specifier.toList with
  | .url => .done (.ok specifier)
  | .bare => match m.resolve specifier with
    | some target => .done (.ok target)
    | none => ofBare referrer specifier true
  | .relative =>
    if startsWith modulesFolder referrer.toList then ofRelative referrer specifier else .done (.ok specifier)

/-- Whether a stage waits for the manifest of the importing package. -/
def needsManifest : Stage → Bool
  | .range _ => true
  | _ => false

/-- The result, if there is one. -/
def result? : Stage → Option (Except Failure String)
  | .done r => some r
  | _ => none

/-- What a resolution does until it has to wait, and the dependency that it has found to be there. -/
def step (referrer : String) (manifest : Option (Option Value)) (c : Cache) :
    Stage → Cache × Stage × Option Location
  | .range l => match manifest with
    | none => (c, .range l, none)
    | some m => (c, withManifest referrer m l, none)
  | .entry l w => match c.resume .manifest w with
    | (c, .waiting w) => (c, .entry l w, none)
    | (c, .done (.ok m)) => (c, withPath referrer { l with path := Manifest.entry m }, none)
    | (c, .done (.error f)) => (c, .done (.error f), none)
  | .canonical w => match c.resume .location w with
    | (c, .waiting w) => (c, .canonical w, none)
    | (c, .done (.ok l)) => (c, atContent referrer l, none)
    | (c, .done (.error f)) => (c, .done (.error f), none)
  | .content l w replacement => match c.resume .file w with
    | (c, .waiting w) => (c, .content l w replacement, none)
    | (c, .done (.ok _)) => (c, .done (.ok replacement), some l)
    | (c, .done (.error f)) => (c, .done (.error f), none)
  | .done r => (c, .done r, none)

end Stage

end BareImports.Build
