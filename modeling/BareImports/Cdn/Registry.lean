import BareImports.Cdn.Response
import BareImports.Text.Cut

/-!
# A CDN in memory

* `Registry`: packages with their tags, versions and files, and answers fixed for single URLs;
* `Registry.answer`: what it answers to a URL;
* `Registry.serve`: the same, with a record of the requests.
-/

namespace BareImports.Cdn

open Text

/-- A package of a registry. -/
structure Package where
  /-- The versions that ranges and tags stand for. -/
  tags : List (String × String)
  /-- The files of each version. -/
  versions : List (String × List (String × String))
  /-- The file that an empty path stands for. -/
  entry : String

/-- A CDN in memory. -/
structure Registry where
  /-- The base URL. -/
  base : String
  /-- The packages by name. -/
  packages : List (String × Package)
  /-- Answers to single URLs. -/
  overrides : List (String × Answer)

/-- The requests that were made of a registry and how many failed to be answered. -/
structure Record where
  /-- The URLs, the first one first. -/
  requests : List String := []
  /-- How many requests raised a failure to connect. -/
  failed : Nat := 0
  deriving Inhabited

namespace Registry

/-- The answer to a URL that names nothing. -/
def missing (url : String) : Response := ⟨404, url, "Not Found", some "text/plain; charset=utf-8"⟩

/-- The content type that a path's extension stands for. -/
def contentType (path : List Char) : String :=
  let name := ((cutLast? '/' path).map (·.2)).getD path
  match (cutLast? '.' name).map (String.ofList ·.2) with
  | some "js" | some "mjs" => "text/javascript; charset=utf-8"
  | some "json" => "application/json; charset=utf-8"
  | _ => "text/plain; charset=utf-8"

/-- The package part of a request path, with its version, and the path inside the package. -/
def cutHead (rest : List Char) : List Char × List Char :=
  let segs := rest.splitOn '/'
  let n := if startsWith "@" rest then 2 else 1
  (['/'].intercalate (segs.take n), ['/'].intercalate (segs.drop n))

/-- The package and the version of a head; without `@` behind its first character the version is `latest`. -/
def cutSpec (head : List Char) : String × String :=
  match head with
  | [] => ("", "latest")
  | c :: r => match cut? '@' r with
    | some (name, spec) => (String.ofList (c :: name), String.ofList spec)
    | none => (String.ofList head, "latest")

/-- The path and content of the file that a request path stands for. -/
def findFile? (files : List (String × String)) (path : String) : Option (String × String) :=
  let served := [path, path ++ ".js", path ++ "/index.js"].findSome? fun p => (files.lookup p).map (p, ·)
  served <|> if path == "package.json" then some (path, "\x7b\x7d") else none

/-- The answer of the packages to what follows the base URL. -/
def lookup? (r : Registry) (rest : List Char) : Option Response := do
  let (head, path) := cutHead rest
  let (name, spec) := cutSpec head
  let pkg ← r.packages.lookup name
  let version := (pkg.tags.lookup spec).getD spec
  let files ← pkg.versions.lookup version
  let (file, content) ← findFile? files (if path.isEmpty then pkg.entry else String.ofList path)
  return ⟨200, r.base ++ name ++ "@" ++ version ++ "/" ++ file, content, some (contentType file.toList)⟩

/-- The answer to a URL. -/
def answer (r : Registry) (url : String) : Answer :=
  match r.overrides.lookup url with
  | some a => a
  | none => .ok (((after? r.base url.toList).bind r.lookup?).getD (missing url))

/-- The answer to a URL, recorded. -/
def serve (r : Registry) (url : String) : StateM Record Answer := do
  let failed := match r.overrides.lookup url with
    | some (.error (.refused ..)) => 1
    | _ => 0
  modify fun s => ⟨s.requests ++ [url], s.failed + failed⟩
  return r.answer url

end Registry

end BareImports.Cdn
