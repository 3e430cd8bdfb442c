import BareImports.Url.Split

/-!
# References relative to a URL

* `mergePath`: a relative path seen from a base path, without dot segments;
* `join?`: a reference seen from a base URL;
* `resolvePath?`: the path of a reference seen from a file below one root.
-/

namespace BareImports.Url

open Text

/-- A path and the parameters behind the `;` of its last segment. -/
def cutParams (path : List Char) : List Char × List Char :=
  match cutLast? '/' path with
  | some (l, r) => match cut? ';' r with
    | some (a, b) => (l ++ '/' :: a, b)
    | none => (path, [])
  | none => (cut? ';' path).getD (path, [])

/-- A path with parameters put back. -/
def putParams (path params : List Char) : List Char := if params.isEmpty then path else path ++ ';' :: params

/-- One segment of a path without dot segments: `.` vanishes, `..` takes back the segment before it, if any.
`done` is in reverse. -/
def dotStep (done : List (List Char)) (seg : List Char) : List (List Char) :=
  if seg == ['.', '.'] then done.tail else if seg == ['.'] then done else seg :: done

/-- Segments without dot segments; after a final one the path ends in a slash. -/
def removeDots (segs : List (List Char)) : List (List Char) :=
  let done := segs.foldl dotStep []
  let last := segs.getLast?
  (if last == some ['.'] || last == some ['.', '.'] then [] :: done else done).reverse

/-- A list without the empty members that have a neighbour on both sides. -/
def dropInnerEmpty : List (List Char) → List (List Char)
  | [] => []
  | first :: rest => match rest.getLast? with
    | none => [first]
    | some last => first :: rest.dropLast.filter (!·.isEmpty) ++ [last]

/-- The segments of a base path without its file name. -/
def directorySegments (base : List Char) : List (List Char) :=
  let parts := base.splitOn '/'
  if parts.getLast? == some [] then parts else parts.dropLast

/-- A non-empty path seen from a base path. -/
def mergePath (base path : List Char) : List Char :=
  let segs := if path.head? == some '/' then path.splitOn '/'
    else dropInnerEmpty (directorySegments base ++ path.splitOn '/')
  match ['/'].intercalate (removeDots segs) with
  | [] => ['/']
  | out => out

/-- A reference seen from a base URL, `none` if an authority is malformed. -/
def join? (base ref : List Char) : Option (List Char) :=
  if base.isEmpty then some ref
  else if ref.isEmpty then some base
  else do
    let b ← Parts.split? [] base
    let r ← Parts.split? b.scheme ref
    if r.scheme != b.scheme || !isAmong hierarchicalSchemes r.scheme then return ref
    let (bpath, bparams) := cutParams b.path
    let (path, params) := cutParams r.path
    if !r.authority.isEmpty then
      return Parts.render { r with path := putParams path params }
    if path.isEmpty && params.isEmpty then
      return Parts.render { r with
        authority := b.authority
        path := putParams bpath bparams
        query := if r.query.isEmpty then b.query else r.query }
    return Parts.render { r with authority := b.authority, path := putParams (mergePath bpath path) params }

/-- The root against which paths are resolved. -/
def resolveRoot : List Char := "https://resolve.invalid/".toList

/-- The path of a reference seen from a file, always absolute when the reference is relative. -/
def resolvePath? (referrer ref : List Char) : Option (List Char) := do
  let joined ← join? (resolveRoot ++ referrer.dropWhile (· == '/')) ref
  return (← Parts.split? [] joined).path

end BareImports.Url
