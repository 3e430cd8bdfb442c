import BareImports.Text.Cut

/-!
# Slash-separated paths

Lexical operations only: no path is looked up.

* `normalize`: the shortest spelling of a path; climbing above the root of an absolute path stays there;
* `parent`, `join`, `absolute`: the parts of path arithmetic that the output directory needs;
* `relativeTo`: the steps from one absolute directory to another place;
* `common`: the shared beginning of two absolute paths, segment by segment.
-/

namespace BareImports.Path

open Text

/-- The segments between the slashes of a path. -/
def segments (p : List Char) : List (List Char) := p.splitOn '/'

/-- One step of normalisation: empty and `.` segments vanish, `..` takes back a segment if there is one
and else stays, except at the root of an absolute path. `done` is in reverse. -/
def normalizeStep (rooted : Bool) (done : List (List Char)) (seg : List Char) : List (List Char) :=
  if seg == [] || seg == ['.'] then done
  else if seg != ['.', '.'] then seg :: done
  else match done with
    | [] => if rooted then [] else [seg]
    | d :: rest => if d == ['.', '.'] then seg :: done else rest

/-- The segments of the shortest spelling of a path. -/
def normalSegments (rooted : Bool) (segs : List (List Char)) : List (List Char) :=
  (segs.foldl (normalizeStep rooted) []).reverse

/-- The slashes that a path keeps in front: two, but not more, are a root of their own. -/
def root (p : List Char) : List Char :=
  match p with
  | '/' :: '/' :: '/' :: _ => ['/']
  | '/' :: '/' :: _ => ['/', '/']
  | '/' :: _ => ['/']
  | _ => []

/-- The shortest spelling of a path; an empty one is `.`. -/
def normalize (p : List Char) : List Char :=
  let r := root p
  let out := r ++ ['/'].intercalate (normalSegments (!r.isEmpty) (segments p))
  if out.isEmpty then ['.'] else out

/-- What stands before the last slash, without the slashes at its end unless it consists of them. -/
def parent (p : List Char) : List Char :=
  match cutLast? '/' p with
  | none => []
  | some (l, _) =>
    let head := l ++ ['/']
    let trimmed := dropTrailing (· == '/') head
    if trimmed.isEmpty then head else trimmed

/-- A path seen from a directory: an absolute one replaces it. -/
def join (base p : List Char) : List Char :=
  if startsWith "/" p then p
  else if base.isEmpty || endsWith "/" base then base ++ p
  else base ++ '/' :: p

/-- The shortest absolute spelling of a path seen from the directory `here`. -/
def absolute (here p : List Char) : List Char := normalize (join here p)

/-- The members that two lists share in front. -/
def sharedFront {α : Type} [BEq α] : List α → List α → List α
  | x :: xs, y :: ys => if x == y then x :: sharedFront xs ys else []
  | _, _ => []

/-- The segments of an absolute path in its shortest spelling. -/
def placeSegments (p : List Char) : List (List Char) := normalSegments true (segments p)

/-- The steps from the directory at the segments `base` to the place at the segments `target`. -/
def steps (target base : List (List Char)) : List (List Char) :=
  let n := (sharedFront base target).length
  List.replicate (base.length - n) ['.', '.'] ++ target.drop n

/-- The steps from an absolute directory to an absolute place, `.` if there are none. -/
def relativeTo (target base : List Char) : List Char :=
  match steps (placeSegments target) (placeSegments base) with
  | [] => ['.']
  | segs => ['/'].intercalate segs

/-- The shared beginning of two absolute paths, as segments; empty and `.` segments do not count. -/
def common (p q : List Char) : List (List Char) :=
  let parts := fun s => (segments s).filter fun g => g != [] && g != ['.']
  sharedFront (parts p) (parts q)

end BareImports.Path
