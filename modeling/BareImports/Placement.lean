/-!
# Nested package directories

Each package version is placed so that looking its dependencies up, from its own directory outwards, finds the
recorded versions.

* `Graph`: which versions the dependencies of each package version were resolved to;
* `Placed`: a copy of a package, with the packages whose directories enclose it;
* `Layout.nearest?`: looking a package up from a copy outwards;
* `Layout.place`: the copies that root dependencies and a graph need;
* `PackageTree`: the copies as nested directories.
-/

namespace BareImports

/-- The dependencies of each version of each package, with the versions that they were resolved to. -/
abbrev Graph := List (String × List (String × List (String × String)))

/-- The dependencies of a package version. -/
def Graph.dependencies (g : Graph) (pkg version : String) : List (String × String) :=
  ((List.lookup pkg g).bind (·.lookup version)).getD []

/-- All dependencies that a graph lists. -/
def Graph.edges (g : Graph) : List (String × String) := g.flatMap fun (_, vs) => vs.flatMap (·.2)

/-- A copy of a package. -/
structure Placed where
  /-- The package and the packages whose directories enclose it, the innermost first. -/
  trail : List String
  /-- The version. -/
  version : String
  deriving BEq, DecidableEq, Repr

/-- The package of a copy. -/
def Placed.pkg (p : Placed) : String := p.trail.headD ""

namespace Layout

/-- The version of the copy at a trail. -/
def at? (placed : List Placed) (trail : List String) : Option String :=
  (placed.find? fun p => p.trail == trail).map (·.version)

/-- The version of a package that is found from a directory outwards. -/
def nearest? (placed : List Placed) (pkg : String) : List String → Option String
  | [] => at? placed [pkg]
  | name :: trail => at? placed (pkg :: name :: trail) <|> nearest? placed pkg trail

/-- A copy whose dependencies are still to be placed, and the package versions from the top down to it. -/
structure Task where
  /-- The copy. -/
  copy : Placed
  /-- The package versions that enclose it, and itself. -/
  ancestry : List (String × String)

/-- The copies so far and the tasks that they give rise to. -/
structure State where
  /-- The copies, in the order in which they were placed. -/
  placed : List Placed
  /-- The tasks to come, the oldest first. -/
  queue : List Task

/-- Places one dependency of a copy: nowhere if it is the package itself, closes a cycle or is found already; at the
top if no version of it is found; else in the copy's own directory. -/
def placeOne (t : Task) (s : State) (dep : String × String) : State :=
  let (name, version) := dep
  if name == t.copy.pkg || t.ancestry.contains dep then s
  else match nearest? s.placed name t.copy.trail with
    | none =>
      let copy := ⟨[name], version⟩
      ⟨s.placed ++ [copy], s.queue ++ [⟨copy, [dep]⟩]⟩
    | some found =>
      if found == version then s
      else
        let copy := ⟨name :: t.copy.trail, version⟩
        ⟨s.placed ++ [copy], s.queue ++ [⟨copy, dep :: t.ancestry⟩]⟩

/-- Places the dependencies of a copy. -/
def placeAll (g : Graph) (t : Task) (s : State) : State :=
  (g.dependencies t.copy.pkg t.copy.version).foldl (placeOne t) s

/-- Works the tasks off, the oldest first. -/
def work (g : Graph) : Nat → State → State
  | 0, s => s
  | fuel + 1, s => match s.queue with
    | [] => s
    | t :: queue => work g fuel (placeAll g t { s with queue })

/-- The root dependencies at the top. -/
def initial (roots : List (String × String)) : State :=
  let tasks := roots.map fun (name, version) => (⟨⟨[name], version⟩, [(name, version)]⟩ : Task)
  ⟨tasks.map (·.copy), tasks⟩

/-- More tasks than can arise: each starts at the top for a root or a name, and below it every level adds a package
version that does not enclose it yet. -/
def taskLimit (roots : List (String × String)) (g : Graph) : Nat :=
  let e := g.edges.length
  let n := roots.length + e
  (n + 1) * Nat.pow (e + 1) (n + 1) + 1

/-- The copies that root dependencies and a graph need, in the order in which they are placed. -/
def place (roots : List (String × String)) (g : Graph) : List Placed :=
  (work g (taskLimit roots g) (initial roots)).placed

end Layout

/-- Copies as nested directories. -/
inductive PackageTree
  /-- The packages of a directory, each with its version and its own directory. -/
  | dir (entries : List (String × String × PackageTree))
  deriving Inhabited

namespace PackageTree

mutual

/-- A directory with a copy added at a trail, the outermost package first. -/
def insert (version : String) : List String → PackageTree → PackageTree
  | [], t => t
  | [name], .dir entries => .dir (entries ++ [(name, version, .dir [])])
  | name :: next :: trail, .dir entries => .dir (insertBelow version name (next :: trail) entries)

/-- The entries of a directory with a copy added below one of them. -/
def insertBelow (version name : String) (trail : List String) :
    List (String × String × PackageTree) → List (String × String × PackageTree)
  | [] => []
  | (n, v, t) :: entries =>
    if n == name then (n, v, insert version trail t) :: entries
    else (n, v, t) :: insertBelow version name trail entries

end

/-- The nested directories of copies. -/
def ofPlaced (placed : List Placed) : PackageTree :=
  placed.foldl (fun t p => insert p.version p.trail.reverse t) (.dir [])

end PackageTree

end BareImports
