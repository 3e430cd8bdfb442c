import BareImports.Proofs.Build.Paths
import BareImports.Proofs.Files.Read
import BareImports.Proofs.Url.Segments

/-!
# Paths that stay inside their packages

* `Inner path` : the segments of a path are names;
* `inner_entry` : the entry that a manifest tells is such a path, unless it climbs;
* `SpecifiesInside`, `TellsInside` : what a specifier, a file of the CDN must not do for the paths that it tells to be such;
* `folder l`, `segments l`, `splitOn_fileName` : the file of a location lies at a place of names below the folder of its package version.
-/

namespace BareImports.Build

open Text Cdn Location Url

/-- The segments of a path are names. -/
def Inner (path : String) : Prop := ∀ g ∈ path.toList.splitOn '/', IsName g

instance (path : String) : Decidable (Inner path) := inferInstanceAs (Decidable (∀ g ∈ _, _))

/-! ## Entries -/

/-- What is normalised climbs first and goes down from there. -/
def ClimbsFirst (done : List (List Char)) : Prop :=
  ∃ k names, done = names ++ List.replicate k ['.', '.'] ∧ ∀ g ∈ names, IsName g

theorem ClimbsFirst.step {done : List (List Char)} (h : ClimbsFirst done) (seg : List Char) :
    ClimbsFirst (Path.normalizeStep false done seg) := by
  obtain ⟨k, names, rfl, hnames⟩ := h
  unfold Path.normalizeStep
  by_cases hskip : (seg == [] || seg == ['.']) = true
  · rw [if_pos hskip]
    exact ⟨k, names, rfl, hnames⟩
  · rw [if_neg hskip]
    by_cases hup : seg = ['.', '.']
    · subst hup
      rw [if_neg (by simp)]
      cases names with
      | nil =>
        cases k with
        | zero => exact ⟨1, [], rfl, by simp⟩
        | succ k => exact ⟨k + 2, [], rfl, by simp⟩
      | cons d names =>
        have hd := (hnames d List.mem_cons_self).2.2
        refine ⟨k, names, ?_, fun g hg => hnames g (List.mem_cons_of_mem _ hg)⟩
        rw [List.cons_append]
        exact if_neg (by simpa using hd)
    · rw [if_pos (by simpa using hup)]
      simp only [Bool.or_eq_true, beq_iff_eq, not_or] at hskip
      refine ⟨k, seg :: names, rfl, fun g hg => ?_⟩
      rcases List.mem_cons.1 hg with rfl | hg
      · exact ⟨hskip.1, hskip.2, hup⟩
      · exact hnames g hg

theorem climbsFirst_foldl {segs done : List (List Char)} (h : ClimbsFirst done) :
    ClimbsFirst (segs.foldl (Path.normalizeStep false) done) := by
  induction segs generalizing done with
  | nil => exact h
  | cons seg segs ih => exact ih (h.step seg)

/-- The segments of a relative path in its shortest spelling climb first. -/
theorem normalSegments_climbs (segs : List (List Char)) : ∃ k names,
    Path.normalSegments false segs = List.replicate k ['.', '.'] ++ names ∧ ∀ g ∈ names, IsName g := by
  have hempty : ClimbsFirst [] := ⟨0, [], rfl, by simp⟩
  obtain ⟨k, names, hdone, hnames⟩ : ClimbsFirst (segs.foldl (Path.normalizeStep false) []) := climbsFirst_foldl hempty
  refine ⟨k, names.reverse, ?_, fun g hg => hnames g (List.mem_reverse.1 hg)⟩
  unfold Path.normalSegments
  rw [hdone, List.reverse_append, List.reverse_replicate]

/-- A relative path in its shortest spelling is one of names, unless it is a dot, climbs or is nothing but a climb. -/
theorem names_normalize {p : List Char} (hp : p.head? ≠ some '/') (hdot : Path.normalize p ≠ ['.'])
    (hup : Path.normalize p ≠ ['.', '.']) (hclimb : startsWith "../" (Path.normalize p) = false) :
    ∀ g ∈ (Path.normalize p).splitOn '/', IsName g := by
  have hroot : Path.root p = [] := by
    unfold Path.root
    split <;> simp_all
  have hnormal : Path.normalize p = if (['/'].intercalate (Path.normalSegments false (Path.segments p))).isEmpty then ['.']
      else ['/'].intercalate (Path.normalSegments false (Path.segments p)) := by
    unfold Path.normalize
    rw [hroot]
    rfl
  obtain ⟨k, names, hsegs, hnames⟩ := normalSegments_climbs (Path.segments p)
  have hslash : ∀ g ∈ Path.normalSegments false (Path.segments p), '/' ∉ g := fun g hg =>
    Path.not_mem_of_mem_splitOn (Path.mem_normalSegments hg).1
  rw [hsegs] at hslash hnormal
  split at hnormal
  · exact absurd hnormal hdot
  next hne =>
  cases k with
  | zero =>
    rw [List.replicate_zero, List.nil_append] at hslash hnormal hne
    have hsome : names ≠ [] := by
      rintro rfl
      exact hne rfl
    rw [hnormal, List.splitOn_intercalate '/' hslash hsome]
    exact hnames
  | succ k =>
    -- a path that climbs is excluded
    rw [List.replicate_succ, List.cons_append] at hnormal
    by_cases hrest : List.replicate k ['.', '.'] ++ names = []
    · rw [hrest] at hnormal
      exact absurd hnormal hup
    · rw [intercalate_cons hrest] at hnormal
      rw [hnormal] at hclimb
      exact absurd hclimb (by simp [startsWith])

/-- A field that names a path names one that is not absolute, in its shortest spelling. -/
theorem normalizeEntry_cases (path : List Char) : FileName.normalizeEntry path = [] ∨
    ∃ p : List Char, p.head? ≠ some '/' ∧ Path.normalize p ≠ ['.'] ∧ FileName.normalizeEntry path = Path.normalize p := by
  have hhead : ((strip path).dropWhile (· == '/')).head? ≠ some '/' := by
    intro hslash
    have hnot := List.head?_dropWhile_not (· == '/') (strip path)
    rw [hslash] at hnot
    simp at hnot
  unfold FileName.normalizeEntry
  dsimp only
  split
  · exact Or.inl rfl
  · split
    · exact Or.inl rfl
    · next hdot => exact Or.inr ⟨_, hhead, hdot, rfl⟩

/-- The entry that a manifest tells is a path of names, if it has an extension and does not climb. -/
theorem inner_entry {m : Value} (hext : FileName.extension (Manifest.entry m).toList ≠ [])
    (hclimb : startsWith "../" (Manifest.entry m).toList = false) : Inner (Manifest.entry m) := by
  have hpath : ∀ field path, Manifest.path? m field = some path → FileName.extension path ≠ [] →
      startsWith "../" path = false → ∀ g ∈ path.splitOn '/', IsName g := by
    intro field path h hext hclimb
    unfold Manifest.path? at h
    split at h
    swap
    · exact absurd h (by simp)
    next s _ =>
    dsimp only at h
    split at h
    · exact absurd h (by simp)
    obtain rfl := Option.some.inj h
    rcases normalizeEntry_cases s.toList with hnil | ⟨p, hhead, hdot, hp⟩
    · rw [hnil] at hext
      exact absurd (by decide) hext
    · rw [hp] at hext hclimb ⊢
      refine names_normalize hhead hdot (fun hup => ?_) hclimb
      rw [hup] at hext
      exact hext (by decide)
  have hentry : Manifest.entry m = Manifest.defaultEntry ∨ ∃ field path, Manifest.path? m field = some path ∧
      Manifest.entry m = String.ofList path := by
    unfold Manifest.entry
    split
    · next path h =>
      rw [Option.orElse_eq_orElse, Option.orElse_eq_or, Option.or_eq_some_iff] at h
      rcases h with h | ⟨-, h⟩
      · exact Or.inr ⟨_, path, h, rfl⟩
      · exact Or.inr ⟨_, path, h, rfl⟩
    · exact Or.inl rfl
  rcases hentry with hdefault | ⟨field, path, hfield, heq⟩
  · rw [hdefault]
    decide
  · unfold Inner
    rw [heq, String.toList_ofList] at hext hclimb ⊢
    exact hpath field path hfield hext hclimb

/-! ## What tells paths -/

/-- A specifier leads out of no package and to no folder of one. -/
structure SpecifiesInside (map : ImportMap) (referrer name : String) : Prop where
  /-- A path behind the name of a package has no empty and no dot segments, if it has an extension. -/
  bare : Specifier.kind name.toList = .bare → map.resolve name = none → ∀ l, parse? name.toList = some l →
    FileName.extension l.path.toList ≠ [] → Inner l.path
  /-- A relative specifier with an extension leads, from a dependency file, to a file in a package. -/
  relative : Specifier.kind name.toList = .relative → startsWith modulesFolder referrer.toList = true →
    FileName.extension name.toList ≠ [] → ∀ path l, resolvePath? referrer.toList name.toList = some path →
      parse? (path.drop (modulesFolder.length + 1)) = some l → l.path ≠ "" ∧ l.path.toList.getLast? ≠ some '/'

/-- The specifiers of a script lead out of no package and to no folder of one. -/
def File.SpecifiesInside (map : ImportMap) (f : File) : Prop :=
  ∀ imports, Script.imports f.content = .ok imports → ∀ i ∈ imports, ∀ name, i.name = some name →
    Build.SpecifiesInside map f.name name

/-- A file of the CDN leads out of no package. -/
structure TellsInside (base : String) (f : Fetched) : Prop where
  /-- The path in its final URL has no empty and no dot segments. -/
  url : ∀ k, parseUrl? base f.url = some k → Inner k.path
  /-- As a manifest, it tells an entry that does not climb. -/
  entry : ∀ m, readManifest f = .ok m → startsWith "../" (Manifest.entry m).toList = false

section Tells

variable {map : ImportMap} {base referrer name : String}

theorem SpecifiesInside.specifies (h : SpecifiesInside map referrer name) : Specifies Inner map referrer name where
  bare := h.bare
  relative hk hr path l hpath hl hext := by
    have hfile : l.path ≠ "" ∧ l.path.toList.getLast? ≠ some '/' := by
      by_cases hname : FileName.extension name.toList ≠ []
      · exact h.relative hk hr hname path l hpath hl
      · have hl' := hext.resolve_left hname
        obtain ⟨c, hc, hslash⟩ := FileName.getLast?_of_extension hl'
        refine ⟨?_, by rw [hc]; simpa using hslash⟩
        rintro hempty
        rw [hempty] at hc
        exact absurd hc (by simp)
    exact names_of_resolvePath? hk hpath hl hfile.1 hfile.2

theorem File.SpecifiesInside.specifies {f : File} (h : f.SpecifiesInside map) : f.Specifies Inner map :=
  fun imports himports i hi name hname => (h imports himports i hi name hname).specifies

theorem TellsInside.tells {f : Fetched} (h : TellsInside base f) : Shows Inner base f where
  url := h.url
  entry m hm hext := inner_entry hext (h.entry m hm)

end Tells

/-! ## Places of dependency files -/

/-- The folder of a package version, from the output folder on. -/
def folder (l : Location) : Files.Place :=
  Files.Project.installed :: (l.pkg.toList ++ '@' :: l.version.toList).splitOn '/'

/-- The place of the file of a location, from the output folder on. -/
def segments (l : Location) : Files.Place := folder l ++ l.path.toList.splitOn '/'

theorem toList_fileName (l : Location) : (fileName l).toList =
    Files.Project.installed ++ '/' :: ((l.pkg.toList ++ '@' :: l.version.toList) ++ '/' :: l.path.toList) := by
  have hfolder : modulesFolder.toList = Files.Project.installed ++ ['/'] := by decide
  have hat : "@".toList = ['@'] := by decide
  have hslash : "/".toList = ['/'] := by decide
  unfold fileName
  simp only [String.toList_append, hfolder, hat, hslash, List.append_assoc, List.cons_append, List.nil_append]

theorem splitOn_fileName (l : Location) : (fileName l).toList.splitOn '/' = segments l := by
  rw [toList_fileName, List.splitOn_append_cons_self_of_not_mem (by decide), List.splitOn_append_cons_self]
  rfl

theorem package_cases {pkg : String} (h : IsPackage pkg) : '/' ∉ pkg.toList ∨
    ∃ scope name, pkg.toList = ('@' :: scope) ++ '/' :: name ∧ '/' ∉ scope ∧ '/' ∉ name := by
  have hname : ∀ {s : List Char}, (∀ c ∈ s, isNameChar c = true) → '/' ∉ s := fun h hmem =>
    absurd (h '/' hmem) (by decide)
  rcases h.parts with ⟨-, hpkg⟩ | ⟨scope, name, hparts, ⟨-, hscope⟩, -, hrest⟩
  · exact Or.inl (hname hpkg)
  · exact Or.inr ⟨scope, name, hparts, hname hscope, hname hrest⟩

/-- A package and a version are written as names. -/
theorem names_package {pkg : String} (hpkg : IsPackage pkg) {version : List Char} (hversion : '/' ∉ version) :
    ∀ g ∈ (pkg.toList ++ '@' :: version).splitOn '/', IsName g := by
  have hat : ∀ g : List Char, '@' ∈ g → IsName g := by
    intro g hg
    refine ⟨?_, ?_, ?_⟩
    · rintro rfl
      exact absurd hg (by simp)
    · rintro rfl
      exact absurd hg (by decide)
    · rintro rfl
      exact absurd hg (by decide)
  intro g hg
  refine hat g ?_
  rcases package_cases hpkg with hslash | ⟨scope, name, hparts, hscope, hname⟩
  · rw [List.splitOn_eq_singleton (by simp [hslash, hversion]), List.mem_singleton] at hg
    simp [hg]
  · have htext : ('@' :: scope ++ '/' :: name) ++ '@' :: version = '@' :: scope ++ '/' :: (name ++ '@' :: version) := by simp
    have hlast : (name ++ '@' :: version).splitOn '/' = [name ++ '@' :: version] :=
      List.splitOn_eq_singleton (by simp [hname, hversion])
    rw [hparts, htext, List.splitOn_append_cons_self_of_not_mem (by simp [hscope]), hlast] at hg
    rcases List.mem_cons.1 hg with rfl | hg
    · exact List.mem_cons_self
    · simp [List.mem_singleton.1 hg]

/-- The file of a location with such a path lies at a place of names. -/
theorem names_fileName {l : Location} (hl : l.Shaped) (hpath : Inner l.path) :
    ∀ g ∈ (fileName l).toList.splitOn '/', IsName g := by
  rw [splitOn_fileName]
  intro g hg
  rcases List.mem_append.1 hg with hg | hg
  · rcases List.mem_cons.1 hg with rfl | hg
    · decide
    · exact names_package hl.package hl.version g hg
  · exact hpath g hg

/-- Shaped locations whose files lie at one place are one location. -/
theorem eq_of_segments {l m : Location} (hl : l.Shaped) (hm : m.Shaped) (h : segments l = segments m) : l = m := by
  have htext : (fileName l).toList = (fileName m).toList := by
    have hl' : ['/'].intercalate ((fileName l).toList.splitOn '/') = (fileName l).toList := List.intercalate_splitOn '/'
    have hm' : ['/'].intercalate ((fileName m).toList.splitOn '/') = (fileName m).toList := List.intercalate_splitOn '/'
    rw [splitOn_fileName] at hl' hm'
    rw [← hl', ← hm', h]
  refine hl.eq_of_written hm (String.toList_inj.1 ?_)
  rw [toList_fileName, toList_fileName, List.append_cancel_left_eq] at htext
  have hslash : "/".toList = ['/'] := by decide
  have hat : "@".toList = ['@'] := by decide
  simpa [String.toList_append, hslash, hat] using htext

/-- No file of a project lies where a dependency file does. -/
theorem segments_ne_owned {l : Location} {name : String} (h : Files.Project.Owned name) :
    name.toList.splitOn '/' ≠ segments l := by
  obtain ⟨p, hne, hp, hfolders, htext⟩ := h
  rw [htext, Files.splitOn_intercalate hp hne]
  rintro rfl
  refine hfolders Files.Project.installed ?_ rfl
  unfold segments folder
  rw [List.cons_append, List.dropLast_cons_of_ne_nil]
  · exact List.mem_cons_self
  · simp

end BareImports.Build
