import BareImports.Proofs.Placement.Copies
import BareImports.Proofs.Typings.Sound

/-!
# The files of a session

* `below names path` : a path in a copy of a package, with the packages that enclose it, the outermost first; it shows
  both (`below_inj`);
* `Session.Shown s name` : no fetched file gets a name in a folder of packages inside its own package;
* `mem_of_lookup_files`, `lookup_files_of_mem` : the files of a session are those that it fetched, in every copy of their
  package version.
-/

namespace BareImports

namespace Typings

open Location

/-! ## Names of files in copies -/

/-- The folder of packages inside a package. -/
def packagesFolder : List Char := "node_modules/".toList

/-- A path in a copy of a package, with the packages that enclose it, the outermost first. -/
def below : List String → List Char → List Char
  | [], path => path
  | name :: names, path => packagesFolder ++ (name.toList ++ '/' :: below names path)

theorem below_folder {names : List String} (hne : names ≠ []) (path : String) :
    packagesFolder ++ ("/node_modules/".intercalate names ++ "/" ++ path).toList = below names path.toList := by
  induction names with
  | nil => exact absurd rfl hne
  | cons name names ih =>
    rcases names with _ | ⟨next, names⟩
    · simp [below]
    · have hmark : ("/node_modules/" : String).toList = '/' :: packagesFolder := by decide
      rw [below, ← ih (by simp), String.intercalate_cons_cons]
      simp only [String.toList_append, List.append_assoc, hmark, List.cons_append]

/-- The name of a file in a copy shows the copy and its path in it. -/
theorem below_inj {names names' : List String} {path path' : List Char} (hn : ∀ n ∈ names, IsPackage n)
    (hn' : ∀ n ∈ names', IsPackage n) (hp : ¬ packagesFolder <+: path) (hp' : ¬ packagesFolder <+: path')
    (h : below names path = below names' path') : names = names' ∧ path = path' := by
  induction names generalizing names' with
  | nil =>
    rcases names' with _ | ⟨name', names'⟩
    · exact ⟨rfl, h⟩
    · refine absurd ?_ hp
      rw [show path = below (name' :: names') path' from h]
      exact List.prefix_append _ _
  | cons name names ih =>
    rcases names' with _ | ⟨name', names'⟩
    · refine absurd ?_ hp'
      rw [show path' = below (name :: names) path from h.symm]
      exact List.prefix_append _ _
    · obtain ⟨rfl, hrest⟩ := (hn name (by simp)).append_mark_inj (hn' name' (by simp)) (by decide)
        (List.append_cancel_left h)
      obtain ⟨rfl, hpath⟩ := ih (fun n hn => ‹∀ n ∈ name :: names, IsPackage n› n (by simp [hn]))
        (fun n hn => ‹∀ n ∈ name :: names', IsPackage n› n (by simp [hn])) hrest
      exact ⟨rfl, hpath⟩

/-- The content of a file, if it is known. -/
def Asset.text? : Asset → Option String
  | .known content => content
  | .loading _ => none

namespace Session

/-- No file that was fetched gets a name by a path in a folder of packages inside its own package: the name shows the copy. -/
def Shown (s : Session) (name : String) : Prop := ∀ p ∈ Layout.place s.roots s.graph, ∀ e ∈ s.assets,
  e.2.text?.isSome = true → e.1.pkg = p.pkg → e.1.version = p.version → name = folder p ++ e.1.path →
    ¬ packagesFolder <+: e.1.path.toList

instance (s : Session) (name : String) : Decidable (s.Shown name) :=
  inferInstanceAs (Decidable (∀ p ∈ Layout.place s.roots s.graph, ∀ e ∈ s.assets, e.2.text?.isSome = true →
    e.1.pkg = p.pkg → e.1.version = p.version → name = folder p ++ e.1.path → ¬ packagesFolder <+: e.1.path.toList))

variable {s s' : Session} {p q : Placed} {path path' text : String}

theorem files_congr (ha : s'.assets = s.assets) (hr : s'.roots = s.roots) (hg : s'.graph = s.graph) : s'.files = s.files := by
  unfold files filesOf contents
  rw [ha, hr, hg]

theorem Shown.congr {name : String} (h : s.Shown name) (ha : s'.assets = s.assets) (hr : s'.roots = s.roots)
    (hg : s'.graph = s.graph) : s'.Shown name := by
  unfold Shown at h ⊢
  rw [ha, hr, hg]
  exact h

theorem mem_contents {pkg version : String} : (path, text) ∈ s.contents pkg version ↔
    (⟨pkg, version, path⟩, .known (some text)) ∈ s.assets := by
  unfold contents
  rw [List.mem_filterMap]
  constructor
  · rintro ⟨⟨l, a⟩, he, hread⟩
    split at hread
    · next k content heq =>
      obtain ⟨rfl, rfl⟩ := Prod.mk.inj heq
      split at hread
      · next hsame =>
        rw [Bool.and_eq_true, beq_iff_eq, beq_iff_eq] at hsame
        obtain ⟨rfl, rfl⟩ := Prod.mk.inj (Option.some.inj hread)
        obtain ⟨rfl, rfl⟩ := hsame
        exact he
      · exact absurd hread (by simp)
    · exact absurd hread (by simp)
  · intro he
    exact ⟨_, he, by simp⟩

/-- The files of a copy: those that were fetched, and its manifest in any case. -/
theorem mem_filesOf {k : String} : (k, text) ∈ s.filesOf p ↔ ∃ path, k = folder p ++ path ∧
    ((⟨p.pkg, p.version, path⟩, .known (some text)) ∈ s.assets ∨
      path = Manifest.fileName ∧ text = "\x7b\x7d" ∧
        ∀ text', (⟨p.pkg, p.version, path⟩, .known (some text')) ∉ s.assets) := by
  have hlook : ((s.contents p.pkg p.version).lookup Manifest.fileName).isSome = false ↔
      ∀ text', (⟨p.pkg, p.version, Manifest.fileName⟩, .known (some text')) ∉ s.assets := by
    rw [Option.isSome_eq_false_iff, Option.isNone_iff_eq_none, List.lookup_eq_none_iff]
    constructor
    · intro hno text' hmem
      exact absurd (hno _ (mem_contents.2 hmem)) (by simp)
    · rintro hno ⟨path, text'⟩ hmem
      rw [bne_iff_ne]
      rintro rfl
      exact hno text' (mem_contents.1 hmem)
  unfold filesOf
  rw [List.mem_map]
  constructor
  · rintro ⟨⟨path, content⟩, he, heq⟩
    obtain ⟨rfl, rfl⟩ := Prod.mk.inj heq
    refine ⟨path, rfl, ?_⟩
    rcases List.mem_append.1 he with he | he
    · exact Or.inl (mem_contents.1 he)
    · split at he
      · exact absurd he (by simp)
      · next hnone =>
        obtain ⟨rfl, rfl⟩ := Prod.mk.inj (List.mem_singleton.1 he)
        exact Or.inr ⟨rfl, rfl, hlook.1 (Bool.eq_false_iff.2 hnone)⟩
  · rintro ⟨path, rfl, he | ⟨rfl, rfl, hno⟩⟩
    · exact ⟨(path, text), List.mem_append_left _ (mem_contents.2 he), rfl⟩
    · refine ⟨(Manifest.fileName, "\x7b\x7d"), List.mem_append_right _ ?_, rfl⟩
      rw [if_neg (by rw [hlook.2 hno]; simp)]
      exact List.mem_singleton.2 rfl

section Names

variable (hs : s.Sound) (hshown : s.Shown (folder p ++ path)) (hp : p ∈ Layout.place s.roots s.graph)
include hs

/-- What is required in a layout has the name of a package. -/
theorem Sound.isPackage {pkg version : String} (h : Layout.Required s.roots s.graph (pkg, version)) :
    IsPackage pkg := by
  rcases h with h | ⟨-, h, -⟩
  · exact hs.listed pkg (Or.inl (List.mem_map_of_mem h))
  · exact hs.listed pkg (Or.inr ⟨_, _, List.mem_map_of_mem h⟩)

include hp

theorem Sound.below_folder : packagesFolder ++ (folder p ++ path).toList = below p.trail.reverse path.toList := by
  have hne := (Layout.required_of_mem_trail hs.distinct.roots hs.distinct.graph hp).1
  exact Typings.below_folder (by simpa using hne) path

theorem Sound.trail_isPackage : ∀ name ∈ p.trail.reverse, IsPackage name := by
  intro name hname
  obtain ⟨v, hv⟩ := (Layout.required_of_mem_trail hs.distinct.roots hs.distinct.graph hp).2 name
    (List.mem_reverse.1 hname)
  exact hs.isPackage hv

/-- The name of a file shows the copy that it is in. -/
theorem Sound.folder_inj (hq : q ∈ Layout.place s.roots s.graph) (hpath : ¬ packagesFolder <+: path.toList)
    (hpath' : ¬ packagesFolder <+: path'.toList) (h : folder p ++ path = folder q ++ path') : p = q ∧ path = path' := by
  have hbelow : below p.trail.reverse path.toList = below q.trail.reverse path'.toList := by
    rw [← hs.below_folder hp, ← hs.below_folder hq, h]
  obtain ⟨htrail, hsame⟩ := below_inj (hs.trail_isPackage hp) (hs.trail_isPackage hq) hpath hpath' hbelow
  have happart := Layout.apart_place hs.distinct.roots hs.distinct.graph
  exact ⟨happart.eq hp hq (List.reverse_inj.1 htrail), String.toList_inj.1 hsame⟩

include hshown

/-- A file of a copy whose name shows the copy. -/
theorem Sound.mem_of_mem_filesOf (hq : q ∈ Layout.place s.roots s.graph) (hpath : ¬ packagesFolder <+: path.toList)
    (h : (folder p ++ path, text) ∈ s.filesOf q) : (⟨p.pkg, p.version, path⟩, .known (some text)) ∈ s.assets ∨
      path = Manifest.fileName ∧ ∀ text', (⟨p.pkg, p.version, path⟩, .known (some text')) ∉ s.assets := by
  obtain ⟨path', hname, hfile⟩ := mem_filesOf.1 h
  have hpath' : ¬ packagesFolder <+: path'.toList := by
    rcases hfile with hfile | ⟨rfl, -, -⟩
    · exact hshown q hq (⟨q.pkg, q.version, path'⟩, .known (some text)) hfile rfl rfl rfl hname
    · decide
  obtain ⟨rfl, rfl⟩ := hs.folder_inj hp hq hpath hpath' hname
  rcases hfile with hfile | ⟨hmanifest, -, hno⟩
  · exact Or.inl hfile
  · exact Or.inr ⟨hmanifest, hno⟩

/-- A file of a session that is no manifest was fetched. -/
theorem Sound.mem_of_lookup_files (hpath : ¬ packagesFolder <+: path.toList) (hne : path ≠ Manifest.fileName)
    (h : s.files.lookup (folder p ++ path) = some text) :
    (⟨p.pkg, p.version, path⟩, .known (some text)) ∈ s.assets := by
  obtain ⟨q, hq, hmem⟩ := List.mem_flatMap.1 (Table.mem_of_lookup_foldl_put h)
  rcases hs.mem_of_mem_filesOf hshown hp hq hpath hmem with hfile | ⟨hmanifest, -⟩
  · exact hfile
  · exact absurd hmanifest hne

/-- A file that was fetched is in every copy of its package version. -/
theorem Sound.lookup_files_of_mem (h : (⟨p.pkg, p.version, path⟩, .known (some text)) ∈ s.assets) :
    s.files.lookup (folder p ++ path) = some text := by
  have hpath : ¬ packagesFolder <+: path.toList := hshown p hp _ h rfl rfl rfl rfl
  have hfile : (folder p ++ path, text) ∈ s.filesOf p := mem_filesOf.2 ⟨path, rfl, Or.inl h⟩
  refine Table.lookup_foldl_put_of_mem (List.mem_flatMap.2 ⟨p, hp, hfile⟩) fun text' hmem => ?_
  obtain ⟨q, hq, hmem⟩ := List.mem_flatMap.1 hmem
  rcases hs.mem_of_mem_filesOf hshown hp hq hpath hmem with hfile' | ⟨-, hno⟩
  · have hsame := hs.lookup hfile'
    rw [hs.lookup h] at hsame
    simpa using hsame.symm
  · exact absurd h (hno text)

end Names

/-- A file that was fetched for a package version on which the project depends is in the folder of the package. -/
theorem Sound.lookup_files_of_root (hs : s.Sound) {pkg version : String} (hroot : (pkg, version) ∈ s.roots)
    (hpath : ¬ packagesFolder <+: path.toList) (h : (⟨pkg, version, path⟩, .known (some text)) ∈ s.assets) :
    s.files.lookup (pkg ++ "/" ++ path) = some text := by
  obtain ⟨p, hp, htrail, hversion⟩ := Layout.exists_of_at? (Layout.at?_place_root (g := s.graph) hs.distinct.roots hroot)
  obtain rfl : p.version = version := hversion
  obtain rfl : p.pkg = pkg := by rw [Placed.pkg, htrail]; rfl
  have hfolder : folder p = p.pkg ++ "/" := by
    unfold folder
    rw [htrail]
    rfl
  rw [← hfolder]
  have hfile : (folder p ++ path, text) ∈ s.filesOf p := mem_filesOf.2 ⟨path, rfl, Or.inl h⟩
  refine Table.lookup_foldl_put_of_mem (List.mem_flatMap.2 ⟨p, hp, hfile⟩) fun text' hmem => ?_
  obtain ⟨q, hq, hmem⟩ := List.mem_flatMap.1 hmem
  obtain ⟨path', hname, hfile'⟩ := mem_filesOf.1 hmem
  -- a copy inside the package has its files in the folder of packages
  have hbelow : below [p.pkg] path.toList = below q.trail.reverse path'.toList := by
    rw [← hs.below_folder hq, ← hname, hs.below_folder hp, htrail]
    rfl
  obtain ⟨rfl, rfl⟩ : q = p ∧ path' = path := by
    have hpkg : IsPackage p.pkg := hs.listed _ (Or.inl (List.mem_map_of_mem hroot))
    have hnames := hs.trail_isPackage hq
    have hne : q.trail.reverse ≠ [] := by
      have hq' := (Layout.required_of_mem_trail hs.distinct.roots hs.distinct.graph hq).1
      simpa using hq'
    obtain ⟨name, names, hnames'⟩ := List.exists_cons_of_ne_nil hne
    rw [hnames'] at hbelow hnames
    obtain ⟨rfl, hrest⟩ := hpkg.append_mark_inj (hnames name List.mem_cons_self) (by decide)
      (List.append_cancel_left hbelow)
    rcases names with _ | ⟨next, names⟩
    · refine ⟨(Layout.apart_place hs.distinct.roots hs.distinct.graph).eq hq hp ?_, String.toList_inj.1 hrest.symm⟩
      rw [htrail, ← List.reverse_inj, hnames']
      rfl
    · refine absurd ?_ hpath
      rw [show path.toList = below (next :: names) path'.toList from hrest]
      exact List.prefix_append _ _
  rcases hfile' with hfile' | ⟨-, -, hno⟩
  · have hsame := hs.lookup hfile'
    rw [hs.lookup h] at hsame
    simpa using hsame.symm
  · exact absurd h (hno text)

end Session

end Typings

end BareImports
