import BareImports.Proofs.Files.Place
import BareImports.Proofs.Files.Write
import BareImports.Proofs.Table
import Mathlib.Data.List.Nodup
import Mathlib.Data.List.Perm.Subperm

/-!
# A project has the texts of its folder

* `placeSegments_join` : the place of a path seen from a folder; `leadsTo_eq` : the place of a name in an output folder;
* `walk_eq`, `placeOf_of_find?` : a path leads to the place that it names by its spelling;
* `Tree.Proper t` : all files and folders are at places of names; `Tree.Grounded t`, files are in folders that are there;
* `of_mem_load`, `load_names` : the files of a project come from texts at places of names, none in a folder of installed
  packages;
* `mem_loadFolder` : a text below a folder is among the files that the folder is loaded with;
* `mem_load` : a text of a project, in no folder of installed packages and not in the folder that is left out, is loaded.
-/

namespace BareImports.Files

open Text Url

/-! ## Places by spelling -/

section Spelling

variable {p q : Place}

/-- The place of a path seen from a folder: the steps of the path, taken from the place of the folder. -/
theorem placeSegments_join {base s : List Char} (hbase : base ≠ []) (hs : startsWith "/" s = false) :
    Path.placeSegments (Path.join base s) =
      ((Path.segments s).foldl (Path.normalizeStep true) (Path.placeSegments base).reverse).reverse := by
  unfold Path.join
  rw [hs, if_neg (by simp)]
  split
  · next hslash =>
    have hends : endsWith "/" base = true := by simpa [hbase] using hslash
    rw [Location.endsWith_slash, beq_iff_eq] at hends
    obtain ⟨front, rfl⟩ := List.getLast?_eq_some_iff.1 hends
    rw [placeSegments_concat_slash]
    unfold Path.placeSegments Path.normalSegments Path.segments
    rw [List.append_assoc, List.singleton_append, List.splitOn_append_cons_self, List.foldl_append, List.reverse_reverse]
  · unfold Path.placeSegments Path.normalSegments Path.segments
    rw [List.splitOn_append_cons_self, List.foldl_append, List.reverse_reverse]

theorem root_cases {s : List Char} (h : Path.root s ≠ []) : Path.root s = ['/'] ∨ Path.root s = ['/', '/'] := by
  unfold Path.root at h ⊢
  split <;> simp_all

theorem normalize_of_root {s : List Char} (h : Path.root s ≠ []) :
    Path.normalize s = Path.root s ++ ['/'].intercalate (Path.placeSegments s) := by
  have hsegs : Path.normalSegments true (Path.segments s) = Path.placeSegments s := rfl
  unfold Path.normalize
  rcases root_cases h with hr | hr <;> rw [hr] <;> dsimp only <;>
    rw [show (!(List.isEmpty _)) = true from rfl, hsegs] <;> rfl

/-- The shortest spelling of an absolute path names the same place. -/
theorem placeSegments_normalize {s : List Char} (h : Path.root s ≠ []) :
    Path.placeSegments (Path.normalize s) = Path.placeSegments s := by
  have hp := proper_placeSegments s
  rw [normalize_of_root h]
  rcases root_cases h with hr | hr
  · rw [hr]
    exact placeSegments_spelling hp
  · rw [hr]
    show Path.placeSegments ('/' :: spelling (Path.placeSegments s)) = _
    have hnames : ∀ g ∈ ('/' :: spelling (Path.placeSegments s)).splitOn '/', g = [] ∨ IsName g := by
      intro g hg
      rw [splitOn_slash] at hg
      exact (List.mem_cons.1 hg).elim Or.inl (names_spelling hp g)
    rw [placeSegments_eq hnames, splitOn_slash, List.filter_cons_of_neg (by simp), filter_spelling hp]

theorem root_join {base s : List Char} (hbase : base.head? = some '/') : Path.root (Path.join base s) ≠ [] := by
  have hhead : (Path.join base s).head? = some '/' := by
    unfold Path.join
    split
    · next habs =>
      obtain ⟨t, rfl⟩ := List.isPrefixOf_iff_prefix.1 habs
      rfl
    · obtain ⟨c, rest, rfl⟩ := List.exists_cons_of_ne_nil (l := base) (by rintro rfl; simp at hbase)
      split <;> simpa using hbase
  obtain ⟨c, rest, hcons⟩ := List.exists_cons_of_ne_nil (l := Path.join base s) (by intro h; simp [h] at hhead)
  rw [hcons] at hhead ⊢
  obtain rfl : c = '/' := by simpa using hhead
  unfold Path.root
  split <;> simp_all

theorem head?_absolute {base s : List Char} (hbase : base.head? = some '/') : (Path.absolute base s).head? = some '/' := by
  unfold Path.absolute
  rw [normalize_of_root (root_join hbase)]
  rcases root_cases (root_join (s := s) hbase) with hr | hr <;> rw [hr] <;> rfl

theorem placeSegments_absolute {base s : List Char} (hbase : base.head? = some '/') :
    Path.placeSegments (Path.absolute base s) = Path.placeSegments (Path.join base s) :=
  placeSegments_normalize (root_join hbase)

/-- Names below a folder are taken as they are. -/
theorem foldl_names (hq : Proper q) (done : Place) :
    (['/'].intercalate q |> Path.segments).foldl (Path.normalizeStep true) done = q.reverse ++ done := by
  by_cases hne : q = []
  · subst hne
    rfl
  · unfold Path.segments
    rw [splitOn_intercalate hq hne, foldl_normalizeStep fun g hg => Or.inr (hq g hg).1, hq.filter]

theorem startsWith_intercalate (hq : Proper q) : startsWith "/" (['/'].intercalate q) = false := by
  rw [startsWith_slash]
  simpa using head?_intercalate hq

/-- A folder below another one, by its spelling. -/
theorem placeSegments_below {base : List Char} (hbase : base.head? = some '/') (hq : Proper q) :
    Path.placeSegments (Path.normalize (Path.join base (['/'].intercalate q))) = Path.placeSegments base ++ q := by
  have hne : base ≠ [] := by
    rintro rfl
    simp at hbase
  rw [placeSegments_normalize (root_join hbase), placeSegments_join hne (startsWith_intercalate hq), foldl_names hq]
  simp

/-- A name of names, seen from an output folder, leads below it. -/
theorem pathIn_eq (hp : Proper p) (hq : Proper q) (hne : q ≠ []) {name : List Char} (hname : name = ['/'].intercalate q) :
    pathIn (spelling p) name = spelling (p ++ q) := by
  have hnames : ∀ g ∈ name.splitOn '/', IsName g := by
    rw [hname, splitOn_intercalate hq hne]
    exact fun g hg => (hq g hg).1
  rw [pathIn_spelling hp hnames, hname, splitOn_intercalate hq hne]

theorem leadsTo_eq (hp : Proper p) (hq : Proper q) (hne : q ≠ []) {name : String}
    (hname : name.toList = ['/'].intercalate q) : leadsTo (spelling p) name = p ++ q := by
  unfold leadsTo
  rw [pathIn_eq hp hq hne hname, placeSegments_spelling (hp.append hq)]

end Spelling

/-! ## Places by walking -/

namespace Tree

variable {t : Tree}

/-- Steps that lead somewhere lead to the place that they name. -/
theorem walk_eq {segs : List (List Char)} {p q : Place} (hp : ∀ g ∈ p, IsName g) (h : t.walk p segs = some q) :
    q = (segs.foldl (Path.normalizeStep true) p.reverse).reverse := by
  induction segs generalizing p with
  | nil =>
    obtain rfl : p = q := Option.some.inj h
    exact p.reverse_reverse.symm
  | cons seg segs ih =>
    unfold walk at h
    rw [List.foldl_cons]
    split at h
    · exact absurd h (by simp)
    split at h
    · next hstay =>
      have hstep : Path.normalizeStep true p.reverse seg = p.reverse := by
        unfold Path.normalizeStep
        rw [if_pos hstay]
      rw [hstep]
      exact ih hp h
    · next hstay =>
      split at h
      · next hup =>
        have hstep : Path.normalizeStep true p.reverse seg = p.dropLast.reverse := by
          unfold Path.normalizeStep
          rw [if_neg hstay, if_neg (by simpa using hup)]
          rcases List.eq_nil_or_concat p with rfl | ⟨front, g, rfl⟩
          · rfl
          · rw [List.concat_eq_append] at hp ⊢
            have hname := hp g (by simp)
            rw [List.reverse_append, List.dropLast_concat]
            exact if_neg (by simpa using hname.2.2)
        rw [hstep]
        exact ih (fun g hg => hp g ((List.dropLast_sublist p).subset hg)) h
      · next hup =>
        split at h
        · have hstep : Path.normalizeStep true p.reverse seg = (p ++ [seg]).reverse := by
            unfold Path.normalizeStep
            rw [if_neg hstay, if_pos (by simpa using hup), List.reverse_append]
            rfl
          rw [hstep]
          refine ih (fun g hg => ?_) h
          rcases List.mem_append.1 hg with hg | hg
          · exact hp g hg
          · obtain rfl := List.mem_singleton.1 hg
            simp only [Bool.or_eq_true, beq_iff_eq, not_or] at hstay
            exact ⟨hstay.1, hstay.2, by simpa using hup⟩
        · exact absurd h (by simp)

theorem head?_herePath : t.herePath.head? = some '/' := rfl

/-- A path that leads somewhere leads to the place that it names. -/
theorem placeOf_of_find? (hhere : Files.Proper t.here) {s : List Char} {p : Place} {e : Entry}
    (h : t.find? s = some (p, e)) : p = t.placeOf s := by
  unfold find? at h
  split at h
  · exact absurd h (by simp)
  obtain ⟨q, hq, h⟩ := Option.bind_eq_some_iff.1 h
  obtain ⟨e', -, h⟩ := Option.bind_eq_some_iff.1 h
  obtain ⟨rfl, -⟩ := Prod.mk.inj (Option.some.inj h)
  unfold placeOf
  rw [placeSegments_absolute head?_herePath]
  by_cases habs : startsWith "/" s = true
  · rw [if_pos habs] at hq
    unfold Path.join
    rw [if_pos habs]
    exact walk_eq (by simp) hq
  · rw [if_neg habs] at hq
    rw [placeSegments_join (by simp [herePath]) (by simpa using habs)]
    have hplace : Path.placeSegments t.herePath = t.here := placeSegments_spelling hhere
    rw [hplace]
    exact walk_eq (fun g hg => (hhere g hg).1) hq

/-! ## Folders -/

/-- The names of all files and folders are names. -/
structure Proper (t : Tree) : Prop where
  /-- Those of the folders. -/
  folders : ∀ p ∈ t.folders, Files.Proper p
  /-- Those of the files. -/
  files : ∀ e ∈ t.files, Files.Proper e.1

/-- Files are in folders that are there, all at places of names. -/
structure Grounded (t : Tree) : Prop extends t.Proper where
  /-- The folders around a file are there. -/
  folder : ∀ e ∈ t.files, ∀ p, p ≠ [] → p <+: e.1.dropLast → p ∈ t.folders

theorem dropLast_concat_iff {q p : Place} {g : List Char} : q.dropLast = p ∧ q.getLast? = some g ↔ q = p ++ [g] := by
  constructor
  · rintro ⟨rfl, hlast⟩
    exact (List.dropLast_append_getLast? g hlast).symm
  · rintro rfl
    simp

theorem lookup_filesIn (p : Place) (g : List Char) : (t.filesIn p).lookup g = t.files.lookup (p ++ [g]) := by
  unfold filesIn
  induction t.files with
  | nil => rfl
  | cons e files ih =>
    obtain ⟨q, bs⟩ := e
    rw [List.filterMap_cons, lookup_cons_place]
    dsimp only
    by_cases hq : p ++ [g] = q
    · subst hq
      rw [if_pos rfl, if_pos (by simp), List.getLast?_concat]
      simp
    · rw [if_neg hq, ← ih]
      split
      · rfl
      · next e he =>
        split at he
        · next hp =>
          obtain ⟨g', hg', rfl⟩ := Option.map_eq_some_iff.1 he
          have hne : g ≠ g' := by
            rintro rfl
            exact hq (dropLast_concat_iff.1 ⟨beq_iff_eq.1 hp, hg'⟩).symm
          rw [List.lookup_cons, beq_eq_false_iff_ne.2 hne]
        · exact absurd he (by simp)

theorem mem_subfolders {p : Place} {g : List Char} (h : p ++ [g] ∈ t.folders) : g ∈ t.subfolders p := by
  unfold subfolders
  exact List.mem_filterMap.2 ⟨p ++ [g], h, by simp⟩

/-- A file is no deeper than there are folders. -/
theorem Grounded.depth_le (h : t.Grounded) {p q : Place} {bs : List UInt8} (hfile : t.files.lookup (p ++ q) = some bs) :
    q.length ≤ t.folders.length + 1 := by
  let around := (List.range (q.length - 1)).map fun i => p ++ q.take (i + 1)
  have hnodup : around.Nodup := by
    refine List.Nodup.map_on (fun i hi j hj hij => ?_) List.nodup_range
    have hlen := congrArg List.length hij
    rw [List.length_append, List.length_append, List.length_take, List.length_take] at hlen
    have hi := List.mem_range.1 hi
    have hj := List.mem_range.1 hj
    omega
  have hsub : around ⊆ t.folders := by
    intro x hx
    obtain ⟨i, hi, rfl⟩ := List.mem_map.1 hx
    have hi := List.mem_range.1 hi
    refine h.folder _ (Table.mem_of_lookup hfile) _ (fun hnil => ?_) ?_
    · have hlen := congrArg List.length hnil
      rw [List.length_append, List.length_take, List.length_nil] at hlen
      omega
    · rw [List.dropLast_eq_take, List.length_append]
      have htake : p ++ q.take (i + 1) = (p ++ q).take (p.length + (i + 1)) := by
        rw [List.take_length_add_append]
      rw [htake]
      exact List.take_prefix_take_left (by omega)
  have hle := (List.subperm_of_subset hnodup hsub).length_le
  rw [List.length_map, List.length_range] at hle
  omega

end Tree

/-! ## Projects -/

namespace Project

variable {t : Tree}

/-! ### What is loaded -/

/-- A file of a project lies at a place of names, and in no folder of installed packages. -/
def Owned (name : String) : Prop :=
  ∃ p : Place, p ≠ [] ∧ Proper p ∧ (∀ g ∈ p.dropLast, g ≠ installed) ∧ name.toList = ['/'].intercalate p

theorem mem_foldl_both {parts : List Loaded} {f : Build.File} {start : Loaded}
    (h : f ∈ (parts.foldl both start).1) : f ∈ start.1 ∨ ∃ part ∈ parts, f ∈ part.1 := by
  induction parts generalizing start with
  | nil => exact Or.inl h
  | cons part parts ih =>
    rcases ih h with h | ⟨part', hmem, h⟩
    · exact (List.mem_append.1 h).imp_right fun h => ⟨part, List.mem_cons_self, h⟩
    · exact Or.inr ⟨part', List.mem_cons_of_mem _ hmem, h⟩

theorem mem_loadFile {name : List Char} {bs : List UInt8} {f : Build.File} (h : f ∈ (loadFile name bs).1) :
    ∃ cs, Tree.decode bs = .ok cs ∧ f = ⟨String.ofList name, String.ofList cs, none⟩ := by
  unfold loadFile at h
  dsimp only at h
  split at h
  · next cs hcs => exact ⟨cs, hcs, List.mem_singleton.1 h⟩
  · exact absurd h (by simp)

theorem mem_sortedNames {names : List (List Char)} {n : List Char} : n ∈ sortedNames names ↔ n ∈ names :=
  List.mem_mergeSort

theorem nameIn_intercalate (p : Place) {g : List Char} (hp : Proper p) :
    nameIn (['/'].intercalate p) g = ['/'].intercalate (p ++ [g]) := by
  unfold nameIn
  by_cases hne : p = []
  · subst hne
    simp [List.intercalate]
  · obtain ⟨c, hc, -⟩ := getLast?_intercalate hp hne
    rw [intercalate_concat hne, if_neg]
    intro hempty
    rw [List.isEmpty_iff.1 hempty] at hc
    exact absurd hc (by simp)

/-- What a file of a project was loaded from: a text below a folder, in no folder of installed packages. -/
def LoadedFrom (t : Tree) (place : Place) (f : Build.File) (q : Place) : Prop :=
  q ≠ [] ∧ Proper q ∧ (∀ g ∈ q.dropLast, g ≠ installed) ∧
    ∃ bs cs, t.files.lookup (place ++ q) = some bs ∧ Tree.decode bs = .ok cs ∧ f.content = String.ofList cs

theorem of_mem_loadFolder (ht : t.Proper) (base : List Char) (skip : Option (List Char)) (fuel : Nat) :
    ∀ (place p : Place), Proper p → ∀ f, f ∈ (loadFolder t base skip fuel place (['/'].intercalate p)).1 →
      ∃ q, LoadedFrom t place f q ∧ f.name.toList = ['/'].intercalate (p ++ q) := by
  induction fuel with
  | zero => exact fun place p hp f hf => absurd hf (by simp [loadFolder])
  | succ fuel ih =>
    intro place p hp f hf
    unfold loadFolder at hf
    dsimp only at hf
    rcases mem_foldl_both hf with hf | ⟨part, hpart, hf⟩
    · exact absurd hf (by simp)
    rcases List.mem_append.1 hpart with hpart | hpart
    · -- a file of the folder itself
      obtain ⟨g, hg, rfl⟩ := List.mem_map.1 hpart
      rw [mem_sortedNames, List.mem_map] at hg
      obtain ⟨⟨g', bs⟩, hmem, rfl⟩ := hg
      have hsome : ∃ bs, t.files.lookup (place ++ [g']) = some bs := by
        rw [← Tree.lookup_filesIn]
        refine Option.ne_none_iff_exists'.1 fun hnone => ?_
        exact absurd (List.lookup_eq_none_iff.1 hnone _ hmem) (by simp)
      obtain ⟨bs', hlook⟩ := hsome
      have hname := ht.files _ (Table.mem_of_lookup hlook) g' (by simp)
      rw [Tree.lookup_filesIn, hlook, nameIn_intercalate p hp] at hf
      obtain ⟨cs, hcs, rfl⟩ := mem_loadFile hf
      refine ⟨[g'], ⟨by simp, fun x hx => ?_, by simp, bs', cs, hlook, hcs, rfl⟩, String.toList_ofList⟩
      rwa [List.mem_singleton.1 hx]
    · -- a file of a folder in it
      obtain ⟨g, hg, rfl⟩ := List.mem_map.1 hpart
      rw [mem_sortedNames, List.mem_filter] at hg
      obtain ⟨hmem, henter⟩ := hg
      obtain ⟨r, hr, hlast⟩ := List.mem_filterMap.1 hmem
      split at hlast
      swap
      · exact absurd hlast (by simp)
      have hname := ht.folders r hr g (List.mem_of_getLast? hlast)
      have hnot : g ≠ installed := by
        intro hsame
        simp [hsame] at henter
      rw [nameIn_intercalate p hp] at hf
      have hnext : Proper (p ++ [g]) := hp.append fun x hx => by rwa [List.mem_singleton.1 hx]
      obtain ⟨q, ⟨hne, hq, hinstalled, hfrom⟩, hname'⟩ := ih (place ++ [g]) (p ++ [g]) hnext f hf
      refine ⟨g :: q, ⟨by simp, fun x hx => ?_, fun x hx => ?_, ?_⟩, ?_⟩
      · rcases List.mem_cons.1 hx with rfl | hx
        · exact hname
        · exact hq x hx
      · rw [List.dropLast_cons_of_ne_nil hne] at hx
        rcases List.mem_cons.1 hx with rfl | hx
        · exact hnot
        · exact hinstalled x hx
      · rwa [List.append_assoc] at hfrom
      · rwa [List.append_assoc] at hname'

/-- The files of a project come from texts below one folder, and are named for the way from there. -/
theorem of_mem_load (ht : t.Proper) {source : String} {skip : Option String} {loaded : Loaded}
    (h : load t source skip = .ok loaded) : ∃ place, ∀ f ∈ loaded.1, ∃ q, LoadedFrom t place f q ∧
      f.name.toList = ['/'].intercalate q := by
  unfold load at h
  dsimp only at h
  split at h
  · exact absurd h (by simp)
  · split at h
    · next place _ =>
      obtain rfl := Except.ok.inj h
      exact ⟨place, fun f hf => of_mem_loadFolder ht _ _ _ place [] (by simp [Proper]) f hf⟩
    · obtain rfl := Except.ok.inj h
      exact ⟨[], fun f hf => absurd hf (by simp)⟩

/-- The files of a project lie at places of names, and in no folder of installed packages. -/
theorem load_names (ht : t.Proper) {source : String} {skip : Option String} {loaded : Loaded}
    (h : load t source skip = .ok loaded) {f : Build.File} (hf : f ∈ loaded.1) : Owned f.name := by
  obtain ⟨place, hplace⟩ := of_mem_load ht h
  obtain ⟨q, ⟨hne, hq, hinstalled, -⟩, hname⟩ := hplace f hf
  exact ⟨q, hne, hq, hinstalled, hname⟩

/-- Files of a project with one name have one text. -/
theorem load_content_eq (ht : t.Proper) {source : String} {skip : Option String} {loaded : Loaded}
    (h : load t source skip = .ok loaded) {f g : Build.File} (hf : f ∈ loaded.1) (hg : g ∈ loaded.1)
    (hname : f.name = g.name) : f.content = g.content := by
  obtain ⟨place, hplace⟩ := of_mem_load ht h
  obtain ⟨q, ⟨hne, hq, -, bs, cs, hlook, hcs, hf⟩, hfq⟩ := hplace f hf
  obtain ⟨r, ⟨hner, hr, -, bs', cs', hlook', hcs', hg⟩, hgr⟩ := hplace g hg
  obtain rfl : q = r := by
    rw [← splitOn_intercalate hq hne, ← splitOn_intercalate hr hner, ← hfq, ← hgr, hname]
  obtain rfl : bs = bs' := Option.some.inj (hlook.symm.trans hlook')
  obtain rfl : cs = cs' := Except.ok.inj (hcs.symm.trans hcs')
  rw [hf, hg]

/-! ### What is not left out -/

theorem mem_foldl_both_of_mem {parts : List Loaded} {part : Loaded} {f : Build.File} (hpart : part ∈ parts)
    (hf : f ∈ part.1) (start : Loaded) : f ∈ (parts.foldl both start).1 := by
  have hkeep : ∀ (parts : List Loaded) (start : Loaded), f ∈ start.1 → f ∈ (parts.foldl both start).1 := by
    intro parts
    induction parts with
    | nil => exact fun _ h => h
    | cons a parts ih => exact fun start h => ih _ (List.mem_append_left _ h)
  induction parts generalizing start with
  | nil => exact absurd hpart (by simp)
  | cons a parts ih =>
    rcases List.mem_cons.1 hpart with rfl | hpart
    · exact hkeep parts _ (List.mem_append_right _ hf)
    · exact ih hpart _

/-- A text below a folder, in folders that are entered, is among the files that the folder is loaded with. -/
theorem mem_loadFolder (base : List Char) (skip : Option (List Char)) {bs : List UInt8} {cs : List Char}
    (hdecode : Tree.decode bs = .ok cs) {q : Place} : ∀ (fuel : Nat) (place p : Place), Proper p → Proper q → q ≠ [] →
      q.length ≤ fuel → t.files.lookup (place ++ q) = some bs → (∀ g ∈ q.dropLast, g ≠ installed) →
      (∀ x, x ≠ [] → x <+: q.dropLast → place ++ x ∈ t.folders ∧
        some (Path.normalize (Path.join base (['/'].intercalate (p ++ x)))) ≠ skip) →
      ⟨String.ofList (['/'].intercalate (p ++ q)), String.ofList cs, none⟩ ∈
        (loadFolder t base skip fuel place (['/'].intercalate p)).1 := by
  -- by induction on the names that lead from the folder to the text
  induction q with
  | nil => exact fun _ _ _ _ _ hne => absurd rfl hne
  | cons g q ih =>
    intro fuel place p hp hq _ hfuel hfile hinstalled henter
    obtain ⟨fuel, rfl⟩ : ∃ n, fuel = n + 1 := ⟨fuel - 1, by rw [List.length_cons] at hfuel; omega⟩
    unfold loadFolder
    dsimp only
    by_cases hlast : q = []
    · subst hlast
      have hlook : (t.filesIn place).lookup g = some bs := by rw [Tree.lookup_filesIn, hfile]
      have hname : g ∈ sortedNames ((t.filesIn place).map (·.1)) := by
        obtain ⟨before, behind, hfiles, -⟩ := List.lookup_eq_some_iff.1 hlook
        rw [mem_sortedNames, hfiles]
        simp
      refine mem_foldl_both_of_mem (List.mem_append_left _ (List.mem_map_of_mem hname)) ?_ _
      rw [hlook, nameIn_intercalate p hp]
      show _ ∈ (loadFile (['/'].intercalate (p ++ [g])) bs).1
      unfold loadFile
      rw [hdecode]
      exact List.mem_singleton_self _
    · have hdrop : (g :: q).dropLast = g :: q.dropLast := List.dropLast_cons_of_ne_nil hlast
      rw [hdrop] at hinstalled henter
      have hfolder := henter [g] (by simp) ⟨q.dropLast, rfl⟩
      have hname : g ∈ sortedNames ((t.subfolders place).filter fun n =>
          n != installed && some (Path.normalize (Path.join base (nameIn (['/'].intercalate p) n))) != skip) := by
        rw [mem_sortedNames, List.mem_filter, nameIn_intercalate p hp, Bool.and_eq_true, bne_iff_ne, bne_iff_ne]
        exact ⟨Tree.mem_subfolders hfolder.1, hinstalled g List.mem_cons_self, hfolder.2⟩
      refine mem_foldl_both_of_mem (List.mem_append_right _ (List.mem_map_of_mem hname)) ?_ _
      rw [nameIn_intercalate p hp, show p ++ g :: q = p ++ [g] ++ q by simp]
      refine ih fuel _ _ (hp.append fun x hx => ?_) (fun x hx => hq x (List.mem_cons_of_mem g hx)) hlast
        (by rw [List.length_cons] at hfuel; omega) (by rw [← hfile]; simp)
        (fun x hx => hinstalled x (List.mem_cons_of_mem g hx)) fun x hne hx => ?_
      · rw [List.mem_singleton.1 hx]
        exact hq g List.mem_cons_self
      · have hbelow := henter (g :: x) (by simp) (List.cons_prefix_cons.2 ⟨rfl, hx⟩)
        rw [show place ++ g :: x = place ++ [g] ++ x by simp, show p ++ g :: x = p ++ [g] ++ x by simp] at hbelow
        exact hbelow

/-- A text of a project, in no folder of installed packages and not in the folder that is left out, is loaded. -/
theorem mem_load (ht : t.Grounded) (hhere : Proper t.here) {source : String} {skip : String} {loaded : Loaded}
    (h : load t source (some skip) = .ok loaded) (hsource : t.isFolder source.toList = true) {q : Place}
    {bs : List UInt8} {cs : List Char} (hne : q ≠ []) (hfile : t.files.lookup (t.placeOf source.toList ++ q) = some bs)
    (hdecode : Tree.decode bs = .ok cs) (hinstalled : ∀ g ∈ q.dropLast, g ≠ installed)
    (hout : ¬ t.placeOf skip.toList <+: t.placeOf source.toList ++ q) :
    ⟨String.ofList (['/'].intercalate q), String.ofList cs, none⟩ ∈ loaded.1 := by
  have hfull : Proper (t.placeOf source.toList ++ q) := ht.files _ (Table.mem_of_lookup hfile)
  have hq : Proper q := fun g hg => hfull g (List.mem_append_right _ hg)
  obtain ⟨place, hfind⟩ : ∃ place, t.find? source.toList = some (place, .folder) := by
    unfold Tree.isFolder at hsource
    split at hsource
    · next place hfind => exact ⟨place, hfind⟩
    · exact absurd hsource (by simp)
  obtain rfl := Tree.placeOf_of_find? hhere hfind
  unfold load at h
  dsimp only at h
  split at h
  · exact absurd h (by simp)
  rw [hfind] at h
  obtain rfl := Except.ok.inj h
  have hloaded := mem_loadFolder (t := t) (Path.absolute t.herePath source.toList)
    (if skip.isEmpty then none else some (Path.absolute t.herePath skip.toList)) hdecode (t.folders.length + 1)
    (t.placeOf source.toList) [] (by simp [Proper]) hq hne (ht.depth_le hfile) hfile hinstalled
  refine hloaded fun x hx hpre => ⟨?_, fun hsame => ?_⟩
  · refine ht.folder _ (Table.mem_of_lookup hfile) _ (by simp [hx]) ?_
    rw [List.dropLast_append_of_ne_nil hne]
    exact (List.prefix_append_right_inj _).2 hpre
  · -- a folder that is left out would hold the text
    split at hsame
    · exact absurd hsame (by simp)
    · have hplace := congrArg Path.placeSegments (Option.some.inj hsame)
      have hx' : Proper x := fun g hg => hq g ((List.dropLast_sublist q).subset (hpre.subset hg))
      rw [List.nil_append, placeSegments_below (head?_absolute Tree.head?_herePath) hx'] at hplace
      refine hout ?_
      show Path.placeSegments (Path.absolute t.herePath skip.toList) <+: _
      rw [← hplace]
      exact (List.prefix_append_right_inj _).2 (hpre.trans (List.dropLast_prefix q))

end Project

end BareImports.Files
