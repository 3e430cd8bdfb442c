import BareImports.Files.Project
import BareImports.Proofs.Location.Key
import BareImports.Proofs.Url.Relative

/-!
# Places in output folders

* `Proper p` : a place of names; `spelling p`, its shortest absolute spelling;
* `absolute_spelling` : an output folder is spelled as a place;
* `pathIn_spelling`, `writeOne_spelling` : a path of names is written to the place that it names below the output folder.
-/

namespace BareImports.Files

open Text Url

/-- A place of names. -/
def Proper (p : Place) : Prop := ∀ g ∈ p, IsName g ∧ '/' ∉ g

instance (p : Place) : Decidable (Proper p) := inferInstanceAs (Decidable (∀ g ∈ p, _ ∧ _))

/-- The shortest absolute spelling of a place. -/
def spelling (p : Place) : List Char := '/' :: ['/'].intercalate p

section Spelling

variable {p q : Place} {g : List Char}

theorem Proper.append (hp : Proper p) (hq : Proper q) : Proper (p ++ q) := fun g hg =>
  (List.mem_append.1 hg).elim (hp g) (hq g)

theorem proper_splitOn {s : List Char} (h : ∀ g ∈ s.splitOn '/', IsName g) : Proper (s.splitOn '/') :=
  fun g hg => ⟨h g hg, Path.not_mem_of_mem_splitOn hg⟩

theorem splitOn_intercalate (hp : Proper p) (hne : p ≠ []) : (['/'].intercalate p).splitOn '/' = p :=
  List.splitOn_intercalate _ (fun g hg => (hp g hg).2) hne

theorem Proper.filter (hp : Proper p) : p.filter (!·.isEmpty) = p := filter_names fun g hg => (hp g hg).1

theorem filter_spelling (hp : Proper p) : ((spelling p).splitOn '/').filter (!·.isEmpty) = p := by
  unfold spelling
  rw [splitOn_slash]
  by_cases hne : p = []
  · subst hne
    rfl
  · rw [splitOn_intercalate hp hne, List.filter_cons_of_neg (by simp), hp.filter]

theorem names_spelling (hp : Proper p) : ∀ g ∈ (spelling p).splitOn '/', g = [] ∨ IsName g := by
  intro g hg
  by_cases hempty : g = []
  · exact Or.inl hempty
  · have hmem : g ∈ ((spelling p).splitOn '/').filter (!·.isEmpty) := by
      rw [List.mem_filter]
      exact ⟨hg, by simpa using hempty⟩
    rw [filter_spelling hp] at hmem
    exact Or.inr (hp g hmem).1

theorem placeSegments_spelling (hp : Proper p) : Path.placeSegments (spelling p) = p := by
  rw [placeSegments_eq (names_spelling hp), filter_spelling hp]

theorem root_cons {s : List Char} (h : s.head? ≠ some '/') : Path.root ('/' :: s) = ['/'] := by
  cases s with
  | nil => rfl
  | cons c s =>
    have hc : c ≠ '/' := by simpa using h
    simp [Path.root, hc]

theorem root_two {s : List Char} (h : s.head? ≠ some '/') : Path.root ('/' :: '/' :: s) = ['/', '/'] := by
  cases s with
  | nil => rfl
  | cons c s =>
    have hc : c ≠ '/' := by simpa using h
    simp [Path.root, hc]

/-- A place is spelled without a slash in front. -/
theorem head?_intercalate (hp : Proper p) : (['/'].intercalate p).head? ≠ some '/' := by
  rcases p with _ | ⟨g, p⟩
  · simp [List.intercalate]
  · obtain ⟨⟨hne, -⟩, hslash⟩ := hp g List.mem_cons_self
    obtain ⟨c, g, rfl⟩ := List.exists_cons_of_ne_nil hne
    have hc : c ≠ '/' := fun hc => hslash (by simp [hc])
    have hcons : (['/'].intercalate ((c :: g) :: p)).head? = some c := by cases p <;> rfl
    rw [hcons]
    simpa using hc

theorem root_spelling (hp : Proper p) : Path.root (spelling p) = ['/'] := root_cons (head?_intercalate hp)

theorem normalize_spelling (hp : Proper p) : Path.normalize (spelling p) = spelling p := by
  have hsegs : Path.normalSegments true (Path.segments (spelling p)) = p := placeSegments_spelling hp
  unfold Path.normalize
  rw [root_spelling hp]
  dsimp only
  rw [show (!(['/'] : List Char).isEmpty) = true from rfl, hsegs]
  rfl

theorem intercalate_concat (hne : p ≠ []) : ['/'].intercalate (p ++ [g]) = ['/'].intercalate p ++ '/' :: g := by
  induction p with
  | nil => exact absurd rfl hne
  | cons x p ih =>
    cases p with
    | nil => simp [List.intercalate]
    | cons y p =>
      have hrest := ih (by simp)
      have hfront : ['/'].intercalate (x :: y :: p) = x ++ '/' :: ['/'].intercalate (y :: p) := intercalate_cons (by simp)
      rw [List.cons_append, intercalate_cons (by simp), hrest, hfront, List.append_assoc]
      rfl

theorem getLast?_intercalate (hp : Proper p) (hne : p ≠ []) : ∃ c, (['/'].intercalate p).getLast? = some c ∧ c ≠ '/' := by
  rcases List.eq_nil_or_concat p with rfl | ⟨front, g, rfl⟩
  · exact absurd rfl hne
  · rw [List.concat_eq_append] at hp ⊢
    obtain ⟨⟨hg, -⟩, hslash⟩ := hp g (by simp)
    obtain ⟨c, hc⟩ := Option.ne_none_iff_exists'.1 (fun h => hg (List.getLast?_eq_none_iff.1 h))
    refine ⟨c, ?_, fun h => hslash (h ▸ List.mem_of_getLast? hc)⟩
    by_cases hf : front = []
    · subst hf
      simpa [List.intercalate] using hc
    · rw [intercalate_concat hf, List.getLast?_append_cons, List.getLast?_cons, hc]
      rfl

theorem startsWith_slash (s : List Char) : startsWith "/" s = (s.head? == some '/') := by
  cases s with
  | nil => rfl
  | cons c s =>
    show ['/'].isPrefixOf (c :: s) = _
    rw [Bool.eq_iff_iff, List.isPrefixOf_cons_cons, Bool.and_eq_true, beq_iff_eq, beq_iff_eq]
    exact ⟨fun h => congrArg some h.1.symm, fun h => ⟨(Option.some.inj h).symm, rfl⟩⟩

theorem join_spelling (hp : Proper p) (hg : IsName g ∧ '/' ∉ g) : Path.join (spelling p) g = spelling (p ++ [g]) := by
  have hhead : startsWith "/" g = false := by
    obtain ⟨⟨hne, -⟩, hslash⟩ := hg
    obtain ⟨c, g, rfl⟩ := List.exists_cons_of_ne_nil hne
    have hc : c ≠ '/' := fun hc => hslash (by simp [hc])
    rw [startsWith_slash]
    simpa using hc
  unfold Path.join
  rw [hhead, if_neg (by simp)]
  by_cases hne : p = []
  · subst hne
    have hslash : endsWith "/" (spelling []) = true := by decide
    rw [hslash, Bool.or_true, if_pos rfl]
    simp [spelling, List.intercalate]
  · obtain ⟨c, hc, hcne⟩ := getLast?_intercalate hp hne
    have hends : endsWith "/" (spelling p) = false := by
      rw [Location.endsWith_slash, spelling, List.getLast?_cons, hc]
      simpa using hcne
    rw [hends, Bool.or_false, if_neg (by simp [spelling])]
    unfold spelling
    rw [intercalate_concat hne]
    rfl

theorem foldl_join_spelling (hp : Proper p) (hq : Proper q) : q.foldl Path.join (spelling p) = spelling (p ++ q) := by
  induction q generalizing p with
  | nil => rw [List.append_nil]; rfl
  | cons g q ih =>
    have hg := hq g List.mem_cons_self
    have hnext : Proper (p ++ [g]) := hp.append fun x hx => by rwa [List.mem_singleton.1 hx]
    rw [List.foldl_cons, join_spelling hp hg, ih hnext fun x hx => hq x (List.mem_cons_of_mem _ hx), List.append_assoc]
    rfl

/-- The segments of an absolute path in its shortest spelling are names. -/
theorem proper_placeSegments (s : List Char) : Proper (Path.placeSegments s) := by
  have hfold : ∀ segs done : Place, (∀ g ∈ done, IsName g) →
      ∀ g ∈ segs.foldl (Path.normalizeStep true) done, IsName g := by
    intro segs
    induction segs with
    | nil => exact fun done hdone => hdone
    | cons seg segs ih =>
      refine fun done hdone => ih _ fun g hg => ?_
      unfold Path.normalizeStep at hg
      split at hg
      · exact hdone g hg
      · next hskip =>
        simp only [Bool.or_eq_true, beq_iff_eq, not_or] at hskip
        split at hg
        · next hup =>
          rcases List.mem_cons.1 hg with rfl | hg
          · exact ⟨hskip.1, hskip.2, by simpa using hup⟩
          · exact hdone g hg
        · split at hg
          · exact absurd hg (by simp)
          · next d rest =>
            rw [if_neg (by simpa using (hdone d List.mem_cons_self).2.2)] at hg
            exact hdone g (List.mem_cons_of_mem _ hg)
  intro g hg
  refine ⟨hfold (Path.segments s) [] (by simp) g (List.mem_reverse.1 hg), ?_⟩
  exact Path.not_mem_of_mem_splitOn (Path.mem_normalSegments hg).1

/-- A path seen from a folder is spelled as a place, unless two slashes make a root of their own. -/
theorem absolute_spelling (hp : Proper p) {s : List Char} (hs : Path.root s ≠ ['/', '/']) :
    ∃ dir, Proper dir ∧ Path.absolute (spelling p) s = spelling dir := by
  have hroot : Path.root (Path.join (spelling p) s) = ['/'] := by
    unfold Path.join
    by_cases habs : startsWith "/" s = true
    · rw [if_pos habs]
      obtain ⟨t, rfl⟩ := List.isPrefixOf_iff_prefix.1 habs
      change Path.root ('/' :: t) ≠ _ at hs
      change Path.root ('/' :: t) = _
      by_cases hone : t.head? = some '/'
      swap
      · exact root_cons hone
      obtain ⟨c, t, rfl⟩ : ∃ c u, t = c :: u := List.exists_cons_of_ne_nil (by rintro rfl; simp at hone)
      obtain rfl : c = '/' := by simpa using hone
      by_cases htwo : t.head? = some '/'
      · obtain ⟨c, t, rfl⟩ : ∃ c u, t = c :: u := List.exists_cons_of_ne_nil (by rintro rfl; simp at htwo)
        obtain rfl : c = '/' := by simpa using htwo
        rfl
      · exact absurd (root_two htwo) hs
    · rw [if_neg habs]
      have hhead : s.head? ≠ some '/' := by
        intro hhead
        cases s with
        | nil => exact absurd hhead (by simp)
        | cons c s =>
          obtain rfl : c = '/' := by simpa using hhead
          exact habs (by simp [startsWith])
      by_cases hne : p = []
      · subst hne
        exact root_cons hhead
      · obtain ⟨c, rest, hcons⟩ := List.exists_cons_of_ne_nil (l := ['/'].intercalate p) fun hnil => by
          obtain ⟨c, hc, -⟩ := getLast?_intercalate hp hne
          rw [hnil] at hc
          exact absurd hc (by simp)
        have hc : c ≠ '/' := by
          have hhead' := head?_intercalate hp
          rw [hcons] at hhead'
          simpa using hhead'
        unfold spelling
        rw [hcons]
        split
        · exact root_cons (by simpa using hc)
        · exact root_cons (by simpa using hc)
  refine ⟨_, proper_placeSegments (Path.join (spelling p) s), ?_⟩
  unfold Path.absolute Path.normalize
  rw [hroot]
  rfl

/-- A path of names, seen from a folder, names the place below it. -/
theorem pathIn_spelling (hp : Proper p) {name : List Char} (hname : ∀ g ∈ name.splitOn '/', IsName g) :
    pathIn (spelling p) name = spelling (p ++ name.splitOn '/') := by
  have hq := proper_splitOn hname
  unfold pathIn Path.segments
  rw [foldl_join_spelling hp hq, normalize_spelling (hp.append hq)]

theorem sharedFront_append (p q : Place) : Path.sharedFront p (p ++ q) = p := by
  induction p with
  | nil => rfl
  | cons g p ih => simp [Path.sharedFront, ih]

theorem common_spelling (hp : Proper p) (hq : Proper q) :
    Path.common (spelling p) (spelling q) = Path.sharedFront p q := by
  have hparts : ∀ {r : Place}, Proper r →
      (Path.segments (spelling r)).filter (fun g => g != [] && g != ['.']) = r := by
    intro r hr
    have hsame : ∀ g ∈ (spelling r).splitOn '/', (g != [] && g != ['.']) = !g.isEmpty := by
      intro g hg
      rcases names_spelling hr g hg with rfl | ⟨hne, hdot, -⟩
      · rfl
      · have hempty : g.isEmpty = false := by simpa using hne
        rw [bne_iff_ne.2 hne, bne_iff_ne.2 hdot, hempty]
        rfl
    unfold Path.segments
    rw [List.filter_congr hsame, filter_spelling hr]
  show Path.sharedFront ((Path.segments (spelling p)).filter fun g => g != [] && g != ['.'])
    ((Path.segments (spelling q)).filter fun g => g != [] && g != ['.']) = _
  rw [hparts hp, hparts hq]

theorem isInside_spelling (hp : Proper p) (hq : Proper q) : isInside (spelling p) (spelling (p ++ q)) = true := by
  unfold isInside
  rw [common_spelling hp (hp.append hq), sharedFront_append]
  exact beq_self_eq_true _

/-- A text with a name of names is written to the place that the name names below the output folder. -/
theorem writeOne_spelling (hp : Proper p) {name : String} (hname : ∀ g ∈ name.toList.splitOn '/', IsName g)
    (content : String) (t : Tree) : writeOne (spelling p) name content t =
      ((t.writeDeep (p ++ name.toList.splitOn '/') (Utf8.encode content.toList)).1, [],
        (t.writeDeep (p ++ name.toList.splitOn '/') (Utf8.encode content.toList)).2) := by
  have hq := proper_splitOn hname
  unfold writeOne
  dsimp only
  rw [pathIn_spelling hp hname, isInside_spelling hp hq, if_pos rfl, placeSegments_spelling (hp.append hq)]

end Spelling

end BareImports.Files
