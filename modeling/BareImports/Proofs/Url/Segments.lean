import BareImports.Proofs.Url.Relative

/-!
# Segments of resolved paths

* `names_of_single` : a path without empty steps and dot segments is one of names, unless a slash begins or ends it;
* `not_dots_mergedPath` : the path of a relative reference has no dot segment;
* `resolvePath?_rooted` : it is one slash and such a path;
* `names_of_resolvePath?` : what it has behind a location is a path of names, unless a slash ends it.
-/

namespace BareImports.Url

open Text

/-- A segment that stands for no place of its own. -/
def IsDots (g : List Char) : Prop := g = ['.'] ∨ g = ['.', '.']

theorem isName_iff {g : List Char} : IsName g ↔ g ≠ [] ∧ ¬ IsDots g := by
  unfold IsName IsDots
  rw [not_or]

/-! ## Empty segments -/

/-- The first segment is empty before a slash, and in the empty text. -/
theorem head?_splitOn_nil {s : List Char} (h : (s.splitOn '/').head? = some []) : s = [] ∨ s.head? = some '/' := by
  cases s with
  | nil => exact Or.inl rfl
  | cons c s =>
    rw [List.splitOn_cons_eq_if_modifyHead] at h
    split at h
    · next hc => exact Or.inr (congrArg some (beq_iff_eq.1 hc))
    · obtain ⟨first, rest, hs⟩ := List.exists_cons_of_ne_nil (List.splitOn_ne_nil '/' s)
      rw [hs] at h
      exact absurd h (by simp)

/-- A later segment is empty between two slashes, and behind a final one. -/
theorem nil_mem_tail_splitOn {s : List Char} (h : [] ∈ (s.splitOn '/').tail) :
    s.getLast? = some '/' ∨ ['/', '/'] <:+: s := by
  induction s with
  | nil => exact absurd h (by simp)
  | cons c s ih =>
    have hrest : [] ∈ (s.splitOn '/').tail → (c :: s).getLast? = some '/' ∨ ['/', '/'] <:+: c :: s := by
      intro htail
      rcases ih htail with hlast | hinner
      · exact Or.inl (by rw [List.getLast?_cons, hlast]; rfl)
      · exact Or.inr (hinner.trans (List.suffix_cons c s).isInfix)
    rw [List.splitOn_cons_eq_if_modifyHead] at h
    split at h
    · next hc =>
      obtain rfl := beq_iff_eq.1 hc
      rw [List.tail_cons] at h
      obtain ⟨first, rest, hs⟩ := List.exists_cons_of_ne_nil (List.splitOn_ne_nil '/' s)
      rw [hs] at h hrest
      rcases List.mem_cons.1 h with rfl | htail
      · rcases head?_splitOn_nil (s := s) (by rw [hs]; rfl) with rfl | hhead
        · exact Or.inl rfl
        · obtain ⟨d, t, rfl⟩ : ∃ d t, s = d :: t := List.exists_cons_of_ne_nil (by rintro rfl; simp at hhead)
          obtain rfl : d = '/' := by simpa using hhead
          exact Or.inr ⟨[], t, rfl⟩
      · exact hrest htail
    · rw [List.tail_modifyHead] at h
      exact hrest h

/-- A path without empty steps is one of names if it has no dot segments and no slash at an end of it. -/
theorem names_of_single {s : List Char} (hs : Single s) (hdots : ∀ g ∈ s.splitOn '/', ¬ IsDots g) (hne : s ≠ [])
    (hhead : s.head? ≠ some '/') (hlast : s.getLast? ≠ some '/') : ∀ g ∈ s.splitOn '/', IsName g := by
  intro g hg
  refine isName_iff.2 ⟨?_, hdots g hg⟩
  rintro rfl
  obtain ⟨first, rest, hsplit⟩ := List.exists_cons_of_ne_nil (List.splitOn_ne_nil '/' s)
  rw [hsplit] at hg
  rcases List.mem_cons.1 hg with rfl | htail
  · rcases head?_splitOn_nil (s := s) (by rw [hsplit]; rfl) with h | h
    · exact hne h
    · exact hhead h
  · rcases nil_mem_tail_splitOn (s := s) (by rwa [hsplit]) with h | h
    · exact hlast h
    · exact hs h

/-! ## Dot segments -/

theorem not_dots_foldl {segs done : List (List Char)} (hdone : ∀ g ∈ done, ¬ IsDots g) :
    ∀ g ∈ segs.foldl dotStep done, ¬ IsDots g := by
  induction segs generalizing done with
  | nil => exact hdone
  | cons seg segs ih =>
    refine ih fun g hg => ?_
    unfold dotStep at hg
    split at hg
    · exact hdone g (List.mem_of_mem_tail hg)
    · next hup =>
      split at hg
      · exact hdone g hg
      · next hhere =>
        rcases List.mem_cons.1 hg with rfl | hg
        · rintro (rfl | rfl)
          · exact hhere rfl
          · exact hup rfl
        · exact hdone g hg

theorem not_dots_removeDots {segs : List (List Char)} : ∀ g ∈ removeDots segs, ¬ IsDots g := by
  have hfold : ∀ g ∈ segs.foldl dotStep [], ¬ IsDots g := not_dots_foldl (by simp)
  intro g hg
  unfold removeDots at hg
  dsimp only at hg
  rw [List.mem_reverse] at hg
  split at hg
  · rcases List.mem_cons.1 hg with rfl | hg
    · simp [IsDots]
    · exact hfold g hg
  · exact hfold g hg

theorem not_dots_mergePath (base : List Char) {path : List Char} (h : path.head? ≠ some '/') :
    ∀ g ∈ (mergePath base path).splitOn '/', ¬ IsDots g := by
  intro g hg
  rw [mergePath_eq h] at hg
  split at hg
  · have hempty : g = [] := by simpa [splitOn_slash] using hg
    simp [hempty, IsDots]
  · next hne =>
    have hslash : ∀ x ∈ removeDots (mergeSegments base path), '/' ∉ x := by
      intro x hx
      rcases mem_removeDots hx with hx | rfl
      · exact (mem_mergeSegments hx).elim Path.not_mem_of_mem_splitOn Path.not_mem_of_mem_splitOn
      · simp
    rw [List.splitOn_intercalate '/' hslash (by rintro h; rw [h] at hne; exact hne rfl)] at hg
    exact not_dots_removeDots g hg

/-- What is put behind a text without a slash only belongs to its last segment. -/
theorem mem_splitOn_append {s t g : List Char} (ht : '/' ∉ t) (h : g ∈ (s ++ t).splitOn '/') :
    g ∈ s.splitOn '/' ∨ t <:+ g := by
  rcases hcut : cutLast? '/' s with _ | ⟨l, r⟩
  · have hs := cutLast?_eq_none hcut
    rw [List.splitOn_eq_singleton (by simp [hs, ht]), List.mem_singleton] at h
    exact Or.inr ⟨s, h.symm⟩
  · obtain ⟨rfl, hr⟩ := cutLast?_eq_some hcut
    have hlast : (r ++ t).splitOn '/' = [r ++ t] := List.splitOn_eq_singleton (by simp [hr, ht])
    rw [List.append_assoc, List.cons_append, List.splitOn_append_cons_self, hlast] at h
    rw [List.splitOn_append_cons_self]
    rcases List.mem_append.1 h with h | h
    · exact Or.inl (List.mem_append_left _ h)
    · exact Or.inr ⟨r, (List.mem_singleton.1 h).symm⟩

theorem not_dots_putParams {path params : List Char} (hpath : ∀ g ∈ path.splitOn '/', ¬ IsDots g) (hparams : '/' ∉ params) :
    ∀ g ∈ (putParams path params).splitOn '/', ¬ IsDots g := by
  intro g hg
  unfold putParams at hg
  split at hg
  · exact hpath g hg
  · rcases mem_splitOn_append (by simp [hparams]) hg with hg | hsuffix
    · exact hpath g hg
    · have hsemi : ';' ∈ g := hsuffix.subset List.mem_cons_self
      rintro (rfl | rfl)
      · exact absurd hsemi (by decide)
      · exact absurd hsemi (by decide)

/-- The path of a relative reference has no dot segment. -/
theorem not_dots_mergedPath (base : List Char) {ref : List Char} (hdot : ref.head? = some '.') :
    ∀ g ∈ (mergedPath base ref).splitOn '/', ¬ IsDots g := by
  obtain ⟨hcut, hparams⟩ := head?_cutParams_pathOf hdot
  have hhead : (cutParams (pathOf ref)).1.head? ≠ some '/' := by simp [hcut]
  have hput := not_dots_putParams (not_dots_mergePath (cutParams (pathOf base)).1 hhead) hparams
  unfold mergedPath withRoot
  split
  · exact hput
  · rw [splitOn_slash]
    intro g hg
    rcases List.mem_cons.1 hg with rfl | hg
    · simp [IsDots]
    · exact hput g hg

/-- A reference that begins with a dot is resolved to one slash and a path without dot segments. -/
theorem resolvePath?_rooted (referrer : List Char) {ref : List Char} (hdot : ref.head? = some '.') :
    ∃ path, resolvePath? referrer ref = some ('/' :: path) ∧ path.head? ≠ some '/' ∧
      ∀ g ∈ path.splitOn '/', ¬ IsDots g := by
  rw [resolvePath?_reference referrer hdot]
  have hsingle := single_mergedPath ('/' :: referrer.dropWhile (· == '/')) hdot
  have hdots := not_dots_mergedPath ('/' :: referrer.dropWhile (· == '/')) hdot
  obtain ⟨path, hpath⟩ : ∃ path, mergedPath ('/' :: referrer.dropWhile (· == '/')) ref = '/' :: path :=
    List.head?_eq_some_iff.1 (head?_withRoot _)
  rw [hpath, single_cons] at hsingle
  rw [hpath, splitOn_slash] at hdots
  exact ⟨path, by rw [hpath], fun hhead => hsingle.1 ⟨rfl, hhead⟩, fun g hg => hdots g (List.mem_cons_of_mem _ hg)⟩

/-! ## Locations in resolved paths -/

/-- Without line feeds the path of a location is all that stands behind a slash. -/
theorem path_of_parse? {s : List Char} {l : Location} (h : Location.parse? s = some l) (hline : '\n' ∉ s) :
    l.path = "" ∨ ∃ front, s = front ++ '/' :: l.path.toList := by
  obtain ⟨r, hpkg, r', hversion, hpath⟩ := Location.parse?_parts h
  have hsuffix : r' <:+ s := by
    refine .trans ?_ ⟨_, (Location.cutPackage?_parts hpkg).symm⟩
    unfold Location.cutVersion? at hversion
    split at hversion
    · exact ⟨_, by rw [List.cons_append, ← (Location.run?_parts hversion).1]⟩
    · simp only [Option.some.injEq, Prod.mk.injEq] at hversion
      exact ⟨[], by simp [hversion.2]⟩
  unfold Location.readPath? at hpath
  split at hpath
  · exact Or.inl (String.toList_inj.1 (Option.some.inj hpath).symm)
  · next t =>
    have hall : ∀ c ∈ t, (c != '\n') = true := by
      intro c hc
      rw [bne_iff_ne]
      rintro rfl
      exact hline (hsuffix.subset (List.mem_cons_of_mem _ hc))
    obtain ⟨front, hfront⟩ := hsuffix
    dsimp only at hpath
    rw [List.span_eq_takeWhile_dropWhile, List.takeWhile_eq_self_iff.2 hall] at hpath
    split at hpath
    · exact Or.inr ⟨front, by rw [← Option.some.inj hpath, hfront]⟩
    · exact absurd hpath (by simp)
  · exact absurd hpath (by simp)

/-- The path of a location in the path of a relative reference is one of names, unless a slash ends it. -/
theorem names_of_resolvePath? {referrer ref path : List Char} (hk : Specifier.kind ref = .relative)
    (h : resolvePath? referrer ref = some path) {n : Nat} {l : Location} (hl : Location.parse? (path.drop n) = some l)
    (hne : l.path ≠ "") (hlast : l.path.toList.getLast? ≠ some '/') : ∀ g ∈ l.path.toList.splitOn '/', IsName g := by
  have hdot := head?_of_relative hk
  have hsingle := (resolvePath?_single hk h).within (List.drop_suffix n path).isInfix
  rw [resolvePath?_reference referrer hdot] at h
  obtain rfl := Option.some.inj h
  have hline : '\n' ∉ (mergedPath ('/' :: referrer.dropWhile (· == '/')) ref).drop n := by
    intro hmem
    have hkept := (mergedPath_kept _ hdot _ (List.mem_of_mem_drop hmem)).1
    exact absurd hkept (by decide)
  obtain ⟨front, hfront⟩ := (path_of_parse? hl hline).resolve_left hne
  -- the segments behind a slash are segments of the whole path
  have hwhole : mergedPath ('/' :: referrer.dropWhile (· == '/')) ref =
      ((mergedPath ('/' :: referrer.dropWhile (· == '/')) ref).take n ++ front) ++ '/' :: l.path.toList := by
    rw [List.append_assoc, ← hfront, List.take_append_drop]
  have hdots := not_dots_mergedPath ('/' :: referrer.dropWhile (· == '/')) hdot
  rw [hwhole, List.splitOn_append_cons_self] at hdots
  have hpath : Single l.path.toList := by
    refine hsingle.within ?_
    rw [hfront]
    exact ⟨front ++ ['/'], [], by simp⟩
  refine names_of_single hpath (fun g hg => hdots g (List.mem_append_right _ hg)) (fun hnil => hne ?_)
    (head?_path_of_single hsingle hl) hlast
  exact String.toList_inj.1 hnil

end BareImports.Url
