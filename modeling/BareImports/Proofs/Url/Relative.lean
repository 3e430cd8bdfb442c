import BareImports.Proofs.Url.Join
import Mathlib.Data.List.Induction

/-!
# A relative URL reaches its target

* `Plain s` : the segments of a path are names, and no character of it has a meaning in URLs;
* `relativeUrl_eq` : a relative URL climbs to the last directory that both paths share and goes down from there;
* `resolvePath?_relativeUrl` : seen from the file that it was made for, it is the path of its target;
* `startsWith_relativeUrl` : it begins with a dot segment, and so it is relative (`kind_of_startsWith`);
* `resolve_relative` : making a URL relative and resolving it are inverse to each other.
-/

namespace BareImports.Url

open Text

/-- A segment that names a file or a directory. -/
def IsName (g : List Char) : Prop := g ≠ [] ∧ g ≠ ['.'] ∧ g ≠ ['.', '.']

instance (g : List Char) : Decidable (IsName g) := inferInstanceAs (Decidable (_ ∧ _))

/-- A character without a meaning in URLs. -/
def IsPlainChar (c : Char) : Prop := (isKept c = true ∧ isPathChar c = true) ∧ c ≠ ';'

instance (c : Char) : Decidable (IsPlainChar c) := inferInstanceAs (Decidable (_ ∧ _))

/-- A path of names. -/
def Plain (s : List Char) : Prop := (∀ g ∈ s.splitOn '/', IsName g) ∧ s.all (IsPlainChar ·) = true

instance (s : List Char) : Decidable (Plain s) := inferInstanceAs (Decidable (_ ∧ _))

theorem Plain.char {s : List Char} (h : Plain s) {c : Char} (hc : c ∈ s) : IsPlainChar c := by
  have hall := List.all_eq_true.1 h.2 c hc
  exact of_decide_eq_true hall

theorem splitOn_slash (s : List Char) : ('/' :: s).splitOn '/' = [] :: s.splitOn '/' := by
  rw [List.splitOn_cons_eq_if_modifyHead, if_pos (by decide)]

/-- A plain path does not begin with a slash. -/
theorem Plain.dropWhile {s : List Char} (h : Plain s) : s.dropWhile (· == '/') = s := by
  cases s with
  | nil => rfl
  | cons c s =>
    refine List.dropWhile_cons_of_neg fun hc => ?_
    obtain rfl : c = '/' := by simpa using hc
    have hname := h.1 [] (by simp [splitOn_slash])
    exact hname.1 rfl

/-! ## Places -/

theorem foldl_normalizeStep {segs : List (List Char)} (h : ∀ g ∈ segs, g = [] ∨ IsName g) (done : List (List Char)) :
    segs.foldl (Path.normalizeStep true) done = (segs.filter (!·.isEmpty)).reverse ++ done := by
  induction segs generalizing done with
  | nil => rfl
  | cons g segs ih =>
    have hrest := ih (fun x hx => h x (List.mem_cons_of_mem _ hx))
    rw [List.foldl_cons, hrest]
    rcases h g (by simp) with rfl | ⟨hne, hdot, hup⟩
    · rfl
    · have hstep : Path.normalizeStep true done g = g :: done := by
        unfold Path.normalizeStep
        rw [if_neg (by simp [hne, hdot]), if_pos (by simpa using hup)]
      rw [hstep, List.filter_cons_of_pos (by simpa using hne), List.reverse_cons, List.append_assoc]
      rfl

theorem placeSegments_eq {s : List Char} (h : ∀ g ∈ s.splitOn '/', g = [] ∨ IsName g) :
    Path.placeSegments s = (s.splitOn '/').filter (!·.isEmpty) := by
  unfold Path.placeSegments Path.normalSegments Path.segments
  rw [foldl_normalizeStep h, List.append_nil, List.reverse_reverse]

theorem filter_names {segs : List (List Char)} (h : ∀ g ∈ segs, IsName g) : segs.filter (!·.isEmpty) = segs :=
  List.filter_eq_self.2 fun g hg => by simpa using (h g hg).1

theorem placeSegments_plain {s : List Char} (h : Plain s) : Path.placeSegments ('/' :: s) = s.splitOn '/' := by
  have hnames : ∀ g ∈ ('/' :: s).splitOn '/', g = [] ∨ IsName g := by
    intro g hg
    rw [splitOn_slash] at hg
    exact (List.mem_cons.1 hg).imp_right (h.1 g)
  rw [placeSegments_eq hnames, splitOn_slash, List.filter_cons_of_neg (by simp), filter_names h.1]

theorem placeSegments_concat_slash (s : List Char) : Path.placeSegments (s ++ ['/']) = Path.placeSegments s := by
  have hsplit : (s ++ ['/']).splitOn '/' = s.splitOn '/' ++ [[]] := List.splitOn_append_cons_self s []
  unfold Path.placeSegments Path.normalSegments Path.segments
  rw [hsplit, List.foldl_append]
  rfl

/-- Slashes at the end of a path do not matter. -/
theorem placeSegments_dropTrailing (s : List Char) :
    Path.placeSegments (dropTrailing (· == '/') s) = Path.placeSegments s := by
  induction s using List.reverseRecOn with
  | nil => rfl
  | append_singleton s c ih =>
    unfold dropTrailing at ih ⊢
    rw [List.reverse_append, List.reverse_singleton, List.singleton_append]
    by_cases hc : c = '/'
    · subst hc
      rw [List.dropWhile_cons_of_pos (by decide), ih, placeSegments_concat_slash]
    · rw [List.dropWhile_cons_of_neg (by simpa using hc), List.reverse_cons, List.reverse_reverse]

/-- The directory of a file is that of its segments but the last one. -/
theorem placeSegments_parent {s : List Char} (h : Plain s) :
    Path.placeSegments (Path.parent ('/' :: s)) = (s.splitOn '/').dropLast := by
  rcases hcut : cutLast? '/' ('/' :: s) with _ | ⟨l, r⟩
  · exact absurd List.mem_cons_self (cutLast?_eq_none hcut)
  · obtain ⟨hs, hr⟩ := cutLast?_eq_some hcut
    have hsegs : [] :: s.splitOn '/' = l.splitOn '/' ++ [r] := by
      rw [← splitOn_slash, hs, List.splitOn_append_cons_self, List.splitOn_eq_singleton hr]
    have hdir : l.splitOn '/' = [] :: (s.splitOn '/').dropLast := by
      have hdrop := congrArg List.dropLast hsegs
      rw [List.dropLast_concat, List.dropLast_cons_of_ne_nil (List.splitOn_ne_nil _ _)] at hdrop
      exact hdrop.symm
    have hplace : Path.placeSegments l = (s.splitOn '/').dropLast := by
      have hnames : ∀ g ∈ l.splitOn '/', g = [] ∨ IsName g := by
        intro g hg
        rw [hdir] at hg
        exact (List.mem_cons.1 hg).imp_right fun hg => h.1 g (List.dropLast_subset _ hg)
      rw [placeSegments_eq hnames, hdir, List.filter_cons_of_neg (by simp),
        filter_names fun g hg => h.1 g (List.dropLast_subset _ hg)]
    unfold Path.parent
    rw [hcut]
    dsimp only
    split
    · rw [placeSegments_concat_slash, hplace]
    · rw [placeSegments_dropTrailing, placeSegments_concat_slash, hplace]

/-! ## The way from one place to another -/

theorem take_sharedFront (l l' : List (List Char)) : l.take (Path.sharedFront l l').length = Path.sharedFront l l' ∧
    l'.take (Path.sharedFront l l').length = Path.sharedFront l l' := by
  induction l generalizing l' with
  | nil => simp [Path.sharedFront]
  | cons x l ih =>
    cases l' with
    | nil => simp [Path.sharedFront]
    | cons y l' =>
      unfold Path.sharedFront
      split
      · next hxy =>
        obtain rfl : x = y := by simpa using hxy
        obtain ⟨hl, hl'⟩ := ih l'
        simp [hl, hl']
      · simp

/-- The way up from a directory with so many segments, to what `n` of them make. -/
def climb (depth n : Nat) : List (List Char) :=
  if n < depth then List.replicate (depth - n) ['.', '.'] else [['.']]

theorem climb_ne_nil (depth n : Nat) : climb depth n ≠ [] := by
  unfold climb
  split
  · simp
    omega
  · simp

theorem mem_climb {depth n : Nat} {g : List Char} (h : g ∈ climb depth n) : g = ['.'] ∨ g = ['.', '.'] := by
  unfold climb at h
  split at h
  · exact Or.inr (List.eq_of_mem_replicate h)
  · exact Or.inl (List.mem_singleton.1 h)

theorem intercalate_cons {g : List Char} {segs : List (List Char)} (h : segs ≠ []) :
    ['/'].intercalate (g :: segs) = g ++ '/' :: ['/'].intercalate segs := by
  obtain ⟨x, rest, rfl⟩ := List.exists_cons_of_ne_nil h
  simp [List.intercalate]

section Relative

variable {source target : List Char}

/-- How many segments of the directory of the source the target shares. -/
def shared (source target : List Char) : Nat :=
  (Path.sharedFront (source.splitOn '/').dropLast (target.splitOn '/')).length

theorem take_shared : (source.splitOn '/').dropLast.take (shared source target) =
    (target.splitOn '/').take (shared source target) := by
  obtain ⟨hs, ht⟩ := take_sharedFront (source.splitOn '/').dropLast (target.splitOn '/')
  exact hs.trans ht.symm

theorem shared_le : shared source target ≤ (source.splitOn '/').dropLast.length := by
  obtain ⟨hs, -⟩ := take_sharedFront (source.splitOn '/').dropLast (target.splitOn '/')
  have hlen := congrArg List.length hs
  rw [List.length_take] at hlen
  unfold shared
  omega

/-- The segments behind the shared ones. -/
def descent (source target : List Char) : List (List Char) := (target.splitOn '/').drop (shared source target)

/-- A target that is no directory on the way to the source is not shared as a whole. -/
theorem descent_ne_nil (hdir : ¬ target.splitOn '/' <+: (source.splitOn '/').dropLast) : descent source target ≠ [] := by
  intro hnil
  have htake : (source.splitOn '/').dropLast.take (shared source target) = _ := take_shared
  rw [List.take_of_length_le (List.drop_eq_nil_iff.1 hnil)] at htake
  exact hdir (htake ▸ List.take_prefix _ _)

/-- The way from the directory of the source to the target. -/
def way (source target : List Char) : List (List Char) :=
  climb (source.splitOn '/').dropLast.length (shared source target) ++ descent source target

/-- A way begins with a dot segment. -/
theorem exists_way (hdir : ¬ target.splitOn '/' <+: (source.splitOn '/').dropLast) :
    ∃ first rest, way source target = first :: rest ∧ rest ≠ [] ∧ (first = ['.'] ∨ first = ['.', '.']) := by
  obtain ⟨first, rest, hclimb⟩ := List.exists_cons_of_ne_nil
    (climb_ne_nil (source.splitOn '/').dropLast.length (shared source target))
  have hfirst : first ∈ climb (source.splitOn '/').dropLast.length (shared source target) :=
    hclimb ▸ List.mem_cons_self
  refine ⟨first, rest ++ descent source target, ?_, by simp [descent_ne_nil hdir], mem_climb hfirst⟩
  rw [way, hclimb, List.cons_append]

/-- The segments of a way are dot segments and segments of the target. -/
theorem mem_way {g : List Char} (h : g ∈ way source target) :
    g = ['.'] ∨ g = ['.', '.'] ∨ g ∈ target.splitOn '/' := by
  rcases List.mem_append.1 h with h | h
  · exact (mem_climb h).imp_right Or.inl
  · exact Or.inr (Or.inr (List.drop_subset _ _ h))

/-- A relative URL climbs to the last directory that both paths share and goes down from there. -/
theorem relativeUrl_eq (hs : Plain source) (ht : Plain target)
    (hdir : ¬ target.splitOn '/' <+: (source.splitOn '/').dropLast) :
    FileName.relativeUrl source target = ['/'].intercalate (way source target) := by
  have hdescent := descent_ne_nil hdir
  have hsteps : Path.steps (Path.placeSegments ('/' :: target)) (Path.placeSegments (Path.parent ('/' :: source))) =
      List.replicate ((source.splitOn '/').dropLast.length - shared source target) ['.', '.'] ++ descent source target := by
    rw [placeSegments_plain ht, placeSegments_parent hs]
    rfl
  have hrel : Path.relativeTo ('/' :: target) (Path.parent ('/' :: source)) = ['/'].intercalate
      (List.replicate ((source.splitOn '/').dropLast.length - shared source target) ['.', '.'] ++
        descent source target) := by
    unfold Path.relativeTo
    rw [hsteps]
    split
    · next hnil => exact absurd (List.append_eq_nil_iff.1 hnil).2 hdescent
    · rfl
  unfold FileName.relativeUrl
  dsimp only
  simp only [hs.dropWhile, ht.dropWhile, hrel]
  unfold way climb
  by_cases hup : shared source target < (source.splitOn '/').dropLast.length
  · obtain ⟨k, hk⟩ : ∃ k, (source.splitOn '/').dropLast.length - shared source target = k + 1 :=
      ⟨_, (Nat.succ_pred_eq_of_pos (by omega)).symm⟩
    rw [if_pos hup, hk, List.replicate_succ, List.cons_append, intercalate_cons (by simp [hdescent])]
    exact if_pos rfl
  · rw [if_neg hup, Nat.sub_eq_zero_of_le (by omega), List.replicate_zero, List.nil_append, List.singleton_append,
      intercalate_cons hdescent]
    -- the way down begins with a name
    refine if_neg fun hstart => ?_
    obtain ⟨t, htext⟩ := List.isPrefixOf_iff_prefix.1 hstart
    have hslash : ∀ g ∈ descent source target, '/' ∉ g := fun g hg =>
      Path.not_mem_of_mem_splitOn (List.drop_subset _ _ hg)
    have hsegs := congrArg (List.splitOn '/') htext
    rw [List.splitOn_intercalate _ hslash hdescent] at hsegs
    have hfirst : ['.', '.'] ∈ descent source target := by
      rw [← hsegs, show "../".toList ++ t = ['.', '.'] ++ '/' :: t from rfl, List.splitOn_append_cons_self]
      exact List.mem_append_left _ (by decide)
    exact (ht.1 _ (List.drop_subset _ _ hfirst)).2.2 rfl

/-- A relative URL begins with the step to the directory of the source, or with one above it. -/
theorem startsWith_relativeUrl (hs : Plain source) (ht : Plain target)
    (hdir : ¬ target.splitOn '/' <+: (source.splitOn '/').dropLast) :
    startsWith "./" (FileName.relativeUrl source target) = true ∨
      startsWith "../" (FileName.relativeUrl source target) = true := by
  obtain ⟨first, rest, hway, hrest, hfirst⟩ := exists_way hdir
  rw [relativeUrl_eq hs ht hdir, hway, intercalate_cons hrest]
  rcases hfirst with rfl | rfl
  · exact Or.inl rfl
  · exact Or.inr rfl

/-- The segments of a relative URL are those of the way. -/
theorem splitOn_relativeUrl (hs : Plain source) (ht : Plain target)
    (hdir : ¬ target.splitOn '/' <+: (source.splitOn '/').dropLast) :
    (FileName.relativeUrl source target).splitOn '/' = way source target := by
  obtain ⟨first, rest, hway, -, -⟩ := exists_way hdir
  rw [relativeUrl_eq hs ht hdir]
  refine List.splitOn_intercalate _ (fun g hg => ?_) (by simp [hway])
  rcases mem_way hg with rfl | rfl | hg
  · decide
  · decide
  · exact Path.not_mem_of_mem_splitOn hg

/-- A relative URL has no character with a meaning in URLs but slashes and dots. -/
theorem isPlainChar_relativeUrl (hs : Plain source) (ht : Plain target)
    (hdir : ¬ target.splitOn '/' <+: (source.splitOn '/').dropLast) {c : Char}
    (hc : c ∈ FileName.relativeUrl source target) : IsPlainChar c := by
  rw [relativeUrl_eq hs ht hdir] at hc
  rcases mem_intercalate hc with rfl | ⟨g, hg, hcg⟩
  · decide
  · rcases mem_way hg with rfl | rfl | hg
    · obtain rfl : c = '.' := by simpa using hcg
      decide
    · obtain rfl : c = '.' := by simpa using hcg
      decide
    · exact ht.char (mem_of_mem_splitOn hg hcg)

/-! ## The way back -/

theorem cutParams_plain {s : List Char} (h : ';' ∉ s) : cutParams s = (s, []) := by
  have hcut : ∀ t : List Char, ';' ∉ t → cut? ';' t = none := by
    intro t ht
    rcases hc : cut? ';' t with _ | ⟨a, b⟩
    · rfl
    · obtain ⟨rfl, -⟩ := cut?_eq_some hc
      exact absurd (by simp) ht
  unfold cutParams
  split
  · next l r hlr =>
    obtain ⟨rfl, -⟩ := cutLast?_eq_some hlr
    rw [hcut r fun hr => h (by simp [hr])]
  · rw [hcut s h]
    rfl

theorem dropInnerEmpty_eq_self {first : List Char} {rest : List (List Char)} (h : ∀ g ∈ rest, g ≠ []) :
    dropInnerEmpty (first :: rest) = first :: rest := by
  unfold dropInnerEmpty
  dsimp only
  split
  · next hnone => rw [List.getLast?_eq_none_iff.1 hnone]
  · next last hlast =>
    obtain ⟨init, rfl⟩ := List.getLast?_eq_some_iff.1 hlast
    rw [List.dropLast_concat, List.filter_eq_self.2 fun g hg => by simpa using h g (by simp [hg])]
    rfl

theorem foldl_dotStep_names {segs : List (List Char)} (h : ∀ g ∈ segs, g ≠ ['.'] ∧ g ≠ ['.', '.'])
    (done : List (List Char)) : segs.foldl dotStep done = segs.reverse ++ done := by
  induction segs generalizing done with
  | nil => rfl
  | cons g segs ih =>
    obtain ⟨hdot, hup⟩ := h g (by simp)
    have hstep : dotStep done g = g :: done := by
      unfold dotStep
      rw [if_neg (by simpa using hup), if_neg (by simpa using hdot)]
    rw [List.foldl_cons, hstep, ih fun x hx => h x (List.mem_cons_of_mem _ hx), List.reverse_cons, List.append_assoc]
    rfl

theorem foldl_dotStep_up (k : Nat) (done : List (List Char)) :
    (List.replicate k ['.', '.']).foldl dotStep done = done.drop k := by
  induction k generalizing done with
  | zero => rfl
  | succ k ih =>
    have hstep : dotStep done ['.', '.'] = done.tail := rfl
    rw [List.replicate_succ, List.foldl_cons, ih, hstep, List.drop_tail]

theorem foldl_dotStep_climb {dir : List (List Char)} {n : Nat} (hn : n ≤ dir.length) :
    (climb dir.length n).foldl dotStep (dir.reverse ++ [[]]) = (dir.take n).reverse ++ [[]] := by
  unfold climb
  split
  · rw [foldl_dotStep_up, List.drop_append_of_le_length (by simp), List.reverse_take]
  · have hall : dir.take n = dir := List.take_of_length_le (by omega)
    rw [hall]
    rfl

/-- The way from the directory of the source leads to the target. -/
theorem removeDots_way (hs : Plain source) (ht : Plain target)
    (hdir : ¬ target.splitOn '/' <+: (source.splitOn '/').dropLast) :
    removeDots ([] :: ((source.splitOn '/').dropLast ++ way source target)) = [] :: target.splitOn '/' := by
  have hdirs : ∀ g ∈ (source.splitOn '/').dropLast, g ≠ ['.'] ∧ g ≠ ['.', '.'] := fun g hg =>
    (hs.1 g (List.dropLast_subset _ hg)).2
  have hdown : ∀ g ∈ descent source target, g ≠ ['.'] ∧ g ≠ ['.', '.'] := fun g hg =>
    (ht.1 g (List.drop_subset _ _ hg)).2
  have hfold : ([] :: ((source.splitOn '/').dropLast ++ way source target)).foldl dotStep [] =
      ([] :: target.splitOn '/').reverse := by
    have hfirst : dotStep [] [] = [[]] := rfl
    unfold way
    rw [List.foldl_cons, List.foldl_append, List.foldl_append, hfirst, foldl_dotStep_names hdirs,
      foldl_dotStep_climb shared_le, foldl_dotStep_names hdown, take_shared, ← List.append_assoc, ← List.reverse_append]
    unfold descent
    rw [List.take_append_drop, List.reverse_cons]
  -- the last segment is a name
  obtain ⟨last, hlast⟩ : ∃ last, (descent source target).getLast? = some last :=
    ⟨_, List.getLast?_eq_some_getLast (descent_ne_nil hdir)⟩
  obtain ⟨hdot, hup⟩ := hdown last (List.mem_of_getLast? hlast)
  unfold removeDots
  dsimp only
  rw [hfold, way, List.getLast?_cons, List.getLast?_append, List.getLast?_append, hlast, Option.some_or, Option.some_or]
  rw [if_neg (by simp [hdot, hup]), List.reverse_reverse]

/-- The directory of a plain path, as the segments that another path is put behind. -/
theorem directorySegments_plain (hs : Plain source) :
    directorySegments ('/' :: source) = [] :: (source.splitOn '/').dropLast := by
  have hlast : (([] : List Char) :: source.splitOn '/').getLast? ≠ some [] := by
    rw [List.getLast?_cons]
    obtain ⟨last, hlast⟩ : ∃ last, (source.splitOn '/').getLast? = some last :=
      ⟨_, List.getLast?_eq_some_getLast (List.splitOn_ne_nil _ _)⟩
    rw [hlast]
    simpa using (hs.1 last (List.mem_of_getLast? hlast)).1
  unfold directorySegments
  dsimp only
  rw [splitOn_slash, if_neg (by simpa using hlast), List.dropLast_cons_of_ne_nil (List.splitOn_ne_nil _ _)]

theorem mergeSegments_relativeUrl (hs : Plain source) (ht : Plain target)
    (hdir : ¬ target.splitOn '/' <+: (source.splitOn '/').dropLast) :
    mergeSegments ('/' :: source) (FileName.relativeUrl source target) =
      [] :: ((source.splitOn '/').dropLast ++ way source target) := by
  unfold mergeSegments
  rw [directorySegments_plain hs, splitOn_relativeUrl hs ht hdir, List.cons_append]
  refine dropInnerEmpty_eq_self fun g hg => ?_
  rcases List.mem_append.1 hg with hg | hg
  · exact (hs.1 g (List.dropLast_subset _ hg)).1
  · rcases mem_way hg with rfl | rfl | hg
    · simp
    · simp
    · exact (ht.1 g hg).1

/-- The relative URL from one plain file to another one leads to that, unless that stands where the first one has a
directory. -/
theorem resolvePath?_relativeUrl (hs : Plain source) (ht : Plain target)
    (hdir : ¬ target.splitOn '/' <+: (source.splitOn '/').dropLast) :
    resolvePath? source (FileName.relativeUrl source target) = some ('/' :: target) := by
  have hdot : (FileName.relativeUrl source target).head? = some '.' := by
    rcases startsWith_relativeUrl hs ht hdir with h | h
    · obtain ⟨t, ht⟩ := List.isPrefixOf_iff_prefix.1 h
      rw [← ht]
      rfl
    · obtain ⟨t, ht⟩ := List.isPrefixOf_iff_prefix.1 h
      rw [← ht]
      rfl
  have hbase : ∀ c ∈ '/' :: source, IsPlainChar c := by
    intro c hc
    rcases List.mem_cons.1 hc with rfl | hc
    · decide
    · exact hs.char hc
  have hparams : ∀ s : List Char, (∀ c ∈ s, IsPlainChar c) → cutParams (pathOf s) = (s, []) := by
    intro s h
    rw [pathOf_eq_self fun c hc => (h c hc).1]
    exact cutParams_plain fun hc => (h _ hc).2 rfl
  have hmerged : mergePath ('/' :: source) (FileName.relativeUrl source target) = '/' :: target := by
    have hout : ['/'].intercalate ([] :: target.splitOn '/') = '/' :: target := by
      rw [intercalate_cons (List.splitOn_ne_nil _ _), List.intercalate_splitOn]
      rfl
    rw [mergePath_eq (by simp [hdot]), mergeSegments_relativeUrl hs ht hdir, removeDots_way hs ht hdir, hout,
      if_neg (by simp)]
  rw [resolvePath?_reference source hdot, hs.dropWhile, mergedPath, hparams _ hbase,
    hparams _ fun c => isPlainChar_relativeUrl hs ht hdir]
  dsimp only
  rw [hmerged]
  rfl

/-! ## Both ways -/

/-- A text that begins with a dot segment and a slash is relative. -/
theorem kind_of_startsWith {s : List Char} (h : startsWith "./" s = true ∨ startsWith "../" s = true) :
    Specifier.kind s = .relative := by
  have hscheme : ∀ t, Specifier.hasScheme ('.' :: t) = false := by
    intro t
    unfold Specifier.hasScheme
    split
    · next c l r hcut =>
      obtain ⟨heq, -⟩ := cut?_eq_some hcut
      obtain ⟨rfl, -⟩ := List.cons.inj heq
      rfl
    · rfl
  obtain ⟨t, rfl⟩ : ∃ t, s = '.' :: t := by
    rcases h with h | h
    · obtain ⟨t, rfl⟩ := List.isPrefixOf_iff_prefix.1 h
      exact ⟨_, rfl⟩
    · obtain ⟨t, rfl⟩ := List.isPrefixOf_iff_prefix.1 h
      exact ⟨_, rfl⟩
  have hroot : startsWith "/" ('.' :: t) = false := rfl
  unfold Specifier.kind
  rw [hscheme, hroot, if_neg (by simp), if_pos]
  rcases h with h | h
  · simp [h]
  · simp [h]

/-- The relative URL from one plain file to another one says that it is relative, and it is taken back by resolving it
against the first one, unless the other one stands where the first one has a directory. -/
theorem resolve_relative (hs : Plain source) (ht : Plain target)
    (hdir : ¬ target.splitOn '/' <+: (source.splitOn '/').dropLast) :
    (startsWith "./" (FileName.relativeUrl source target) = true ∨
      startsWith "../" (FileName.relativeUrl source target) = true) ∧
    Specifier.kind (FileName.relativeUrl source target) = .relative ∧
    resolvePath? source (FileName.relativeUrl source target) = some ('/' :: target) := by
  have hstart := startsWith_relativeUrl hs ht hdir
  exact ⟨hstart, kind_of_startsWith hstart, resolvePath?_relativeUrl hs ht hdir⟩

/-- The way between two directories, the name of one of which begins that of the other. -/
theorem resolve_relative_sibling :
    FileName.relativeUrl "a/b/c.js".toList "a/bc/d.js".toList = "../bc/d.js".toList ∧
    Specifier.kind "../bc/d.js".toList = .relative ∧
    resolvePath? "a/b/c.js".toList "../bc/d.js".toList = some "/a/bc/d.js".toList := by
  have hurl : FileName.relativeUrl "a/b/c.js".toList "a/bc/d.js".toList = "../bc/d.js".toList := by decide +kernel
  obtain ⟨-, hkind, hresolve⟩ := @resolve_relative "a/b/c.js".toList "a/bc/d.js".toList
    (by decide +kernel) (by decide +kernel) (by decide +kernel)
  rw [hurl] at hkind hresolve
  exact ⟨hurl, hkind, hresolve⟩

end Relative

end BareImports.Url
