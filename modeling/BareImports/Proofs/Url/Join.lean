import BareImports.Proofs.Location.Key
import BareImports.Proofs.Url.Slashes
import BareImports.Specifier

/-!
# The path of a relative reference

* `split?_root`, `split?_reference` : the parts of a file below the root and of a relative reference;
* `resolvePath?_reference` : the path of a relative reference, as it is put together;
* `resolvePath?_single` : the path of a relative reference has no empty step;
* `head?_path_of_single` : then no location in it has a path that begins with a slash.
-/

namespace BareImports.Url

open Text

/-! ## Cutting -/

theorem cutOff_fst (c : Char) (s : List Char) : (cutOff c s).1 = s.takeWhile (· != c) := by
  unfold cutOff cut?
  induction s with
  | nil => rfl
  | cons d s ih =>
    unfold cutWhere?
    by_cases hd : d = c
    · simp [hd]
    · rw [if_neg (by simpa using hd), List.takeWhile_cons, if_pos (by simpa using hd), ← ih]
      cases cutWhere? (· == c) s <;> rfl

theorem cutWhere?_eq_none {α : Type} {p : α → Bool} {s : List α} (h : cutWhere? p s = none) : ∀ x ∈ s, p x = false := by
  induction s with
  | nil => simp
  | cons a s ih =>
    unfold cutWhere? at h
    split at h
    · exact absurd h (by simp)
    · next ha =>
      intro x hx
      rcases List.mem_cons.1 hx with rfl | hx
      · simpa using ha
      · exact ih (Option.map_eq_none_iff.1 h) x hx

theorem cutLast?_eq_some {c : Char} {s l r : List Char} (h : cutLast? c s = some (l, r)) :
    s = l ++ c :: r ∧ c ∉ r := by
  obtain ⟨⟨a, b⟩, hab, heq⟩ := Option.map_eq_some_iff.1 h
  obtain ⟨rfl, rfl⟩ := Prod.mk.inj heq
  obtain ⟨hs, hc⟩ := cut?_eq_some hab
  refine ⟨?_, by simpa using hc⟩
  rw [← List.reverse_reverse s, hs]
  simp

theorem cutLast?_eq_none {c : Char} {s : List Char} (h : cutLast? c s = none) : c ∉ s := by
  intro hc
  have hnone := cutWhere?_eq_none (Option.map_eq_none_iff.1 h) c (List.mem_reverse.2 hc)
  simp at hnone

/-- The parameters have no slash, and the path before them begins with the same dot. -/
theorem cutParams_parts {s : List Char} (h : s.head? = some '.') :
    (cutParams s).1.head? = some '.' ∧ '/' ∉ (cutParams s).2 := by
  unfold cutParams
  split
  · next l r hlr =>
    obtain ⟨hs, hr⟩ := cutLast?_eq_some hlr
    split
    · next a b hab =>
      obtain ⟨hr', -⟩ := cut?_eq_some hab
      refine ⟨?_, fun hb => hr (by simp [hr', hb])⟩
      rw [hs] at h
      cases l with
      | nil => simp at h
      | cons d l => simpa using h
    · exact ⟨h, by simp⟩
  · next hnone =>
    have hno := cutLast?_eq_none hnone
    rcases hcut : cut? ';' s with _ | ⟨a, b⟩
    · exact ⟨h, by simp⟩
    · obtain ⟨hs, -⟩ := cut?_eq_some hcut
      rw [Option.getD_some]
      refine ⟨?_, fun hb => hno (by rw [hs]; simp [hb])⟩
      rw [hs] at h
      cases a with
      | nil => simp at h
      | cons d a => simpa using h

theorem cutParams_subset (s : List Char) : (cutParams s).1 ⊆ s ∧ (cutParams s).2 ⊆ s := by
  unfold cutParams
  split
  · next l r hlr =>
    obtain ⟨hs, -⟩ := cutLast?_eq_some hlr
    split
    · next a b hab =>
      obtain ⟨hr, -⟩ := cut?_eq_some hab
      rw [hs, hr]
      refine ⟨fun c hc => ?_, fun c hc => by simp [hc]⟩
      simp only [List.mem_append, List.mem_cons] at hc ⊢
      tauto
    · exact ⟨fun c hc => hc, by simp⟩
  · rcases hcut : cut? ';' s with _ | ⟨a, b⟩
    · exact ⟨fun c hc => hc, by simp⟩
    · obtain ⟨hs, -⟩ := cut?_eq_some hcut
      rw [Option.getD_some, hs]
      exact ⟨fun c hc => List.mem_append_left _ hc, fun c hc => by simp [hc]⟩

/-! ## Merging paths -/

theorem mem_of_mem_splitOn {mark c : Char} {s g : List Char} (hg : g ∈ s.splitOn mark) (hc : c ∈ g) : c ∈ s := by
  induction s generalizing g with
  | nil =>
    rw [List.splitOn_nil, List.mem_singleton] at hg
    simp [hg] at hc
  | cons d s ih =>
    rw [List.splitOn_cons_eq_if_modifyHead] at hg
    split at hg
    · rcases List.mem_cons.1 hg with rfl | hg
      · simp at hc
      · exact List.mem_cons_of_mem _ (ih hg hc)
    · obtain ⟨first, rest, hs⟩ := List.exists_cons_of_ne_nil (List.splitOn_ne_nil mark s)
      rw [hs, List.modifyHead_cons] at hg
      rcases List.mem_cons.1 hg with rfl | hg
      · rcases List.mem_cons.1 hc with rfl | hc
        · simp
        · exact List.mem_cons_of_mem _ (ih (by simp [hs]) hc)
      · exact List.mem_cons_of_mem _ (ih (by simp [hs, hg]) hc)

theorem mem_removeDots {segs : List (List Char)} {g : List Char} (h : g ∈ removeDots segs) : g ∈ segs ∨ g = [] := by
  unfold removeDots at h
  dsimp only at h
  rw [List.mem_reverse] at h
  split at h
  · rcases List.mem_cons.1 h with h | h
    · exact Or.inr h
    · exact Or.inl ((mem_foldl_dotStep h).resolve_left (by simp))
  · exact Or.inl ((mem_foldl_dotStep h).resolve_left (by simp))

theorem mem_intercalate {mark c : Char} {segs : List (List Char)} (h : c ∈ [mark].intercalate segs) :
    c = mark ∨ ∃ g ∈ segs, c ∈ g := by
  induction segs with
  | nil => simp at h
  | cons g segs ih =>
    cases segs with
    | nil => exact Or.inr ⟨g, by simp, by simpa using h⟩
    | cons x rest =>
      rw [List.intercalate_cons_cons, List.mem_append, List.mem_append, List.mem_singleton] at h
      rcases h with (h | h) | h
      · exact Or.inr ⟨g, by simp, h⟩
      · exact Or.inl h
      · exact (ih h).imp_right fun ⟨k, hk, hc⟩ => ⟨k, List.mem_cons_of_mem _ hk, hc⟩

/-- The segments of a relative path seen from a base path. -/
def mergeSegments (base path : List Char) : List (List Char) :=
  dropInnerEmpty (directorySegments base ++ path.splitOn '/')

theorem mem_mergeSegments {base path g : List Char} (h : g ∈ mergeSegments base path) :
    g ∈ base.splitOn '/' ∨ g ∈ path.splitOn '/' := by
  have hdir : ∀ x ∈ directorySegments base, x ∈ base.splitOn '/' := by
    unfold directorySegments
    intro x hx
    dsimp only at hx
    split at hx
    · exact hx
    · exact List.dropLast_subset _ hx
  have hdrop : ∀ (segs : List (List Char)), ∀ x ∈ dropInnerEmpty segs, x ∈ segs := by
    intro segs x hx
    unfold dropInnerEmpty at hx
    split at hx
    · exact hx
    · next first rest =>
      split at hx
      · simp only [List.mem_singleton] at hx
        simp [hx]
      · next last hlast =>
        rw [List.cons_append, List.mem_cons, List.mem_append, List.mem_singleton, List.mem_filter] at hx
        rcases hx with rfl | ⟨hx, -⟩ | rfl
        · simp
        · exact List.mem_cons_of_mem _ (List.dropLast_subset _ hx)
        · exact List.mem_cons_of_mem _ (List.mem_of_getLast? hlast)
  exact (List.mem_append.1 (hdrop _ g h)).imp_left (hdir g)

theorem mergePath_eq {base path : List Char} (h : path.head? ≠ some '/') : mergePath base path =
    if ['/'].intercalate (removeDots (mergeSegments base path)) = [] then ['/']
    else ['/'].intercalate (removeDots (mergeSegments base path)) := by
  unfold mergePath mergeSegments
  rw [if_neg (by simpa using h)]
  dsimp only
  split
  · next hnil => rw [if_pos hnil]
  · next hne => rw [if_neg hne]

theorem single_mergePath (base : List Char) {path : List Char} (h : path.head? ≠ some '/') :
    Single (mergePath base path) := by
  have hslash : ∀ g ∈ mergeSegments base path, '/' ∉ g := fun g hg =>
    (mem_mergeSegments hg).elim Path.not_mem_of_mem_splitOn Path.not_mem_of_mem_splitOn
  rw [mergePath_eq h]
  split
  · unfold Single
    decide
  · unfold mergeSegments at hslash ⊢
    rcases hsegs : directorySegments base ++ path.splitOn '/' with _ | ⟨first, rest⟩
    · exact single_of_not_mem (by decide)
    · rw [hsegs] at hslash
      unfold dropInnerEmpty at hslash ⊢
      rcases hlast : rest.getLast? with _ | last
      · -- a single segment
        simp only [hlast] at hslash ⊢
        refine single_intercalate (fun g hg => ?_) (fun g hg => ?_)
        · rcases mem_removeDots hg with hg | rfl
          · exact hslash g hg
          · simp
        · have hlen : (removeDots [first]).length ≤ 2 := by
            unfold removeDots dotStep
            simp only [List.foldl_cons, List.foldl_nil, List.tail_nil]
            split <;> split <;> (try split) <;> simp
          have hnil : (removeDots [first]).tail.dropLast = [] := by
            rw [← List.length_eq_zero_iff, List.length_dropLast, List.length_tail]
            omega
          rw [hnil] at hg
          exact absurd hg (by simp)
      · simp only [hlast] at hslash ⊢
        exact single_removeDots (fun g hg => by simpa using (List.mem_filter.1 hg).2) hslash

theorem mem_mergePath {base path : List Char} (h : path.head? ≠ some '/') {c : Char} (hc : c ∈ mergePath base path) :
    c = '/' ∨ c ∈ base ∨ c ∈ path := by
  rw [mergePath_eq h] at hc
  split at hc
  · exact Or.inl (by simpa using hc)
  · rcases mem_intercalate hc with rfl | ⟨g, hg, hcg⟩
    · exact Or.inl rfl
    · rcases mem_removeDots hg with hg | rfl
      · exact Or.inr ((mem_mergeSegments hg).imp (mem_of_mem_splitOn · hcg) (mem_of_mem_splitOn · hcg))
      · exact absurd hcg (by simp)

theorem mergePath_ne_nil {base path : List Char} (h : path.head? ≠ some '/') : mergePath base path ≠ [] := by
  rw [mergePath_eq h]
  split
  · simp
  · next hne => exact hne

theorem single_putParams {path params : List Char} (hpath : Single path) (hparams : '/' ∉ params) :
    Single (putParams path params) := by
  unfold putParams
  split
  · exact hpath
  · exact single_append_right hpath (by simp [hparams])

theorem putParams_ne_nil {path params : List Char} (h : path ≠ []) : putParams path params ≠ [] := by
  unfold putParams
  split
  · exact h
  · simp [h]

/-- A path that is put together has only characters of the two paths, slashes and a semicolon. -/
theorem mem_putParams {P : Char → Prop} {b path : List Char} (h : (cutParams path).1.head? ≠ some '/')
    (hb : ∀ c ∈ b, P c) (hpath : ∀ c ∈ path, P c) (hslash : P '/') (hsemi : P ';') :
    ∀ c ∈ putParams (mergePath (cutParams b).1 (cutParams path).1) (cutParams path).2, P c := by
  have hmerge : ∀ c ∈ mergePath (cutParams b).1 (cutParams path).1, P c := by
    intro c hc
    rcases mem_mergePath h hc with rfl | hc | hc
    · exact hslash
    · exact hb c ((cutParams_subset b).1 hc)
    · exact hpath c ((cutParams_subset path).1 hc)
  intro c hc
  unfold putParams at hc
  split at hc
  · exact hmerge c hc
  · rcases List.mem_append.1 hc with hc | hc
    · exact hmerge c hc
    · rcases List.mem_cons.1 hc with rfl | hc
      · exact hsemi
      · exact hpath c ((cutParams_subset path).2 hc)

/-! ## Resolving against the root -/

/-- The root without its final slash. -/
def rootSite : List Char := "https:".toList ++ '/' :: '/' :: "resolve.invalid".toList

/-- Whether a character stays in a URL that is read. -/
def isKept (c : Char) : Bool := !(c == '\t' || c == '\x0d' || c == '\n')

/-- Whether a character does not end a path. -/
def isPathChar (c : Char) : Bool := c != '?' && c != '#'

/-- The path of a text: what stands before a query or a fragment, without what a URL is cleared of. -/
def pathOf (s : List Char) : List Char := (s.filter isKept).takeWhile isPathChar

/-- A path with a slash in front. -/
def withRoot (path : List Char) : List Char := if path.head? = some '/' then path else '/' :: path

theorem pathOf_kept {s : List Char} {c : Char} (h : c ∈ pathOf s) : isKept c = true ∧ isPathChar c = true :=
  ⟨(List.mem_filter.1 ((List.takeWhile_sublist _).subset h)).2, List.mem_takeWhile_imp h⟩

theorem pathOf_eq_self {s : List Char} (h : ∀ c ∈ s, isKept c = true ∧ isPathChar c = true) : pathOf s = s := by
  unfold pathOf
  rw [List.filter_eq_self.2 fun c hc => (h c hc).1, List.takeWhile_eq_self_iff.2 fun c hc => (h c hc).2]

theorem head?_pathOf {s : List Char} {c : Char} (h : s.head? = some c) (hc : isKept c = true ∧ isPathChar c = true) :
    (pathOf s).head? = some c := by
  obtain ⟨d, t, rfl⟩ : ∃ d t, s = d :: t := List.exists_cons_of_ne_nil (by rintro rfl; simp at h)
  obtain rfl : d = c := by simpa using h
  rw [pathOf, List.filter_cons_of_pos hc.1, List.takeWhile_cons_of_pos hc.2]
  rfl

theorem head?_withRoot (path : List Char) : (withRoot path).head? = some '/' := by
  unfold withRoot
  split
  · assumption
  · rfl

theorem mem_withRoot {P : Char → Prop} {path : List Char} (h : ∀ c ∈ path, P c) (hslash : P '/') :
    ∀ c ∈ withRoot path, P c := by
  unfold withRoot
  split
  · exact h
  · intro c hc
    rcases List.mem_cons.1 hc with rfl | hc
    · exact hslash
    · exact h c hc

theorem takeWhile_isPathChar (s : List Char) : s.takeWhile isPathChar = (cutOff '?' (cutOff '#' s).1).1 := by
  rw [cutOff_fst, cutOff_fst, List.takeWhile_takeWhile]
  congr 1
  funext c
  by_cases hq : c = '?' <;> by_cases hh : c = '#' <;> simp [isPathChar, hq, hh]

/-- The parts of a URL with a scheme and an authority. -/
theorem split?_of_cutScheme? {s r scheme : List Char} (h : cutScheme? (clean s) = some (scheme, '/' :: '/' :: r))
    (ha : isAuthority (r.takeWhile (!endsAuthority ·)) = true) : Parts.split? [] s =
      some ⟨scheme, r.takeWhile (!endsAuthority ·), (cutOff '?' (cutOff '#' (r.dropWhile (!endsAuthority ·))).1).1,
        (cutOff '?' (cutOff '#' (r.dropWhile (!endsAuthority ·))).1).2,
        (cutOff '#' (r.dropWhile (!endsAuthority ·))).2⟩ := by
  unfold Parts.split?
  dsimp only
  rw [h]
  exact if_pos ha

/-- The parts of a URL below the root. -/
theorem split?_root {s : List Char} (hs : s.head? = some '/') : ∃ u, Parts.split? [] (rootSite ++ s) = some u ∧
    u.scheme = "https".toList ∧ u.authority = "resolve.invalid".toList ∧
    u.path = pathOf s := by
  obtain ⟨c, t, rfl⟩ : ∃ c t, s = c :: t := List.exists_cons_of_ne_nil (by rintro rfl; simp at hs)
  obtain rfl : c = '/' := by simpa using hs
  have hfilter : ('/' :: t).filter isKept = '/' :: t.filter isKept := List.filter_cons_of_pos (by decide)
  have hsite : rootSite.filter isKept = rootSite := by decide
  have hclean : clean (rootSite ++ '/' :: t) = rootSite ++ '/' :: t.filter isKept := by
    have hdrop : (rootSite ++ '/' :: t).dropWhile (·.toNat ≤ 32) = rootSite ++ '/' :: t := rfl
    unfold clean
    rw [hdrop]
    change (rootSite ++ '/' :: t).filter isKept = _
    rw [List.filter_append, hsite, hfilter]
  have hscheme : cutScheme? (rootSite ++ '/' :: t.filter isKept) =
      some ("https".toList, '/' :: '/' :: ("resolve.invalid".toList ++ '/' :: t.filter isKept)) := by
    have hcut := cut?_append (c := ':') (l := "https".toList) (by decide)
      ('/' :: '/' :: ("resolve.invalid".toList ++ '/' :: t.filter isKept))
    have hsplit : rootSite ++ '/' :: t.filter isKept =
      "https".toList ++ ':' :: '/' :: '/' :: ("resolve.invalid".toList ++ '/' :: t.filter isKept) := rfl
    rw [hsplit]
    unfold cutScheme?
    rw [hcut]
    rfl
  have hall : ∀ c ∈ "resolve.invalid".toList, (!endsAuthority c) = true := by
    rw [← List.all_eq_true]
    decide
  have htake : ("resolve.invalid".toList ++ '/' :: t.filter isKept).takeWhile (!endsAuthority ·) =
      "resolve.invalid".toList := by
    rw [List.takeWhile_append_of_pos hall, List.takeWhile_cons_of_neg (by decide), List.append_nil]
  have hdrop : ("resolve.invalid".toList ++ '/' :: t.filter isKept).dropWhile (!endsAuthority ·) =
      '/' :: t.filter isKept := by
    rw [List.dropWhile_append_of_pos hall, List.dropWhile_cons_of_neg (by decide)]
  have hauth : isAuthority "resolve.invalid".toList = true := by decide
  have hparts := split?_of_cutScheme? (s := rootSite ++ '/' :: t) (hclean ▸ hscheme) (htake ▸ hauth)
  rw [htake, hdrop] at hparts
  rw [pathOf, hfilter, takeWhile_isPathChar]
  exact ⟨_, hparts, rfl, rfl, rfl⟩

/-- A relative reference begins with a dot. -/
theorem head?_of_relative {s : List Char} (h : Specifier.kind s = .relative) : s.head? = some '.' := by
  have hprefix : ∀ (p : String), p.toList.head? = some '.' → startsWith p s = true → s.head? = some '.' := by
    intro p hp hs
    obtain ⟨t, rfl⟩ := List.isPrefixOf_iff_prefix.1 hs
    rw [List.head?_append, hp, Option.some_or]
  unfold Specifier.kind at h
  split at h
  · exact absurd h (by simp)
  · split at h
    · next hs =>
      simp only [Bool.or_eq_true, beq_iff_eq] at hs
      rcases hs with ((hs | hs) | rfl) | rfl
      · exact hprefix _ rfl hs
      · exact hprefix _ rfl hs
      · rfl
      · rfl
    · exact absurd h (by simp)

/-- The parts of a relative reference. -/
theorem split?_reference {s : List Char} (hs : s.head? = some '.') (scheme : List Char) :
    ∃ u, Parts.split? scheme s = some u ∧ u.scheme = scheme ∧ u.authority = [] ∧ u.path = pathOf s := by
  obtain ⟨c, t, rfl⟩ : ∃ c t, s = c :: t := List.exists_cons_of_ne_nil (by rintro rfl; simp at hs)
  obtain rfl : c = '.' := by simpa using hs
  have hclean : clean ('.' :: t) = '.' :: t.filter isKept := rfl
  have hscheme : cutScheme? ('.' :: t.filter isKept) = none := by
    unfold cutScheme?
    split
    · next c l r h =>
      obtain ⟨heq, -⟩ := cut?_eq_some h
      obtain ⟨rfl, -⟩ := List.cons.inj heq
      rfl
    · rfl
  have hpath := takeWhile_isPathChar ('.' :: t.filter isKept)
  have hparts : Parts.split? scheme ('.' :: t) = some ⟨scheme, [], (cutOff '?' (cutOff '#' ('.' :: t.filter isKept)).1).1,
      (cutOff '?' (cutOff '#' ('.' :: t.filter isKept)).1).2, (cutOff '#' ('.' :: t.filter isKept)).2⟩ := by
    unfold Parts.split?
    rw [hclean]
    dsimp only
    rw [hscheme]
    exact if_pos (c := isAuthority [] = true) (by decide)
  exact ⟨_, hparts, rfl, rfl, hpath.symm⟩

/-- The text of parts below the root: a path that begins with a slash, and what ends it. -/
theorem render_root {u : Parts} (hs : u.scheme = "https".toList) (ha : u.authority = "resolve.invalid".toList)
    (hp : u.path ≠ []) : ∃ tail, u.render = rootSite ++ (withRoot u.path ++ tail) ∧
      (tail = [] ∨ ∃ c t, tail = c :: t ∧ isKept c = true ∧ isPathChar c = false) := by
  obtain ⟨scheme, authority, path, query, fragment⟩ := u
  dsimp only at hs ha hp
  subst hs ha
  have hquery : ∀ s : List Char, (if query.isEmpty then s else s ++ '?' :: query) =
      s ++ if query.isEmpty then [] else '?' :: query := fun s => by split <;> simp
  have hfragment : ∀ s : List Char, (if fragment.isEmpty then s else s ++ '#' :: fragment) =
      s ++ if fragment.isEmpty then [] else '#' :: fragment := fun s => by split <;> simp
  have hslashes : (!("resolve.invalid".toList).isEmpty || (!("https".toList).isEmpty &&
      isAmong authoritySchemes "https".toList) || startsWith "//" path) = true := rfl
  have hroot : (if path.isEmpty || path.head? == some '/' then path else '/' :: path) = withRoot path := by
    unfold withRoot
    by_cases hhead : path.head? = some '/'
    · rw [if_pos hhead, if_pos (by simp [hhead])]
    · rw [if_neg hhead, if_neg (by simpa [hhead] using hp)]
  refine ⟨(if query.isEmpty then [] else '?' :: query) ++ if fragment.isEmpty then [] else '#' :: fragment, ?_, ?_⟩
  · unfold Parts.render
    dsimp only
    rw [hslashes, if_pos rfl, if_neg (c := ("https".toList).isEmpty = true) (by decide), hquery, hfragment, hroot]
    simp [rootSite]
  · rcases query with _ | ⟨c, query⟩
    · rcases fragment with _ | ⟨c, fragment⟩
      · exact Or.inl rfl
      · exact Or.inr ⟨'#', c :: fragment, rfl, by decide, by decide⟩
    · exact Or.inr ⟨'?', _, rfl, by decide, by decide⟩

/-- The path of a reference seen from a base path. -/
def mergedPath (base ref : List Char) : List Char :=
  withRoot (putParams (mergePath (cutParams (pathOf base)).1 (cutParams (pathOf ref)).1) (cutParams (pathOf ref)).2)

theorem head?_cutParams_pathOf {ref : List Char} (hdot : ref.head? = some '.') :
    (cutParams (pathOf ref)).1.head? = some '.' ∧ '/' ∉ (cutParams (pathOf ref)).2 :=
  cutParams_parts (head?_pathOf hdot (by decide))

theorem mergedPath_kept (base : List Char) {ref : List Char} (hdot : ref.head? = some '.') :
    ∀ c ∈ mergedPath base ref, isKept c = true ∧ isPathChar c = true := by
  have hhead : (cutParams (pathOf ref)).1.head? ≠ some '/' := by simp [(head?_cutParams_pathOf hdot).1]
  have hbase : ∀ c ∈ pathOf base, isKept c = true ∧ isPathChar c = true := fun c hc => pathOf_kept hc
  have href : ∀ c ∈ pathOf ref, isKept c = true ∧ isPathChar c = true := fun c hc => pathOf_kept hc
  exact mem_withRoot (mem_putParams hhead hbase href (by decide) (by decide)) (by decide)

/-- The path of a reference that begins with a dot. -/
theorem resolvePath?_reference (referrer : List Char) {ref : List Char} (hdot : ref.head? = some '.') :
    resolvePath? referrer ref = some (mergedPath ('/' :: referrer.dropWhile (· == '/')) ref) := by
  -- the base and the reference
  have hroot : resolveRoot ++ referrer.dropWhile (· == '/') = rootSite ++ '/' :: referrer.dropWhile (· == '/') := rfl
  obtain ⟨b, hb, hbs, hba, hbp⟩ := split?_root (s := '/' :: referrer.dropWhile (· == '/')) rfl
  obtain ⟨r, hr, hrs, hra, hrp⟩ := split?_reference hdot b.scheme
  obtain ⟨hcut, -⟩ := head?_cutParams_pathOf hdot
  have hkept := mergedPath_kept ('/' :: referrer.dropWhile (· == '/')) hdot
  generalize hout : mergedPath ('/' :: referrer.dropWhile (· == '/')) ref = out at hkept ⊢
  unfold mergedPath at hout
  rw [← hbp, ← hrp] at hout
  rw [← hrp] at hcut
  have hhead : (cutParams r.path).1.head? ≠ some '/' := by simp [hcut]
  -- the path that is put together
  have hjoined : join? (rootSite ++ '/' :: referrer.dropWhile (· == '/')) ref = some (Parts.render { r with
      authority := b.authority
      path := putParams (mergePath (cutParams b.path).1 (cutParams r.path).1) (cutParams r.path).2 }) := by
    have hscheme : (r.scheme != b.scheme || !isAmong hierarchicalSchemes r.scheme) = false := by
      rw [hrs, hbs]
      decide
    have hpath : (cutParams r.path).1.isEmpty = false := by
      rw [Bool.eq_false_iff]
      intro he
      rw [List.isEmpty_iff.1 he] at hcut
      exact absurd hcut (by simp)
    unfold join?
    rw [if_neg (by simp [rootSite]), if_neg (by rintro he; rw [List.isEmpty_iff.1 he] at hdot; simp at hdot)]
    simp only [hb, hr, Option.bind_eq_bind, Option.bind_some, hscheme, hra, List.isEmpty_nil, Bool.not_true, hpath,
      Bool.false_and, Bool.false_eq_true, if_false]
    rfl
  obtain ⟨tail, hrender, htail⟩ := render_root (u := { r with
      authority := b.authority
      path := putParams (mergePath (cutParams b.path).1 (cutParams r.path).1) (cutParams r.path).2 })
    (hrs.trans hbs) hba (putParams_ne_nil (mergePath_ne_nil hhead))
  dsimp only at hrender
  rw [hout] at hrender
  -- read again, the path is that
  have hstart : (out ++ tail).head? = some '/' := by
    rw [List.head?_append, ← hout, head?_withRoot, Option.some_or]
  obtain ⟨v, hv, -, -, hvp⟩ := split?_root hstart
  have hagain : pathOf (out ++ tail) = out := by
    rw [pathOf, List.filter_append, List.filter_eq_self.2 fun c hc => (hkept c hc).1,
      List.takeWhile_append_of_pos fun c hc => (hkept c hc).2]
    rcases htail with rfl | ⟨c, t, rfl, hk, hends⟩
    · simp
    · rw [List.filter_cons_of_pos hk, List.takeWhile_cons_of_neg (by simp [hends]), List.append_nil]
  unfold resolvePath?
  rw [hroot, hjoined]
  simp only [Option.bind_eq_bind, Option.bind_some, hrender, hv, hvp, hagain, Option.pure_def]

/-- A path that is put together has no empty step. -/
theorem single_mergedPath (base : List Char) {ref : List Char} (hdot : ref.head? = some '.') :
    Single (mergedPath base ref) := by
  obtain ⟨hcut, hparams⟩ := head?_cutParams_pathOf hdot
  have hhead : (cutParams (pathOf ref)).1.head? ≠ some '/' := by simp [hcut]
  have hput := single_putParams (single_mergePath (cutParams (pathOf base)).1 hhead) hparams
  unfold mergedPath withRoot
  split
  · exact hput
  · next hne => exact single_cons.2 ⟨fun hc => hne hc.2, hput⟩

/-- The path of a relative reference has no empty step. -/
theorem resolvePath?_single {referrer ref path : List Char} (hk : Specifier.kind ref = .relative)
    (h : resolvePath? referrer ref = some path) : Single path := by
  have hdot := head?_of_relative hk
  rw [resolvePath?_reference referrer hdot] at h
  obtain rfl := Option.some.inj h
  exact single_mergedPath _ hdot

/-- In a path without empty steps no location has a path that begins with a slash. -/
theorem head?_path_of_single {s : List Char} {l : Location} (hs : Single s) (h : Location.parse? s = some l) :
    l.path.toList.head? ≠ some '/' := by
  obtain ⟨r, hpkg, r', hversion, hpath⟩ := Location.parse?_parts h
  have hsuffix : r' <:+ s := by
    refine .trans ?_ ⟨_, (Location.cutPackage?_parts hpkg).symm⟩
    unfold Location.cutVersion? at hversion
    split at hversion
    · exact ⟨_, by rw [List.cons_append, ← (Location.run?_parts hversion).1]⟩
    · simp only [Option.some.injEq, Prod.mk.injEq] at hversion
      exact ⟨[], by simp [hversion.2]⟩
  intro hhead
  unfold Location.readPath? at hpath
  split at hpath
  · rw [← Option.some.inj hpath] at hhead
    exact absurd hhead (by simp)
  · next t =>
    dsimp only at hpath
    split at hpath
    · rw [List.span_eq_takeWhile_dropWhile] at hpath
      rw [← Option.some.inj hpath] at hhead
      have hrest := hs.within hsuffix.isInfix
      rw [single_cons] at hrest
      refine hrest.1 ⟨rfl, ?_⟩
      cases t with
      | nil => simp at hhead
      | cons d t =>
        rw [List.takeWhile_cons] at hhead
        split at hhead
        · simpa using hhead
        · simp at hhead
    · exact absurd hpath (by simp)
  · exact absurd hpath (by simp)

end BareImports.Url
