import BareImports.Proofs.Text.LetterCase
import BareImports.Proofs.Url.Join
import BareImports.Url.Redact

/-!
# URLs for logs hide their secrets

* `Sensitive name` : a name holds a sensitive word in upper or lower case; `isSensitive_of_sensitive`;
* `SameField`, `SameFront`, `SameButSecrets` : what differs in secrets only;
* `parsePairs_intercalate`, `redactQuery_eq_of_sameFields` : a query is redacted field by field;
* `split?_append`, `split?_user` : the parts of a URL with what stands behind its path, and with its user information;
* `redact_conceals` : URLs that differ in secrets only are the same in a log, if their authorities can be read.
-/

namespace BareImports.Url

open Text

/-! ## Sensitive names -/

/-- A name that holds a sensitive word, in upper or lower case. -/
def Sensitive (name : List Char) : Prop :=
  ∃ word ∈ ["token", "key", "secret", "password", "auth", "signature"], ∃ part, part <:+: name ∧ Spells part word

theorem foldLetter_of_lowerChar {c d : Char} (hd : d.toNat < 128) (h : lowerChar c = [d]) : foldLetter c = d := by
  have hno : ∀ x : Char, lowerChar x = [x] → 128 ≤ x.toNat → c ≠ x := by
    rintro x hx hgreat rfl
    obtain rfl := (List.cons.inj (hx.symm.trans h)).1
    omega
  unfold foldLetter
  rw [if_neg (by simpa using hno 'ſ' (by decide) (by decide)), if_neg (by simpa using hno 'ı' (by decide) (by decide)), h]
  rfl

/-- What agrees with a small letter of ASCII in upper or in lower case is folded to it. -/
theorem foldLetter_of_sameLetter {c d : Char} (hd : d.isLower = true) (h : SameLetter c d) : foldLetter c = d := by
  have hlt := toNat_lt_of_isLower hd
  rcases h with h | h
  · exact foldLetter_of_lowerChar hlt (h.trans (lowerChar_of_isLower hd))
  rw [upperChar_of_isLower hd] at h
  by_cases hc : c.toNat < 128
  · have hupper : c.toUpper = d.toUpper := by
      rw [upperChar, if_pos hc] at h
      exact (List.cons.inj h).1
    refine foldLetter_of_lowerChar hlt ?_
    rw [lowerChar, if_pos hc, ← Char.toLower_toUpper_eq_toLower, hupper, Char.toLower_toUpper_eq_toLower, toLower_of_isLower hd]
  · have hcapital : d.toUpper.isUpper = true := by
      rw [Char.isUpper_toUpper_eq_isAlpha, Char.isAlpha, hd, Bool.or_true]
    have hfold : ∀ x e : Char, e.isLower = true → upperChar x = [e.toUpper] → foldLetter x = e → c = x → foldLetter c = d := by
      rintro x e he hx hxe rfl
      have hsame := (List.cons.inj (hx.symm.trans h)).1
      rw [hxe, eq_of_toUpper_eq he hd hsame]
    rcases small_of_upperChar (by omega) hcapital h with hi | hs
    · exact hfold 'ı' 'i' (by decide) (by decide) (by decide) hi
    · exact hfold 'ſ' 's' (by decide) (by decide) (by decide) hs

/-- What spells a word of small letters is folded to it. -/
theorem map_foldLetter_of_spells {part : List Char} {word : String} (hword : word.toList.all Char.isLower = true)
    (h : Spells part word) : part.map foldLetter = word.toList := by
  unfold Spells at h
  generalize word.toList = letters at hword h
  induction h with
  | nil => rfl
  | cons hc _ ih =>
    rw [List.all_cons, Bool.and_eq_true] at hword
    rw [List.map_cons, foldLetter_of_sameLetter hword.1 hc, ih hword.2]

theorem occursIn_of_isInfix {p s : List Char} (h : p <:+: s) : occursIn p s = true := by
  unfold occursIn
  induction s with
  | nil =>
    obtain rfl := List.infix_nil.1 h
    rfl
  | cons c s ih =>
    unfold cutAt?
    split
    · rfl
    · next hno =>
      rcases List.infix_cons_iff.1 h with hprefix | hin
      · obtain ⟨r, hr⟩ := hprefix
        rw [List.isPrefixOf?_eq_some_iff_append_eq.2 hr] at hno
        exact absurd hno (by simp)
      · rw [Option.isSome_map, ih hin]

theorem isSensitive_of_sensitive {name : List Char} (h : Sensitive name) : isSensitive name = true := by
  obtain ⟨word, hword, part, ⟨l, r, rfl⟩, hspells⟩ := h
  have hsmall : ∀ w ∈ ["token", "key", "secret", "password", "auth", "signature"], w.toList.all Char.isLower = true := by
    decide
  unfold isSensitive
  refine List.any_eq_true.2 ⟨word, hword, occursIn_of_isInfix ⟨l.map foldLetter, r.map foldLetter, ?_⟩⟩
  rw [List.map_append, List.map_append, map_foldLetter_of_spells (hsmall word hword) hspells]

/-! ## Fields of a query -/

/-- The name and the value of a field. -/
def pair? (field : List Char) : Option (List Char × List Char) :=
  if field.isEmpty then none
  else
    let (name, value) := (cut? '=' field).getD (field, [])
    some (percentDecode name, percentDecode value)

/-- A name and its value as they are logged. -/
def concealed (pair : List Char × List Char) : List Char × List Char :=
  (pair.1, if isSensitive pair.1 then redacted else pair.2)

/-- Fields that differ in the value of a sensitive parameter at most. Its name counts as it is read: without what a URL
is cleared of, and decoded. -/
inductive SameField : List Char → List Char → Prop
  | same {field} : '&' ∉ field → '#' ∉ field → SameField field field
  | secret {name value value'} : Sensitive (percentDecode (name.filter isKept)) → '=' ∉ name → '&' ∉ name → '#' ∉ name →
    '&' ∉ value → '#' ∉ value → '&' ∉ value' → '#' ∉ value' → SameField (name ++ '=' :: value) (name ++ '=' :: value')

theorem SameField.not_mem {f g : List Char} (h : SameField f g) : ('&' ∉ f ∧ '#' ∉ f) ∧ '&' ∉ g ∧ '#' ∉ g := by
  cases h with
  | same hand hhash => exact ⟨⟨hand, hhash⟩, hand, hhash⟩
  | secret _ _ hand hhash hand₁ hhash₁ hand₂ hhash₂ => simp_all

theorem pair?_assignment {name : List Char} (hname : '=' ∉ name) (value : List Char) :
    pair? (name ++ '=' :: value) = some (percentDecode name, percentDecode value) := by
  unfold pair?
  rw [if_neg (by simp), cut?_append hname]
  rfl

theorem concealed_pair? {f g : List Char} (h : SameField f g) :
    (pair? (f.filter isKept)).map concealed = (pair? (g.filter isKept)).map concealed := by
  cases h with
  | same => rfl
  | @secret name value value' hsensitive hname =>
    have hno : '=' ∉ name.filter isKept := fun h => hname (List.mem_filter.1 h).1
    have hfield : ∀ v : List Char, (pair? ((name ++ '=' :: v).filter isKept)).map concealed =
        some (percentDecode (name.filter isKept), redacted) := by
      intro v
      rw [List.filter_append, List.filter_cons_of_pos (by decide), pair?_assignment hno, Option.map_some, concealed]
      rw [if_pos (isSensitive_of_sensitive hsensitive)]
    rw [hfield, hfield]

theorem filter_intercalate (fields : List (List Char)) :
    (['&'].intercalate fields).filter isKept = ['&'].intercalate (fields.map (·.filter isKept)) := by
  induction fields with
  | nil => rfl
  | cons f fields ih =>
    cases fields with
    | nil => simp
    | cons g fields =>
      rw [List.intercalate_cons_cons, List.filter_append, List.filter_append, ih]
      exact List.intercalate_cons_cons.symm

theorem parsePairs_intercalate {fields : List (List Char)} (h : ∀ f ∈ fields, '&' ∉ f) :
    parsePairs (['&'].intercalate fields) = fields.filterMap pair? := by
  cases fields with
  | nil => rfl
  | cons f fields =>
    unfold parsePairs
    rw [List.splitOn_intercalate '&' h (by simp)]
    rfl

theorem redactQuery_eq (query : List Char) : redactQuery query = renderPairs ((parsePairs query).map concealed) := by
  unfold redactQuery
  split
  · next h =>
    obtain rfl := List.isEmpty_iff.1 h
    rfl
  · rfl

/-- The logged form of a query, field by field. -/
theorem redactQuery_intercalate {fields : List (List Char)} (h : ∀ f ∈ fields, '&' ∉ f) :
    redactQuery ((['&'].intercalate fields).filter isKept) =
      renderPairs (fields.filterMap fun f => (pair? (f.filter isKept)).map concealed) := by
  have hclean : ∀ f ∈ fields.map (·.filter isKept), '&' ∉ f := by
    intro f hf
    obtain ⟨g, hg, rfl⟩ := List.mem_map.1 hf
    exact fun hand => h g hg (List.mem_filter.1 hand).1
  rw [redactQuery_eq, filter_intercalate, parsePairs_intercalate hclean, List.map_filterMap, List.filterMap_map]
  rfl

theorem not_mem_of_sameFields {fs gs : List (List Char)} (h : List.Forall₂ SameField fs gs) :
    (∀ f ∈ fs, '&' ∉ f ∧ '#' ∉ f) ∧ ∀ g ∈ gs, '&' ∉ g ∧ '#' ∉ g := by
  induction h with
  | nil => simp
  | cons hfg _ ih =>
    rw [List.forall_mem_cons, List.forall_mem_cons]
    exact ⟨⟨hfg.not_mem.1, ih.1⟩, hfg.not_mem.2, ih.2⟩

theorem redactQuery_eq_of_sameFields {fs gs : List (List Char)} (h : List.Forall₂ SameField fs gs) :
    redactQuery ((['&'].intercalate fs).filter isKept) = redactQuery ((['&'].intercalate gs).filter isKept) := by
  obtain ⟨hfs, hgs⟩ := not_mem_of_sameFields h
  rw [redactQuery_intercalate fun f hf => (hfs f hf).1, redactQuery_intercalate fun g hg => (hgs g hg).1]
  congr 1
  clear hfs hgs
  induction h with
  | nil => rfl
  | cons hfg _ ih => rw [List.filterMap_cons, List.filterMap_cons, concealed_pair? hfg, ih]

/-! ## What stands behind a path -/

/-- A query with its question mark; one without fields has none. -/
def queryText : List (List Char) → List Char
  | [] => []
  | f :: fields => '?' :: ['&'].intercalate (f :: fields)

/-- A fragment with its mark. -/
def fragmentText : Option (List Char) → List Char
  | none => []
  | some fragment => '#' :: fragment

/-- A text that is empty or begins with a mark behind a path. -/
def IsTail (t : List Char) : Prop := ∀ c, t.head? = some c → isPathChar c = false

theorem cutOff_of_not_mem {c : Char} {s : List Char} (h : c ∉ s) : cutOff c s = (s, []) := by
  unfold cutOff
  rw [cut?_eq_none h]
  rfl

theorem cutOff_append {c : Char} {s : List Char} (h : c ∉ s) (r : List Char) : cutOff c (s ++ c :: r) = (s, r) := by
  unfold cutOff
  rw [cut?_append h]
  rfl

theorem isPathChar_eq_false {c : Char} : isPathChar c = false ↔ c = '?' ∨ c = '#' := by
  unfold isPathChar
  by_cases hq : c = '?' <;> by_cases hh : c = '#' <;> simp [hq, hh]

theorem clean_append {front tail : List Char} (h : IsTail tail) : clean (front ++ tail) = clean front ++ tail.filter isKept := by
  unfold clean
  rw [List.dropWhile_append]
  split
  · next hempty =>
    have htail : tail.dropWhile (·.toNat ≤ 32) = tail := by
      cases tail with
      | nil => rfl
      | cons c tail =>
        refine List.dropWhile_cons_of_neg ?_
        rcases isPathChar_eq_false.1 (h c rfl) with rfl | rfl
        · decide
        · decide
    rw [htail, List.isEmpty_iff.1 hempty]
    rfl
  · rw [List.filter_append]
    rfl

theorem IsTail.filter {t : List Char} (h : IsTail t) : IsTail (t.filter isKept) := by
  cases t with
  | nil => exact h
  | cons c t =>
    have hc : isKept c = true := by
      rcases isPathChar_eq_false.1 (h c rfl) with rfl | rfl
      · decide
      · decide
    rw [List.filter_cons_of_pos hc]
    exact h

theorem isSchemeChar_of_isAlpha {c : Char} (h : c.isAlpha = true) : isSchemeChar c = true := by
  unfold isSchemeChar Char.isAlphanum
  rw [h]
  rfl

theorem isSchemeChar_of_mem {c d : Char} {l : List Char} (hc : c.isAlpha = true) (hl : l.all isSchemeChar = true)
    (hd : d ∈ c :: l) : isSchemeChar d = true := by
  rcases List.mem_cons.1 hd with rfl | hd
  · exact isSchemeChar_of_isAlpha hc
  · exact List.all_eq_true.1 hl d hd

/-- A scheme that is found in a text with a tail does not reach into the tail. -/
theorem append_eq_scheme {s t l r : List Char} (ht : IsTail t) (hs : ':' ∉ s) (h : s ++ t = l ++ ':' :: r) :
    ∃ c ∈ l, isSchemeChar c = false := by
  have hmark : ∀ u, t ≠ ':' :: u := by
    rintro u rfl
    exact absurd (isPathChar_eq_false.1 (ht ':' rfl)) (by decide)
  rcases List.append_eq_append_iff.1 h with ⟨a, rfl, rfl⟩ | ⟨a, rfl, hr⟩
  · cases a with
    | nil => exact absurd rfl (hmark r)
    | cons d a =>
      refine ⟨d, by simp, ?_⟩
      rcases isPathChar_eq_false.1 (ht d rfl) with rfl | rfl
      · decide
      · decide
  · cases a with
    | nil => exact absurd hr.symm (hmark r)
    | cons d a =>
      obtain ⟨rfl, -⟩ := List.cons.inj hr
      exact absurd (by simp) hs

/-- The scheme of a text is found before its tail. -/
theorem cutScheme?_append {s t : List Char} (ht : IsTail t) :
    cutScheme? (s ++ t) = (cutScheme? s).map fun (scheme, r) => (scheme, r ++ t) := by
  rcases hcut : cut? ':' s with _ | ⟨l, r⟩
  · -- a colon in the tail has the mark before it
    have hs : cutScheme? s = none := by
      unfold cutScheme?
      rw [hcut]
    rw [hs, Option.map_none]
    unfold cutScheme?
    split
    · next c l r hlr =>
      have hno : ':' ∉ s := fun hmem => absurd (cutWhere?_eq_none hcut ':' hmem) (by simp)
      obtain ⟨d, hd, hdno⟩ := append_eq_scheme ht hno (cut?_eq_some hlr).1
      refine if_neg fun hscheme => ?_
      rw [Bool.and_eq_true] at hscheme
      exact absurd ((isSchemeChar_of_mem hscheme.1 hscheme.2 hd).symm.trans hdno) (by decide)
    · rfl
  · obtain ⟨rfl, hl⟩ := cut?_eq_some hcut
    have hall : cut? ':' (l ++ ':' :: r ++ t) = some (l, r ++ t) := by
      rw [List.append_assoc, List.cons_append]
      exact cut?_append hl _
    unfold cutScheme?
    rw [hcut, hall]
    cases l with
    | nil => rfl
    | cons c l =>
      dsimp only
      split
      · rfl
      · rfl

/-- The authority behind two slashes, and what follows it. -/
def cutAuthority : List Char → List Char × List Char
  | '/' :: '/' :: r => (r.takeWhile (!endsAuthority ·), r.dropWhile (!endsAuthority ·))
  | s => ([], s)

theorem cutAuthority_of_ne {s : List Char} (h : ∀ r, s ≠ '/' :: '/' :: r) : cutAuthority s = ([], s) := by
  unfold cutAuthority
  split
  · next r => exact absurd rfl (h r)
  · rfl

/-- The parts of a URL by its scheme and what follows the scheme. -/
theorem split?_of_getD {scheme scheme' text s : List Char}
    (h : (cutScheme? (clean text)).getD (scheme, clean text) = (scheme', s)) : Parts.split? scheme text =
      if isAuthority (cutAuthority s).1 then
        some ⟨scheme', (cutAuthority s).1, (cutOff '?' (cutOff '#' (cutAuthority s).2).1).1,
          (cutOff '?' (cutOff '#' (cutAuthority s).2).1).2, (cutOff '#' (cutAuthority s).2).2⟩
      else none := by
  unfold Parts.split?
  dsimp only
  rw [h]
  dsimp only
  split
  · rfl
  · next hno => rw [cutAuthority_of_ne fun r => hno r]

theorem cutAuthority_append {s t : List Char} (ht : IsTail t) :
    cutAuthority (s ++ t) = ((cutAuthority s).1, (cutAuthority s).2 ++ t) := by
  have htail : ∀ u, t ≠ '/' :: u := by
    rintro u rfl
    exact absurd (ht '/' rfl) (by decide)
  by_cases hs : ∃ r, s = '/' :: '/' :: r
  · obtain ⟨r, rfl⟩ := hs
    have hcut : t.takeWhile (!endsAuthority ·) = [] ∧ t.dropWhile (!endsAuthority ·) = t := by
      cases t with
      | nil => exact ⟨rfl, rfl⟩
      | cons c t =>
        have hc : (!endsAuthority c) = false := by
          rcases isPathChar_eq_false.1 (ht c rfl) with rfl | rfl
          · rfl
          · rfl
        exact ⟨List.takeWhile_cons_of_neg (by simp [hc]), List.dropWhile_cons_of_neg (by simp [hc])⟩
    show (List.takeWhile _ (r ++ t), List.dropWhile _ (r ++ t)) = (List.takeWhile _ r, List.dropWhile _ r ++ t)
    by_cases hall : ∀ c ∈ r, (!endsAuthority c) = true
    · rw [List.takeWhile_append_of_pos hall, List.dropWhile_append_of_pos hall, hcut.1, hcut.2, List.append_nil]
      rw [List.takeWhile_eq_self_iff.2 hall, List.dropWhile_eq_nil_iff.2 hall]
      rfl
    · rw [List.takeWhile_append, List.dropWhile_append, if_neg, if_neg]
      · rwa [List.isEmpty_iff, List.dropWhile_eq_nil_iff]
      · intro hlen
        exact hall (List.takeWhile_eq_self_iff.1 ((List.takeWhile_prefix _).eq_of_length hlen))
  · have hno : ∀ r, s ≠ '/' :: '/' :: r := fun r hr => hs ⟨r, hr⟩
    rw [cutAuthority_of_ne hno, cutAuthority_of_ne]
    intro r hr
    cases s with
    | nil => exact htail _ hr
    | cons a s =>
      obtain ⟨rfl, hrest⟩ := List.cons.inj hr
      cases s with
      | nil => exact htail _ hrest
      | cons b s =>
        obtain ⟨rfl, -⟩ := List.cons.inj hrest
        exact hno s rfl

theorem cutAuthority_subset (s : List Char) : (cutAuthority s).2 ⊆ s := by
  unfold cutAuthority
  split
  · next r => exact fun c hc => List.mem_cons_of_mem _ (List.mem_cons_of_mem _ ((List.dropWhile_suffix _).subset hc))
  · exact fun c hc => hc

theorem isTail_queryText (fields : List (List Char)) (fragment : Option (List Char)) :
    IsTail (queryText fields ++ fragmentText fragment) := by
  intro c hc
  cases fields with
  | nil =>
    cases fragment with
    | none => exact absurd hc (by simp [queryText, fragmentText])
    | some fragment =>
      obtain rfl : '#' = c := Option.some.inj hc
      decide
  | cons f fields =>
    obtain rfl : '?' = c := Option.some.inj hc
    decide

theorem hash_not_mem_queryText {fields : List (List Char)} (h : ∀ f ∈ fields, '#' ∉ f) : '#' ∉ queryText fields := by
  intro hmem
  cases fields with
  | nil => exact absurd hmem (by simp [queryText])
  | cons f fields =>
    rcases mem_intercalate ((List.mem_cons.1 hmem).resolve_left (by decide)) with heq | ⟨g, hg, hin⟩
    · exact absurd heq (by decide)
    · exact h g hg hin

/-- Cutting off what stands behind a path. -/
theorem cutOff_tail {path : List Char} (hquery : '?' ∉ path) (hhash : '#' ∉ path) {fields : List (List Char)}
    (hfields : ∀ f ∈ fields, '#' ∉ f) (fragment : Option (List Char)) :
    cutOff '#' (path ++ (queryText fields ++ fragmentText fragment).filter isKept) =
      (path ++ (queryText fields).filter isKept, (fragment.getD []).filter isKept) ∧
    cutOff '?' (path ++ (queryText fields).filter isKept) = (path, (['&'].intercalate fields).filter isKept) := by
  constructor
  · have hno : '#' ∉ path ++ (queryText fields).filter isKept := by
      rw [List.mem_append, not_or]
      exact ⟨hhash, fun h => hash_not_mem_queryText hfields (List.mem_filter.1 h).1⟩
    rw [List.filter_append, ← List.append_assoc]
    cases fragment with
    | none => rw [fragmentText, List.filter_nil, List.append_nil, cutOff_of_not_mem hno]; rfl
    | some fragment =>
      rw [fragmentText, List.filter_cons_of_pos (by decide), cutOff_append hno]
      rfl
  · cases fields with
    | nil => rw [queryText, List.filter_nil, List.append_nil, cutOff_of_not_mem hquery]; rfl
    | cons f fields => rw [queryText, List.filter_cons_of_pos (by decide), cutOff_append hquery]

theorem clean_subset (s : List Char) : clean s ⊆ s := fun _ hc =>
  (List.dropWhile_suffix _).subset (List.mem_filter.1 hc).1

theorem getD_cutScheme?_subset (s : List Char) : ((cutScheme? s).getD ([], s)).2 ⊆ s := by
  rcases hcut : cutScheme? s with _ | ⟨scheme, r⟩
  · exact fun c hc => hc
  · unfold cutScheme? at hcut
    split at hcut
    · next c l r' hlr =>
      split at hcut
      · obtain ⟨-, rfl⟩ := Prod.mk.inj (Option.some.inj hcut)
        rw [(cut?_eq_some hlr).1]
        exact fun d hd => List.mem_append_right _ (List.mem_cons_of_mem _ hd)
      · exact absurd hcut (by simp)
    · exact absurd hcut (by simp)

/-- A query and a fragment behind a path come to the parts that the text before them has. -/
theorem split?_append {front : List Char} (hquery : '?' ∉ front) (hhash : '#' ∉ front) {fields : List (List Char)}
    (hfields : ∀ f ∈ fields, '#' ∉ f) (fragment : Option (List Char)) :
    Parts.split? [] (front ++ (queryText fields ++ fragmentText fragment)) = (Parts.split? [] front).map fun u =>
      { u with
        query := (['&'].intercalate fields).filter isKept
        fragment := (fragment.getD []).filter isKept } := by
  have htail := isTail_queryText fields fragment
  rcases hfound : (cutScheme? (clean front)).getD ([], clean front) with ⟨scheme, s⟩
  have hall : (cutScheme? (clean (front ++ (queryText fields ++ fragmentText fragment)))).getD
      ([], clean (front ++ (queryText fields ++ fragmentText fragment))) =
        (scheme, s ++ (queryText fields ++ fragmentText fragment).filter isKept) := by
    rw [clean_append htail, cutScheme?_append htail.filter]
    cases hcut : cutScheme? (clean front) with
    | none =>
      rw [hcut] at hfound
      obtain ⟨rfl, rfl⟩ := Prod.mk.inj hfound
      rfl
    | some found =>
      rw [hcut] at hfound
      obtain rfl : found = (scheme, s) := hfound
      rfl
  have hsub : (cutAuthority s).2 ⊆ front := by
    have hs : s ⊆ clean front := by
      have h := getD_cutScheme?_subset (clean front)
      rwa [hfound] at h
    exact fun c hc => clean_subset front (hs (cutAuthority_subset s hc))
  obtain ⟨hcut₁, hcut₂⟩ := cutOff_tail (fun h => hquery (hsub h)) (fun h => hhash (hsub h)) hfields fragment
  rw [split?_of_getD hall, split?_of_getD hfound, cutAuthority_append htail.filter]
  dsimp only
  rw [hcut₁]
  dsimp only
  rw [hcut₂, cutOff_of_not_mem fun h => hhash (hsub h), cutOff_of_not_mem fun h => hquery (hsub h)]
  split
  · rfl
  · rfl

/-! ## User information -/

/-- What stands before an authority: two slashes, with a scheme in front of them or with none. -/
def OpensAuthority (lead : List Char) : Prop :=
  clean lead = ['/', '/'] ∨
    ∃ c l, c.isAlpha = true ∧ l.all isSchemeChar = true ∧ clean lead = c :: l ++ [':', '/', '/']

/-- What stands before a query, with user information of one kind or another. It ends with the last at sign of the
authority or with an earlier one. -/
inductive SameFront : List Char → List Char → Prop
  | same {front} : '?' ∉ front → '#' ∉ front → SameFront front front
  | user {lead user user' rest} : OpensAuthority lead → (∀ c ∈ user, endsAuthority c = false) →
    (∀ c ∈ user', endsAuthority c = false) → '?' ∉ rest → '#' ∉ rest →
    SameFront (lead ++ (user ++ '@' :: rest)) (lead ++ (user' ++ '@' :: rest))

theorem mem_clean {c : Char} {s : List Char} (hgreat : 32 < c.toNat) (hkept : isKept c = true) (h : c ∈ s) : c ∈ clean s := by
  refine List.mem_filter.2 ⟨?_, hkept⟩
  rw [← List.takeWhile_append_dropWhile (p := fun d : Char => decide (d.toNat ≤ 32)) (l := s), List.mem_append] at h
  refine h.resolve_left fun hfront => ?_
  have hsmall := of_decide_eq_true (List.mem_takeWhile_imp (p := fun d : Char => decide (d.toNat ≤ 32)) hfront)
  omega

theorem clean_append_of_ne_nil {s : List Char} (h : clean s ≠ []) (t : List Char) :
    clean (s ++ t) = clean s ++ t.filter isKept := by
  unfold clean at h ⊢
  rw [List.dropWhile_append, if_neg, List.filter_append]
  · rfl
  · intro hempty
    rw [List.isEmpty_iff.1 hempty] at h
    exact h rfl

/-- Behind what opens an authority comes the authority, whatever it is. -/
theorem OpensAuthority.getD_cutScheme? {lead : List Char} (h : OpensAuthority lead) : ∃ scheme, ∀ rest,
    (cutScheme? (clean (lead ++ rest))).getD ([], clean (lead ++ rest)) = (scheme, '/' :: '/' :: rest.filter isKept) := by
  rcases h with h | ⟨c, l, hc, hl, h⟩
  · refine ⟨[], fun rest => ?_⟩
    rw [clean_append_of_ne_nil (by simp [h]), h]
    have hnone : cutScheme? (['/', '/'] ++ rest.filter isKept) = none := by
      unfold cutScheme?
      split
      · next d l r hlr =>
        obtain ⟨rfl, -⟩ := List.cons.inj (cut?_eq_some hlr).1
        rfl
      · rfl
    rw [hnone]
    rfl
  · refine ⟨(c :: l).map Char.toLower, fun rest => ?_⟩
    rw [clean_append_of_ne_nil (by simp [h]), h]
    have hno : ':' ∉ c :: l := fun hmem => absurd (isSchemeChar_of_mem hc hl hmem) (by decide)
    have hcut := cut?_append hno ('/' :: '/' :: rest.filter isKept)
    have htext : c :: l ++ [':', '/', '/'] ++ rest.filter isKept = c :: l ++ ':' :: '/' :: '/' :: rest.filter isKept := by simp
    rw [htext]
    unfold cutScheme?
    rw [hcut]
    dsimp only
    rw [hc, hl]
    rfl

theorem OpensAuthority.not_mem {lead : List Char} (h : OpensAuthority lead) {c : Char} (hc : isPathChar c = false) :
    c ∉ lead := by
  intro hmem
  have hclean : c ∈ clean lead := by
    rcases isPathChar_eq_false.1 hc with rfl | rfl
    · exact mem_clean (by decide) (by decide) hmem
    · exact mem_clean (by decide) (by decide) hmem
  have hno : isSchemeChar c = false ∧ c ≠ ':' ∧ c ≠ '/' := by
    rcases isPathChar_eq_false.1 hc with rfl | rfl
    · decide
    · decide
  rcases h with h | ⟨d, l, hd, hl, h⟩
  · rw [h] at hclean
    simp [hno.2.2] at hclean
  · rw [h, List.mem_append] at hclean
    rcases hclean with hmem | hmem
    · exact absurd ((isSchemeChar_of_mem hd hl hmem).symm.trans hno.1) (by decide)
    · simp [hno.2.1, hno.2.2] at hmem

theorem SameFront.not_mem {f g : List Char} (h : SameFront f g) : ('?' ∉ f ∧ '#' ∉ f) ∧ '?' ∉ g ∧ '#' ∉ g := by
  cases h with
  | same hquery hhash => exact ⟨⟨hquery, hhash⟩, hquery, hhash⟩
  | @user lead user user' rest hlead huser huser' hquery hhash =>
    have hfront : ∀ (w : List Char), (∀ c ∈ w, endsAuthority c = false) →
        '?' ∉ lead ++ (w ++ '@' :: rest) ∧ '#' ∉ lead ++ (w ++ '@' :: rest) := by
      intro w hw
      have hno : ∀ c, endsAuthority c = true → c ∉ w := fun c hc hmem => absurd (hc.symm.trans (hw c hmem)) (by decide)
      simp [hlead.not_mem (c := '?') (by decide), hlead.not_mem (c := '#') (by decide), hno '?' (by decide),
        hno '#' (by decide), hquery, hhash]
    exact ⟨hfront user huser, hfront user' huser'⟩

theorem cutLast?_append {c : Char} {r : List Char} (hr : c ∉ r) (l : List Char) : cutLast? c (l ++ c :: r) = some (l, r) := by
  unfold cutLast?
  rw [List.reverse_append, List.reverse_cons, List.append_assoc, List.singleton_append]
  rw [cut?_append (by simpa using hr)]
  simp

/-- What is left of an authority without user information stands behind its last at sign. -/
theorem dropUser_append (user host : List Char) : dropUser (user ++ '@' :: host) = dropUser host := by
  unfold dropUser
  rcases hcut : cutLast? '@' host with _ | ⟨l, r⟩
  · rw [cutLast?_append (cutLast?_eq_none hcut)]
    rfl
  · obtain ⟨rfl, hr⟩ := cutLast?_eq_some hcut
    have hsplit : user ++ '@' :: (l ++ '@' :: r) = (user ++ '@' :: l) ++ '@' :: r := by simp
    rw [hsplit, cutLast?_append hr]
    rfl

/-- The parts of a URL with user information: it is in front of the authority, and nothing else depends on it. -/
theorem split?_user {lead rest : List Char} (hlead : OpensAuthority lead) (hquery : '?' ∉ rest) (hhash : '#' ∉ rest) :
    ∃ scheme host path, ∀ user, (∀ c ∈ user, endsAuthority c = false) → Parts.split? [] (lead ++ (user ++ '@' :: rest)) =
      if isAuthority (user.filter isKept ++ '@' :: host) then
        some ⟨scheme, user.filter isKept ++ '@' :: host, path, [], []⟩
      else none := by
  obtain ⟨scheme, hscheme⟩ := hlead.getD_cutScheme?
  refine ⟨scheme, (rest.filter isKept).takeWhile (!endsAuthority ·), (rest.filter isKept).dropWhile (!endsAuthority ·),
    fun user huser => ?_⟩
  have hall : ∀ c ∈ user.filter isKept ++ ['@'], (!endsAuthority c) = true := by
    intro c hc
    rcases List.mem_append.1 hc with hc | hc
    · rw [huser c (List.mem_filter.1 hc).1]
      rfl
    · obtain rfl := List.mem_singleton.1 hc
      rfl
  have htext : (user ++ '@' :: rest).filter isKept = (user.filter isKept ++ ['@']) ++ rest.filter isKept := by
    rw [List.filter_append, List.filter_cons_of_pos (by decide), List.append_assoc]
    rfl
  have hcut : cutAuthority ('/' :: '/' :: (user ++ '@' :: rest).filter isKept) =
      (user.filter isKept ++ '@' :: (rest.filter isKept).takeWhile (!endsAuthority ·),
        (rest.filter isKept).dropWhile (!endsAuthority ·)) := by
    show (List.takeWhile _ _, List.dropWhile _ _) = _
    rw [htext, List.takeWhile_append_of_pos hall, List.dropWhile_append_of_pos hall, List.append_assoc]
    rfl
  have hpath : ∀ c, c ∉ rest → c ∉ (rest.filter isKept).dropWhile (!endsAuthority ·) := fun c hc hmem =>
    hc (List.mem_filter.1 ((List.dropWhile_suffix _).subset hmem)).1
  rw [split?_of_getD (hscheme _), hcut]
  dsimp only
  rw [cutOff_of_not_mem (hpath _ hhash), cutOff_of_not_mem (hpath _ hquery)]

/-- Parts of URLs whose fronts differ in user information only. -/
theorem SameFront.parts {f g : List Char} (h : SameFront f g) {u v : Parts} (hu : Parts.split? [] f = some u)
    (hv : Parts.split? [] g = some v) : u.scheme = v.scheme ∧ u.path = v.path ∧ dropUser u.authority = dropUser v.authority := by
  cases h with
  | same =>
    obtain rfl := Option.some.inj (hu.symm.trans hv)
    exact ⟨rfl, rfl, rfl⟩
  | @user lead user user' rest hlead huser huser' hquery hhash =>
    obtain ⟨scheme, host, path, hsplit⟩ := split?_user hlead hquery hhash
    have hparts : ∀ w u, (∀ c ∈ w, endsAuthority c = false) → Parts.split? [] (lead ++ (w ++ '@' :: rest)) = some u →
        u.scheme = scheme ∧ u.path = path ∧ dropUser u.authority = dropUser host := by
      intro w u hw hu
      rw [hsplit w hw] at hu
      split at hu
      · obtain rfl := Option.some.inj hu
        exact ⟨rfl, rfl, dropUser_append _ _⟩
      · exact absurd hu (by simp)
    obtain ⟨hscheme, hpath, huser⟩ := hparts _ _ huser hu
    obtain ⟨hscheme', hpath', huser'⟩ := hparts _ _ huser' hv
    exact ⟨hscheme.trans hscheme'.symm, hpath.trans hpath'.symm, huser.trans huser'.symm⟩

/-! ## URLs -/

/-- URLs that differ at most in their user information and in the values of sensitive parameters. -/
inductive SameButSecrets : List Char → List Char → Prop
  | mk {front front' fields fields' fragment} : SameFront front front' → List.Forall₂ SameField fields fields' →
    SameButSecrets (front ++ (queryText fields ++ fragmentText fragment))
      (front' ++ (queryText fields' ++ fragmentText fragment))

/-- URLs that differ in secrets only are the same in a log, if the authority of both can be read. -/
theorem redact_conceals {u v : List Char} (h : SameButSecrets u v) (hu : (Parts.split? [] u).isSome = true)
    (hv : (Parts.split? [] v).isSome = true) : redact u = redact v := by
  obtain ⟨hfront, hfields⟩ := h
  next front front' fields fields' fragment =>
  obtain ⟨hno, hno'⟩ := hfront.not_mem
  obtain ⟨hhash, hhash'⟩ := not_mem_of_sameFields hfields
  have hsplit := split?_append hno.1 hno.2 (fun f hf => (hhash f hf).2) fragment
  have hsplit' := split?_append hno'.1 hno'.2 (fun f hf => (hhash' f hf).2) fragment
  rw [hsplit, Option.isSome_map] at hu
  rw [hsplit', Option.isSome_map] at hv
  obtain ⟨p, hp⟩ := Option.isSome_iff_exists.1 hu
  obtain ⟨q, hq⟩ := Option.isSome_iff_exists.1 hv
  obtain ⟨hscheme, hpath, huser⟩ := hfront.parts hp hq
  unfold redact
  rw [hsplit, hsplit', hp, hq]
  dsimp only [Option.map_some]
  rw [hscheme, hpath, huser, redactQuery_eq_of_sameFields hfields]

/-- A URL with user information and a token. -/
def postcard (user token : String) : List Char :=
  "https://".toList ++ (user.toList ++ '@' :: "cdn.test/a.js".toList) ++
    (queryText ["v=1".toList, "Tok%65n".toList ++ '=' :: token.toList] ++ fragmentText (some "end".toList))

theorem redact_conceals_postcard :
    SameButSecrets (postcard "bob:pw" "abc") (postcard "al@ice" "x=y") ∧
    (Parts.split? [] (postcard "bob:pw" "abc")).isSome = true ∧ (Parts.split? [] (postcard "al@ice" "x=y")).isSome = true ∧
    redact (postcard "bob:pw" "abc") = redact (postcard "al@ice" "x=y") := by
  have hlead : OpensAuthority "https://".toList := Or.inr ⟨'h', "ttps".toList, by decide, by decide, by decide⟩
  have hclear : ∀ s : List Char, s.all (!endsAuthority ·) = true → ∀ c ∈ s, endsAuthority c = false := fun s hs c hc => by
    simpa using List.all_eq_true.1 hs c hc
  have hfront : SameFront ("https://".toList ++ ("bob:pw".toList ++ '@' :: "cdn.test/a.js".toList))
      ("https://".toList ++ ("al@ice".toList ++ '@' :: "cdn.test/a.js".toList)) :=
    .user hlead (hclear _ (by decide)) (hclear _ (by decide)) (by decide) (by decide)
  have htoken : Sensitive (percentDecode ("Tok%65n".toList.filter isKept)) :=
    ⟨"token", by simp, "Token".toList, by decide +kernel, by unfold Spells; decide +kernel⟩
  have hfields : List.Forall₂ SameField ["v=1".toList, "Tok%65n".toList ++ '=' :: "abc".toList]
      ["v=1".toList, "Tok%65n".toList ++ '=' :: "x=y".toList] :=
    .cons (.same (by decide) (by decide)) (.cons (.secret htoken (by decide) (by decide) (by decide) (by decide) (by decide)
      (by decide) (by decide)) .nil)
  have h : SameButSecrets (postcard "bob:pw" "abc") (postcard "al@ice" "x=y") := .mk hfront hfields
  have hbob : (Parts.split? [] (postcard "bob:pw" "abc")).isSome = true := by decide +kernel
  have halice : (Parts.split? [] (postcard "al@ice" "x=y")).isSome = true := by decide +kernel
  exact ⟨h, hbob, halice, redact_conceals h hbob halice⟩

end BareImports.Url
