import BareImports.Proofs.Script.Literals
import BareImports.Text.Cut
import Mathlib.Algebra.BigOperators.Group.List.Basic
import Mathlib.Algebra.GroupWithZero.Nat

/-!
# A parser of one statement

* `Tight.make`, `Exchanged.make`, `Exchanged.of_make` : trees that are made of parts, and what is exchanged in them;
* `readStatement` : a parser of a statement that imports a module;
* `steady_readStatement` : it still reads the statement with another name in it;
* `Tree.same`, `Tree.eq_of_same` : trees can be compared.
-/

namespace BareImports.Script

open Text

variable {spot : Spot} {n : Nat} {ts ts' us us' : List Tree} {w w' v v' s : List Char} {es es' : List Edit} {k : Kind} {extra : Bool}
  {weight : Int}

/-! ## Trees that are made -/

theorem foldl_total (ts : List Tree) (e : Extent) :
    (ts.foldl (fun (e : Extent) (c : Tree) => e + c.total) e).chars = e.chars + (ts.map (·.total.chars)).sum := by
  induction ts generalizing e with
  | nil => rfl
  | cons t ts ih =>
    rw [List.foldl_cons, ih, List.map_cons, List.sum_cons, ← Nat.add_assoc]
    rfl

/-- A tree that is made of parts has their sizes. -/
theorem size_make (ts : List Tree) : (Tree.make k ts extra weight).facts.gap.chars +
    (Tree.make k ts extra weight).facts.span.chars = (ts.map (·.total.chars)).sum := by
  have htotal := foldl_total ts .zero
  have hspan : (Tree.make k ts extra weight).facts.span.chars =
      (ts.foldl (fun (e : Extent) (c : Tree) => e + c.total) .zero).chars -
        (Tree.make k ts extra weight).facts.gap.chars := rfl
  have hgap : (Tree.make k ts extra weight).facts.gap.chars ≤ (ts.map (·.total.chars)).sum := by
    cases ts with
    | nil => exact Nat.le_refl _
    | cons t ts =>
      have htotal : t.total.chars = t.facts.gap.chars + t.facts.span.chars := rfl
      rw [List.map_cons, List.sum_cons, htotal]
      show t.facts.gap.chars ≤ _
      omega
  have hzero : Extent.zero.chars = 0 := rfl
  omega

theorem total_mk (f : Facts) (children : List Tree) : (Tree.mk f children).total.chars = f.gap.chars + f.span.chars := rfl

theorem Tight.sum (h : Tight ts w) : (ts.map (·.total.chars)).sum = w.length := by
  induction h with
  | nil => rfl
  | leaf hw h ih => simp [total_mk, hw, ih]
  | node hw hne hlexical hin h ihin ih => simp [total_mk, hw, ih]

theorem Exchanged.sum (h : Exchanged spot n ts w es ts' w') : (ts.map (·.total.chars)).sum = w.length ∧
    (ts'.map (·.total.chars)).sum = w'.length := by
  induction h with
  | nil => exact ⟨rfl, rfl⟩
  | leaf hw h ih => simp [total_mk, hw, ih]
  | inside hkind hkind' hextra hgap hgap' hspan hspan' hq hlexical hcontent h ih =>
    simp [total_mk, hgap, hgap', hspan, hspan', ih]
    omega
  | whole hliteral hkind' hgap hgap' hspan hspan' hq hlexical hcontent h ih =>
    simp [total_mk, hgap, hgap', hspan, hspan', ih]
    omega
  | node hw hw' hkind hextra hne hne' hliteral hstays hin h ihin ih => simp [total_mk, hw, hw', ih]

/-- A lexeme before others. -/
theorem Tight.lexeme {t : Token} {gap span : Extent} (hw : w.length = gap.chars + span.chars) (h : Tight us v) :
    Tight (.leaf t gap span extra :: us) (w ++ v) := .leaf hw h

/-- A tree that is made of parts has the sizes of their text. -/
theorem Tight.make (h : Tight ts w) (hne : ts ≠ [])
    (hlexical : k = .node .stringLiteral ∨ k = .node .template → areLexical ts = true) (h' : Tight us v) :
    Tight (.make k ts extra weight :: us) (w ++ v) := by
  have hw : w.length = (Tree.make k ts extra weight).facts.gap.chars + (Tree.make k ts extra weight).facts.span.chars :=
    h.sum.symm.trans (size_make ts).symm
  exact .node hw hne (fun hl => hlexical (kind_of_literal hl)) h h'

theorem isLiteral_make (hk : ¬(k = .node .stringLiteral ∨ k = .node .template)) :
    (Tree.make k ts extra weight).isLiteral = false :=
  Bool.eq_false_iff.2 fun hl => hk (kind_of_literal hl)

/-- A tree that is made of parts and is no literal has the sizes of their text. -/
theorem Tight.wrap (h : Tight ts w) (hne : ts ≠ []) (hk : ¬(k = .node .stringLiteral ∨ k = .node .template)) :
    Tight [.make k ts extra weight] w := by
  have hmade : Tight [.make k ts extra weight] (w ++ []) := h.make hne (fun hl => absurd hl hk) .nil
  rwa [List.append_nil] at hmade

/-- A lexeme stays. -/
theorem Exchanged.lexeme {t : Token} {gap span : Extent} (hw : w.length = gap.chars + span.chars)
    (h : Exchanged spot (n + w.length) us v es us' v') :
    Exchanged spot n (.leaf t gap span extra :: us) (w ++ v) es (.leaf t gap span extra :: us') (w ++ v') := .leaf hw h

/-- With what is exchanged in its parts, a tree that is made of them is made of others. -/
theorem Exchanged.make (h : Exchanged (spot.inside k) n ts w es ts' w') (hne : ts ≠ [])
    (hk : ¬(k = .node .stringLiteral ∨ k = .node .template)) (h' : Exchanged spot (n + w.length) us v es' us' v') :
    Exchanged spot n (.make k ts extra weight :: us) (w ++ v) (es ++ es') (.make k ts' extra weight :: us') (w' ++ v') := by
  have hw : w.length = (Tree.make k ts extra weight).facts.gap.chars + (Tree.make k ts extra weight).facts.span.chars :=
    h.sum.1.symm.trans (size_make ts).symm
  have hw' : w'.length = (Tree.make k ts' extra weight).facts.gap.chars + (Tree.make k ts' extra weight).facts.span.chars :=
    h.sum.2.symm.trans (size_make ts').symm
  have hne' : ts' ≠ [] := by
    rw [← List.length_pos_iff, h.length]
    exact List.length_pos_iff.2 hne
  have hliteral := @isLiteral_make ts k extra weight hk
  have hliteral' := @isLiteral_make ts' k extra weight hk
  exact .node hw hw' rfl rfl hne hne' (hliteral'.trans hliteral.symm) (fun hl => absurd (hl.symm.trans hliteral) (by decide)) h h'

/-- With what is exchanged in its parts, a tree that is made of them and stands alone is made of others. -/
theorem Exchanged.wrap (h : Exchanged (spot.inside k) n ts w es ts' w') (hne : ts ≠ [])
    (hk : ¬(k = .node .stringLiteral ∨ k = .node .template)) :
    Exchanged spot n [.make k ts extra weight] w es [.make k ts' extra weight] w' := by
  have hmade : Exchanged spot n [.make k ts extra weight] (w ++ []) (es ++ []) [.make k ts' extra weight] (w' ++ []) :=
    h.make hne hk .nil
  rwa [List.append_nil, List.append_nil, List.append_nil] at hmade

/-- What is exchanged in a tree that is made of parts and in those behind it is exchanged in its parts and in those behind it. -/
theorem Exchanged.of_make (h : Exchanged spot n (.make k ts extra weight :: us) s es us' v') (hne : ts ≠ [])
    (hk : ¬(k = .node .stringLiteral ∨ k = .node .template)) :
    ∃ w w₁ es₁ ts₁ v v₁ es₂ us₁, s = w ++ v ∧ v' = w₁ ++ v₁ ∧ es = es₁ ++ es₂ ∧
      Exchanged (spot.inside k) n ts w es₁ ts₁ w₁ ∧ Exchanged spot (n + w.length) us v es₂ us₁ v₁ := by
  have hliteral := @isLiteral_make ts k extra weight hk
  generalize hmake : Tree.make k ts extra weight = t at h hliteral
  obtain ⟨f, children⟩ := t
  have hkind : f.kind = k := congrArg Tree.kind hmake.symm
  obtain rfl : children = ts := congrArg Tree.children hmake.symm
  subst hkind
  cases h with
  | leaf => exact absurd rfl hne
  | inside hkind => exact absurd (Or.inl hkind) hk
  | whole hl => exact absurd (hl.symm.trans hliteral) (by decide)
  | node hw hw' hkind hextra hne hne' hliteral' hstays hin h => exact ⟨_, _, _, _, _, _, _, _, rfl, rfl, rfl, hin, h⟩

theorem Exchanged.of_nil (h : Exchanged spot n [] s es us' v') : s = [] ∧ v' = [] ∧ es = [] := by
  cases h
  exact ⟨rfl, rfl, rfl⟩

/-- The string that names the module of a statement stays, or something else is between its quotes. -/
theorem Exchanged.of_string {f : Facts} {children : List Tree} (hkind : f.kind = .node .stringLiteral)
    (h : Exchanged .source n (.mk f children :: us) s es us' v') :
    ∃ w w₁ v v₁ es₁ es₂ us₁, s = w ++ v ∧ v' = w₁ ++ v₁ ∧ es = es₁ ++ es₂ ∧ w.length = f.gap.chars + f.span.chars ∧
      Exchanged .source (n + w.length) us v es₂ us₁ v₁ ∧
      (w₁ = w ∧ es₁ = [] ∨ ∃ gap q inner inner', gap.length = f.gap.chars ∧ w = gap ++ q :: (inner ++ [q]) ∧
        isContent q inner' = true ∧ w₁ = gap ++ q :: (inner' ++ [q]) ∧
        es₁ = [⟨n + gap.length + 1, n + gap.length + 1 + inner.length, inner'⟩]) := by
  cases h with
  | leaf hw h => exact ⟨_, _, _, _, [], _, _, rfl, rfl, rfl, hw, h, Or.inl ⟨rfl, rfl⟩⟩
  | @inside _ _ f' _ children' _ ts' gap inner inner' v v₁ q es hkind' hkind'' hextra hgap hgap' hspan hspan' hq hlexical hcontent h =>
    have hw := length_literal hgap hspan q
    have hbehind : n + (gap ++ q :: (inner ++ [q])).length = n + gap.length + inner.length + 2 := by
      rw [hw, hgap, hspan]
      omega
    exact ⟨_, _, _, _, [_], _, _, rfl, rfl, rfl, hw, hbehind.symm ▸ h,
      Or.inr ⟨gap, q, inner, inner', hgap.symm, rfl, hcontent, rfl, rfl⟩⟩
  | node hw hw' hkind' hextra hne hne' hliteral hstays hin h =>
    obtain ⟨rfl, rfl, -⟩ := hstays (by simp [Tree.isLiteral, hkind])
    exact ⟨_, _, _, _, [], _, _, rfl, rfl, rfl, hw, h, Or.inl ⟨rfl, rfl⟩⟩

/-- What is exchanged behind a lexeme is exchanged there. -/
theorem Exchanged.of_leaf {t : Token} {gap span : Extent} (h : Exchanged spot n (.leaf t gap span extra :: us) s es us' v') :
    ∃ w v v₁ us₁, s = w ++ v ∧ v' = w ++ v₁ ∧ w.length = gap.chars + span.chars ∧
      Exchanged spot (n + w.length) us v es us₁ v₁ := by
  generalize hleaf : Tree.leaf t gap span extra = x at h
  unfold Tree.leaf at hleaf
  cases h with
  | leaf hw h =>
    obtain ⟨rfl, -⟩ := Tree.mk.inj hleaf
    exact ⟨_, _, _, _, rfl, rfl, hw, h⟩
  | inside hkind =>
    obtain ⟨rfl, -⟩ := Tree.mk.inj hleaf
    exact absurd hkind (by simp)
  | whole hl =>
    obtain ⟨rfl, -⟩ := Tree.mk.inj hleaf
    exact absurd (kind_of_literal hl) (by simp)
  | node hw hw' hkind hextra hne =>
    obtain ⟨-, rfl⟩ := Tree.mk.inj hleaf
    exact absurd rfl hne

/-! ## A parser of one statement -/

/-- A quote behind so much text. -/
def quoteBehind (gap : Extent) : Tree := .leaf .singleQuote gap ⟨1, 1, 0⟩ false

/-- The characters of a string. -/
def charsOf (size : Nat) : Tree := .make (.node .singleParts) [.leaf .singleChars .zero ⟨size, size, 0⟩ false] false 0

/-- The string in a statement, with the size of what is between its quotes. -/
def stringOf (size : Nat) : Tree :=
  .make (.node .stringLiteral) [quoteBehind ⟨1, 1, 0⟩, charsOf size, quoteBehind .zero] false 0

/-- What a statement that imports a module consists of. -/
def partsOf (size : Nat) : List Tree :=
  [.leaf .importWord .zero ⟨6, 6, 0⟩ false, stringOf size, .leaf .lineEnd .zero .zero false]

/-- The tree of a statement that imports a module, with the size of its name. -/
def statementOf (size : Nat) : Tree :=
  .make (.node .program) [
    .make (.node .statements) [.make (.node .statement) [.make (.node .importStatement) (partsOf size) false 0] false 0] false 0,
    .leaf .finish .zero .zero true] false 0

/-- A statement that imports a module by its name. -/
def statementText (inner : List Char) : List Char := "import".toList ++ ([' '] ++ '\'' :: (inner ++ ['\'']))

/-- The name in a text that is such a statement. -/
def statementName? (s : List Char) : Option (List Char) :=
  match after? "import '" s with
  | some rest => if rest.getLast? = some '\'' ∧ isContent '\'' rest.dropLast = true then some rest.dropLast else none
  | none => none

/-- A parser that reads one statement and no other text. -/
def readStatement (s : List Char) : Tree :=
  match statementName? s with
  | some inner => statementOf inner.length
  | none => .fault .zero .zero

theorem statementName?_statementText {inner : List Char} (h : isContent '\'' inner = true) :
    statementName? (statementText inner) = some inner := by
  have hafter : after? "import '" (statementText inner) = some (inner ++ ['\'']) := by
    simp [after?, statementText, List.isPrefixOf?]
  unfold statementName?
  rw [hafter]
  simp [h]

theorem readStatement_statementText {inner : List Char} (h : isContent '\'' inner = true) :
    readStatement (statementText inner) = statementOf inner.length := by
  rw [readStatement, statementName?_statementText h]

/-- A text that it reads is a statement. -/
theorem eq_statementText {s : List Char} (h : (readStatement s).facts.cost = 0) :
    ∃ inner, isContent '\'' inner = true ∧ s = statementText inner := by
  unfold readStatement at h
  split at h
  · next inner hname =>
    unfold statementName? at hname
    split at hname
    · next rest hafter =>
      split at hname
      · next hlast =>
        obtain rfl := Option.some.inj hname
        obtain ⟨initial, rfl⟩ := List.getLast?_eq_some_iff.1 hlast.1
        refine ⟨_, hlast.2, ?_⟩
        have hs := List.isPrefixOf?_eq_some_iff_append_eq.1 hafter
        rw [← hs, List.dropLast_concat]
        rfl
      · exact absurd hname (by simp)
    · exact absurd hname (by simp)
  · exact absurd h (by decide)

theorem tight_partsOf (inner : List Char) : Tight (partsOf inner.length) (statementText inner) := by
  have hchars : Tight [charsOf inner.length, quoteBehind .zero] (inner ++ ['\'']) := by
    have hname : Tight [.leaf .singleChars .zero ⟨inner.length, inner.length, 0⟩ false] (inner ++ []) :=
      .lexeme (Nat.zero_add _).symm .nil
    have hquote : Tight [quoteBehind .zero] (['\''] ++ []) := .lexeme rfl .nil
    rw [List.append_nil] at hname
    exact hname.make (by simp) (fun _ => rfl) hquote
  have hend : Tight [.leaf .lineEnd .zero .zero false] ([] ++ []) := .lexeme rfl .nil
  have hstring : Tight [stringOf inner.length, .leaf .lineEnd .zero .zero false]
      ([' ', '\''] ++ (inner ++ ['\'']) ++ ([] ++ [])) :=
    Tight.make (Tight.lexeme rfl hchars) (by simp) (fun _ => rfl) hend
  rw [List.append_nil, List.append_nil] at hstring
  exact Tight.lexeme rfl hstring

theorem tight_statementOf (inner : List Char) : Tight [statementOf inner.length] (statementText inner) := by
  have hfinish : Tight [.leaf .finish .zero .zero true] [] := .lexeme (w := []) rfl .nil
  refine Tight.wrap ?_ (by simp) (by decide)
  rw [← List.append_nil (statementText inner)]
  refine Tight.make ?_ (by simp) (fun h => absurd h (by decide)) hfinish
  exact ((tight_partsOf inner).wrap (by simp [partsOf]) (by decide)).wrap (by simp) (by decide)

/-- What is exchanged in a statement: nothing, or its name. -/
theorem exchanged_partsOf {inner : List Char} (h : Exchanged .source 0 (partsOf inner.length) (statementText inner) es ts' w') :
    es = [] ∧ w' = statementText inner ∨
      ∃ inner', isContent '\'' inner' = true ∧ es = [⟨8, 8 + inner.length, inner'⟩] ∧ w' = statementText inner' := by
  obtain ⟨word, v, v₁, us, hs, rfl, hword, h⟩ := h.of_leaf
  obtain ⟨rfl, rfl⟩ := List.append_inj hs.symm hword
  obtain ⟨w, w₁, v, v₁, es₁, es₂, us, hs, rfl, rfl, hw, h, hstring⟩ := h.of_string rfl
  obtain ⟨blank, v, v₁, us, rfl, rfl, hblank, h⟩ := h.of_leaf
  obtain ⟨rfl, rfl, rfl⟩ := h.of_nil
  obtain rfl : blank = [] := List.eq_nil_of_length_eq_zero hblank
  simp only [List.append_nil] at hs ⊢
  subst hs
  rcases hstring with ⟨rfl, rfl⟩ | ⟨gap, q, inner₀, inner', hgap, hs, hcontent, rfl, rfl⟩
  · exact Or.inl ⟨rfl, rfl⟩
  · obtain ⟨c, rfl⟩ := List.length_eq_one_iff.1 (show gap.length = 1 from hgap)
    simp only [List.singleton_append, List.cons.injEq] at hs
    obtain ⟨rfl, rfl, hs⟩ := hs
    obtain rfl := List.append_cancel_right hs
    exact Or.inr ⟨inner', hcontent, rfl, rfl⟩

theorem span_stringOf (size : Nat) : (stringOf size).facts.span.chars = size + 2 := by
  have hsize := @size_make (.node .stringLiteral) false 0 [quoteBehind ⟨1, 1, 0⟩, charsOf size, quoteBehind .zero]
  have hchars : (charsOf size).total.chars = size := (size_make _).trans (Nat.zero_add size)
  have hgap : (stringOf size).facts.gap.chars = 1 := rfl
  have hfirst : (quoteBehind ⟨1, 1, 0⟩).total.chars = 2 := rfl
  have hlast : (quoteBehind .zero).total.chars = 1 := rfl
  simp only [List.map_cons, List.map_nil, List.sum_cons, List.sum_nil, hchars, hfirst, hlast] at hsize
  change (stringOf size).facts.gap.chars + (stringOf size).facts.span.chars = _ at hsize
  omega

/-- With another name in it a statement has the same tree, with the size of that name. -/
theorem Exchanged.statementOf {inner inner' : List Char} (h : isContent '\'' inner' = true) :
    Exchanged .other 0 [statementOf inner.length] (statementText inner) [⟨8, 8 + inner.length, inner'⟩]
      [statementOf inner'.length] (statementText inner') := by
  have hend : Exchanged .source (0 + 6 + 1 + inner.length + 2) [.leaf .lineEnd .zero .zero false] [] []
      [.leaf .lineEnd .zero .zero false] [] := .lexeme (w := []) rfl .nil
  have hstring : Exchanged .source (0 + 6) [stringOf inner.length, .leaf .lineEnd .zero .zero false]
      ([' '] ++ '\'' :: (inner ++ ['\'']) ++ []) [⟨8, 8 + inner.length, inner'⟩]
      [stringOf inner'.length, .leaf .lineEnd .zero .zero false] ([' '] ++ '\'' :: (inner' ++ ['\'']) ++ []) :=
    .inside rfl rfl rfl rfl rfl (span_stringOf _) (span_stringOf _) (by decide) rfl h hend
  rw [List.append_nil, List.append_nil] at hstring
  have hparts : Exchanged .source 0 (partsOf inner.length) (statementText inner) [⟨8, 8 + inner.length, inner'⟩]
      (partsOf inner'.length) (statementText inner') := .lexeme rfl hstring
  have hfinish : Exchanged .other (0 + (statementText inner).length) [.leaf .finish .zero .zero true] [] []
      [.leaf .finish .zero .zero true] [] := .lexeme (w := []) rfl .nil
  refine Exchanged.wrap ?_ (by simp) (by decide)
  rw [← List.append_nil (statementText inner), ← List.append_nil (statementText inner'),
    ← List.append_nil [Edit.mk 8 (8 + inner.length) inner']]
  refine Exchanged.make ?_ (by simp) (by decide) hfinish
  refine Exchanged.wrap (Exchanged.wrap ?_ (by simp [partsOf]) (by decide)) (by simp) (by decide)
  exact hparts

theorem exchanged_statementOf {inner : List Char}
    (h : Exchanged .other 0 [statementOf inner.length] (statementText inner) es ts' w') :
    es = [] ∧ w' = statementText inner ∨
      ∃ inner', isContent '\'' inner' = true ∧ es = [⟨8, 8 + inner.length, inner'⟩] ∧ w' = statementText inner' := by
  obtain ⟨w, w₁, es₁, ts₁, v, v₁, es₂, us₁, hs, rfl, rfl, hprogram, hnil⟩ := h.of_make (by simp) (by decide)
  obtain ⟨rfl, rfl, rfl⟩ := hnil.of_nil
  obtain ⟨x, x₁, es₁, ts₁, y, y₁, es₂, us₁, rfl, rfl, rfl, hstatements, hfinish⟩ := hprogram.of_make (by simp) (by decide)
  obtain ⟨blank, v, v₁, us, rfl, rfl, hblank, hnil⟩ := hfinish.of_leaf
  obtain ⟨rfl, rfl, rfl⟩ := hnil.of_nil
  obtain rfl : blank = [] := List.eq_nil_of_length_eq_zero hblank
  obtain ⟨x, x₁, es₁, ts₁, y, y₁, es₂, us₁, rfl, rfl, rfl, hstatement, hnil⟩ := hstatements.of_make (by simp) (by decide)
  obtain ⟨rfl, rfl, rfl⟩ := hnil.of_nil
  obtain ⟨x, x₁, es₁, ts₁, y, y₁, es₂, us₁, rfl, rfl, rfl, himport, hnil⟩ :=
    hstatement.of_make (by simp [partsOf]) (by decide)
  obtain ⟨rfl, rfl, rfl⟩ := hnil.of_nil
  simp only [List.append_nil] at hs ⊢
  subst hs
  exact exchanged_partsOf himport

/-- It still reads the statement with another name in it. -/
theorem steady_readStatement : Steady readStatement where
  tight h := by
    obtain ⟨inner, hinner, rfl⟩ := eq_statementText h
    rw [readStatement_statementText hinner]
    exact tight_statementOf inner
  exchanged h hexchanged := by
    obtain ⟨inner, hinner, rfl⟩ := eq_statementText h
    rw [readStatement_statementText hinner] at hexchanged ⊢
    rcases exchanged_statementOf hexchanged with ⟨rfl, rfl⟩ | ⟨inner', hinner', rfl, rfl⟩
    · rw [readStatement_statementText hinner]
      exact ⟨rfl, (tight_statementOf inner).exchanged _ _⟩
    · rw [readStatement_statementText hinner']
      exact ⟨rfl, .statementOf hinner'⟩

/-! ## Trees compared -/

mutual

/-- Whether two trees are one. -/
def Tree.same : Tree → Tree → Bool
  | .mk f cs, .mk g ds => decide (f = g) && Tree.sameAll cs ds

/-- Whether two lists of trees are one. -/
def Tree.sameAll : List Tree → List Tree → Bool
  | [], [] => true
  | c :: cs, d :: ds => c.same d && Tree.sameAll cs ds
  | _, _ => false

end

mutual

theorem Tree.eq_of_same : ∀ {t u : Tree}, t.same u = true → t = u
  | .mk f cs, .mk g ds, h => by
    obtain ⟨hfacts, hchildren⟩ := Bool.and_eq_true_iff.1 (by rwa [Tree.same] at h)
    rw [of_decide_eq_true hfacts, eq_of_sameAll hchildren]

theorem Tree.eq_of_sameAll : ∀ {ts us : List Tree}, Tree.sameAll ts us = true → ts = us
  | [], [], _ => rfl
  | [], _ :: _, h => absurd h (by simp [Tree.sameAll])
  | _ :: _, [], h => absurd h (by simp [Tree.sameAll])
  | t :: ts, u :: us, h => by
    obtain ⟨hfirst, hrest⟩ := Bool.and_eq_true_iff.1 (by rwa [Tree.sameAll] at h)
    rw [eq_of_same hfirst, eq_of_sameAll hrest]

end

end BareImports.Script
