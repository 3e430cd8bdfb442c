import BareImports.Proofs.Script.Spans
import BareImports.Proofs.Text.Exchange
import Mathlib.Data.List.Forall2

/-!
# Scripts with other literals in place of some

A parser is a function from texts to trees here.

* `isContent q s` : a text may stand between two quotes;
* `Tight ts w` : trees that follow one another have the sizes of a text, and their literals hold nothing but lexemes;
* `Exchanged spot n ts w es ts' w'` : trees at an offset become others, and their text another one, when literals that name
  modules are exchanged; `Exchanged.exchange`, `exists_exchanged` : which text that is, and that there are such trees;
* `Steady P` : with such literals exchanged, a parser still reads a script, and its tree with the literals exchanged;
* `Import.Renamed`, `Exchanged.walk`, `Steady.importsOf` : the specifiers of that are those of the script, with other names.
-/

namespace BareImports.Script

open Text

/-! ## Literals -/

/-- Whether a text may stand between two quotes: neither the quote nor a line break is in it, and a backslash is before a
character that it may be before. -/
def isContent (q : Char) : List Char → Bool
  | [] => true
  | '\\' :: c :: s => !("xu01234567\n\x0d\x00".toList.contains c) && isContent q s
  | c :: s => !([q, '\\', '\n', '\x0d', '\x00'].contains c) && isContent q s

mutual

/-- Whether a tree holds nothing but lexemes. -/
def Tree.isLexical : Tree → Bool
  | .mk f children => (match f.kind with
    | .token _ => true
    | k => !k.isShown) && areLexical children

/-- Whether trees hold nothing but lexemes. -/
def areLexical : List Tree → Bool
  | [] => true
  | t :: ts => t.isLexical && areLexical ts

end

/-- Trees that follow one another have the sizes of a text, and their literals hold nothing but lexemes. -/
inductive Tight : List Tree → List Char → Prop
  /-- No trees. -/
  | nil : Tight [] []
  /-- A lexeme before others. -/
  | leaf {f : Facts} {ts : List Tree} {w v : List Char} (hw : w.length = f.gap.chars + f.span.chars) (h : Tight ts v) :
    Tight (.mk f [] :: ts) (w ++ v)
  /-- A tree of some parts before others. -/
  | node {f : Facts} {children ts : List Tree} {w v : List Char} (hw : w.length = f.gap.chars + f.span.chars)
    (hne : children ≠ []) (hlexical : (Tree.mk f children).isLiteral = true → areLexical children = true)
    (hin : Tight children w) (h : Tight ts v) : Tight (.mk f children :: ts) (w ++ v)

@[simp] theorem Tree.kind_mk (f : Facts) (children : List Tree) : (Tree.mk f children).kind = f.kind := rfl

/-! ## Exchanging literals -/

/-- What a literal may be where it stands. -/
inductive Spot
  /-- The string that names the module of a statement. -/
  | source
  /-- An argument of a call. -/
  | argument
  /-- Anything else. -/
  | other

/-- What a literal may be among the parts of a tree. -/
def Spot.inside (spot : Spot) : Kind → Spot
  | .node .importStatement | .node .exportStatement => .source
  | .node .arguments => .argument
  | k => if k.isShown then .other else spot

/-- Trees at an offset become others, and their text another one, when literals that name modules are exchanged. -/
inductive Exchanged : Spot → Nat → List Tree → List Char → List Edit → List Tree → List Char → Prop
  /-- No trees. -/
  | nil {spot : Spot} {n : Nat} : Exchanged spot n [] [] [] [] []
  /-- A lexeme stays. -/
  | leaf {spot : Spot} {n : Nat} {f : Facts} {ts ts' : List Tree} {w v v' : List Char} {es : List Edit}
    (hw : w.length = f.gap.chars + f.span.chars) (h : Exchanged spot (n + w.length) ts v es ts' v') :
    Exchanged spot n (.mk f [] :: ts) (w ++ v) es (.mk f [] :: ts') (w ++ v')
  /-- A string that names the module of a statement is exchanged between its quotes. -/
  | inside {n : Nat} {f f' : Facts} {children children' ts ts' : List Tree} {gap inner inner' v v' : List Char} {q : Char}
    {es : List Edit} (hkind : f.kind = .node .stringLiteral) (hkind' : f'.kind = f.kind) (hextra : f'.extra = f.extra)
    (hgap : f.gap.chars = gap.length) (hgap' : f'.gap.chars = gap.length) (hspan : f.span.chars = inner.length + 2)
    (hspan' : f'.span.chars = inner'.length + 2) (hq : q ∈ quotes) (hlexical : areLexical children = true)
    (hcontent : isContent q inner' = true) (h : Exchanged .source (n + gap.length + inner.length + 2) ts v es ts' v') :
    Exchanged .source n (.mk f children :: ts) (gap ++ q :: (inner ++ [q]) ++ v)
      (⟨n + gap.length + 1, n + gap.length + 1 + inner.length, inner'⟩ :: es)
      (.mk f' children' :: ts') (gap ++ q :: (inner' ++ [q]) ++ v')
  /-- A literal that is an argument is exchanged as a whole. -/
  | whole {n : Nat} {f f' : Facts} {children children' ts ts' : List Tree} {gap inner inner' v v' : List Char} {q : Char}
    {es : List Edit} (hliteral : (Tree.mk f children).isLiteral = true) (hkind' : f'.kind = .node .stringLiteral)
    (hgap : f.gap.chars = gap.length) (hgap' : f'.gap.chars = gap.length) (hspan : f.span.chars = inner.length + 2)
    (hspan' : f'.span.chars = inner'.length + 2) (hq : q ∈ literalMarks) (hlexical : areLexical children = true)
    (hcontent : isContent '\'' inner' = true) (h : Exchanged .argument (n + gap.length + inner.length + 2) ts v es ts' v') :
    Exchanged .argument n (.mk f children :: ts) (gap ++ q :: (inner ++ [q]) ++ v)
      (⟨n + gap.length, n + gap.length + inner.length + 2, '\'' :: (inner' ++ ['\''])⟩ :: es)
      (.mk f' children' :: ts') (gap ++ '\'' :: (inner' ++ ['\'']) ++ v')
  /-- A tree of some parts stays the same with its parts exchanged; a literal stays as it is. -/
  | node {spot : Spot} {n : Nat} {f f' : Facts} {children children' ts ts' : List Tree} {w w' v v' : List Char}
    {es es' : List Edit} (hw : w.length = f.gap.chars + f.span.chars) (hw' : w'.length = f'.gap.chars + f'.span.chars)
    (hkind : f'.kind = f.kind) (hextra : f'.extra = f.extra) (hne : children ≠ []) (hne' : children' ≠ [])
    (hliteral : (Tree.mk f' children').isLiteral = (Tree.mk f children).isLiteral)
    (hstays : (Tree.mk f children).isLiteral = true → es = [] ∧ w' = w ∧ f'.gap.chars = f.gap.chars)
    (hin : Exchanged (spot.inside f.kind) n children w es children' w')
    (h : Exchanged spot (n + w.length) ts v es' ts' v') :
    Exchanged spot n (.mk f children :: ts) (w ++ v) (es ++ es') (.mk f' children' :: ts') (w' ++ v')

/-- A parser whose trees have the sizes of their texts, and which still reads a script when literals that name modules are
exchanged, with its tree but for these literals. -/
structure Steady (P : List Char → Tree) : Prop where
  /-- Trees have the sizes of their texts. -/
  tight : ∀ {s}, (P s).facts.cost = 0 → Tight [P s] s
  /-- With literals exchanged, a script is read as its tree with these literals exchanged. -/
  exchanged : ∀ {s s' es t'}, (P s).facts.cost = 0 → Exchanged .other 0 [P s] s es [t'] s' →
    (P s').facts.cost = 0 ∧ Exchanged .other 0 [P s] s es [P s'] s'

variable {spot : Spot} {n : Nat} {ts ts' us us' : List Tree} {w w' v v' s : List Char} {es es' : List Edit}

/-- Trees that have the sizes of a text stay. -/
theorem Tight.exchanged (h : Tight ts w) (spot : Spot) (n : Nat) : Exchanged spot n ts w [] ts w := by
  induction h generalizing spot n with
  | nil => exact .nil
  | leaf hw h ih => exact .leaf hw (ih _ _)
  | node hw hne hlexical hin h ihin ih => exact .node hw hw rfl rfl hne hne rfl (fun _ => ⟨rfl, rfl, rfl⟩) (ihin _ _) (ih _ _)

/-- Trees are exchanged one after the other. -/
theorem Exchanged.append (h : Exchanged spot n ts w es ts' w') (h' : Exchanged spot (n + w.length) us v es' us' v') :
    Exchanged spot n (ts ++ us) (w ++ v) (es ++ es') (ts' ++ us') (w' ++ v') := by
  induction h with
  | nil => simpa using h'
  | @leaf spot n f ts ts' w v₁ v₁' es hw h ih =>
    simp only [List.cons_append, List.append_assoc]
    refine .leaf hw (ih ?_)
    rwa [Nat.add_assoc, ← List.length_append]
  | @inside n f f' children children' ts ts' gap inner inner' v₁ v₁' q es hkind hkind' hextra hgap hgap' hspan hspan' hq hlexical
      hcontent h ih =>
    rw [List.append_assoc, List.append_assoc _ _ v', List.cons_append, List.cons_append, List.cons_append]
    refine .inside hkind hkind' hextra hgap hgap' hspan hspan' hq hlexical hcontent (ih ?_)
    convert h' using 1
    simp
    omega
  | @whole n f f' children children' ts ts' gap inner inner' v₁ v₁' q es hliteral hkind' hgap hgap' hspan hspan' hq hlexical
      hcontent h ih =>
    rw [List.append_assoc, List.append_assoc _ _ v', List.cons_append, List.cons_append, List.cons_append]
    refine .whole hliteral hkind' hgap hgap' hspan hspan' hq hlexical hcontent (ih ?_)
    convert h' using 1
    simp
    omega
  | @node spot n f f' children children' ts ts' w w' v₁ v₁' es es₁ hw hw' hkind hextra hne hne' hliteral hstays hin h ihin ih =>
    rw [List.append_assoc, List.append_assoc, List.append_assoc, List.cons_append, List.cons_append]
    refine .node hw hw' hkind hextra hne hne' hliteral hstays hin (ih ?_)
    rwa [Nat.add_assoc, ← List.length_append]

/-- What is exchanged stands in the text of the trees. -/
theorem Exchanged.start_mem (h : Exchanged spot n ts w es ts' w') : ∀ e ∈ es, n ≤ e.start ∧ e.start < n + w.length := by
  induction h with
  | nil => simp
  | leaf hw h ih =>
    intro e he
    have hstart := ih e he
    rw [List.length_append]
    omega
  | inside hkind hkind' hextra hgap hgap' hspan hspan' hq hlexical hcontent h ih =>
    intro e he
    simp only [List.length_append, List.length_cons, List.length_nil]
    rcases List.mem_cons.1 he with rfl | he
    · dsimp only
      omega
    · have hstart := ih e he
      omega
  | whole hliteral hkind' hgap hgap' hspan hspan' hq hlexical hcontent h ih =>
    intro e he
    simp only [List.length_append, List.length_cons, List.length_nil]
    rcases List.mem_cons.1 he with rfl | he
    · dsimp only
      omega
    · have hstart := ih e he
      omega
  | node hw hw' hkind hextra hne hne' hliteral hstays hin h ihin ih =>
    intro e he
    rw [List.length_append]
    rcases List.mem_append.1 he with he | he
    · have hstart := ihin e he
      omega
    · have hstart := ih e he
      omega

theorem Exchanged.le_start (h : Exchanged spot n ts w es ts' w') (hes' : ∀ e ∈ es', n + w.length ≤ e.start) :
    ∀ e ∈ es ++ es', n ≤ e.start := by
  intro e he
  rcases List.mem_append.1 he with he | he
  · exact (h.start_mem e he).1
  · exact (Nat.le_add_right _ _).trans (hes' e he)

/-- The text of the trees is the text as it is with what is exchanged in it. -/
theorem Exchanged.exchange (h : Exchanged spot n ts w es ts' w') {u r : List Char} (hs : s = u ++ (w ++ r)) (hu : u.length = n)
    (hes' : ∀ e ∈ es', n + w.length ≤ e.start) : exchange s n (es ++ es') = w' ++ exchange s (n + w.length) es' := by
  induction h generalizing u r es' with
  | nil => rfl
  | @leaf spot n f ts ts' w v v' es hw h ih =>
    rw [List.length_append, ← Nat.add_assoc] at hes' ⊢
    have htail := @ih es' (u ++ w) r (by simp [hs]) (by simp [hu]) hes'
    rw [exchange_gap (hs.trans (by rw [List.append_assoc])) hu rfl (h.le_start hes'), htail, List.append_assoc]
  | @inside n f f' children children' ts ts' gap inner inner' v v' q es hkind hkind' hextra hgap hgap' hspan hspan' hq hlexical
      hcontent h ih =>
    have hlength : n + (gap ++ q :: (inner ++ [q]) ++ v).length = n + gap.length + inner.length + 2 + v.length := by
      simp
      omega
    rw [hlength] at hes' ⊢
    have htail := @ih es' (u ++ (gap ++ q :: (inner ++ [q]))) r (by simp [hs]) (by simp [hu]; omega) hes'
    have hopening := @exchange_cons s u (gap ++ [q]) (inner ++ [q] ++ v ++ r) (es ++ es') n
      ⟨n + gap.length + 1, n + gap.length + 1 + inner.length, inner'⟩ (by simp [hs]) hu (by simp; omega)
    have hclosing := @exchange_gap s (u ++ (gap ++ q :: inner)) [q] (v ++ r) (es ++ es') (n + gap.length + 1 + inner.length)
      (n + gap.length + inner.length + 2) (by simp [hs]) (by simp [hu]; omega) (by simp; omega) (h.le_start hes')
    rw [List.cons_append, hopening, hclosing, htail]
    simp
  | @whole n f f' children children' ts ts' gap inner inner' v v' q es hliteral hkind' hgap hgap' hspan hspan' hq hlexical
      hcontent h ih =>
    have hlength : n + (gap ++ q :: (inner ++ [q]) ++ v).length = n + gap.length + inner.length + 2 + v.length := by
      simp
      omega
    rw [hlength] at hes' ⊢
    have htail := @ih es' (u ++ (gap ++ q :: (inner ++ [q]))) r (by simp [hs]) (by simp [hu]; omega) hes'
    have hopening := @exchange_cons s u gap (q :: (inner ++ [q]) ++ v ++ r) (es ++ es') n
      ⟨n + gap.length, n + gap.length + inner.length + 2, '\'' :: (inner' ++ ['\''])⟩ (by simp [hs]) hu rfl
    rw [List.cons_append, hopening, htail]
    simp
  | @node spot n f f' children children' ts ts' w w' v v' es es₁ hw hw' hkind hextra hne hne' hliteral hstays hin h ihin ih =>
    rw [List.length_append, ← Nat.add_assoc] at hes' ⊢
    have htail := @ih es' (u ++ w) r (by simp [hs]) (by simp [hu]) hes'
    have hparts := @ihin (es₁ ++ es') u (v ++ r) (by simp [hs]) hu (h.le_start hes')
    rw [List.append_assoc, hparts, htail, List.append_assoc]

/-! ## Going through trees with literals exchanged -/

theorem advance_append (u r : List Char) (n : Nat) : Cursor.advance u.length ⟨n, u ++ r⟩ = ⟨n + u.length, r⟩ := by
  induction u generalizing n with
  | nil => rfl
  | cons c u ih =>
    show Cursor.advance u.length ⟨n + 1, u ++ r⟩ = _
    rw [ih, List.length_cons]
    congr 1
    omega

/-- The places in a tree that has the sizes of a text. -/
theorem Facts.behind_append {f : Facts} (hw : w.length = f.gap.chars + f.span.chars) (r : List Char) (n : Nat) :
    f.first ⟨n, w ++ r⟩ = ⟨n + f.gap.chars, w.drop f.gap.chars ++ r⟩ ∧
      (w.drop f.gap.chars ++ r).take f.span.chars = w.drop f.gap.chars ∧ f.behind ⟨n, w ++ r⟩ = ⟨n + w.length, r⟩ := by
  have hgap : (w.take f.gap.chars).length = f.gap.chars := by
    rw [List.length_take]
    omega
  have hspan : (w.drop f.gap.chars).length = f.span.chars := by
    rw [List.length_drop]
    omega
  have hfirst : f.first ⟨n, w ++ r⟩ = ⟨n + f.gap.chars, w.drop f.gap.chars ++ r⟩ := by
    have hadvance := advance_append (w.take f.gap.chars) (w.drop f.gap.chars ++ r) n
    rwa [← List.append_assoc, List.take_append_drop, hgap] at hadvance
  refine ⟨hfirst, ?_, ?_⟩
  · rw [← hspan, List.take_left]
  · have hadvance := advance_append (w.drop f.gap.chars) r (n + f.gap.chars)
    rw [hspan] at hadvance
    unfold Facts.behind
    rw [hfirst, hadvance, hw, Nat.add_assoc]

/-- Behind trees that have the sizes of a text is the place behind the text. -/
theorem Tight.cursor (h : Tight ts w) (wanted : Wanted) (n : Nat) (r : List Char) :
    (walkAll wanted ⟨n, w ++ r⟩ ts).cursor = ⟨n + w.length, r⟩ := by
  induction h generalizing wanted n r with
  | nil => rfl
  | @leaf f ts w v hw h ih =>
    have hbehind := (Facts.behind_append hw (v ++ r) n).2.2
    have htree : ∀ wanted, (Tree.walk wanted ⟨n, w ++ (v ++ r)⟩ (.mk f [])).cursor = ⟨n + w.length, v ++ r⟩ := by
      intro wanted
      unfold Tree.walk
      split
      · exact hbehind
      · exact hbehind
      · simpa using hbehind
      · exact hbehind
    unfold walkAll
    rw [List.append_assoc, List.length_append, ← Nat.add_assoc, ← ih, ← htree wanted]
  | @node f children ts w v hw hne hlexical hin h ihin ih =>
    have hbehind := (Facts.behind_append hw (v ++ r) n).2.2
    have hchildren : children.isEmpty = false := List.isEmpty_eq_false_iff.2 hne
    have htree : (Tree.walk wanted ⟨n, w ++ (v ++ r)⟩ (.mk f children)).cursor = ⟨n + w.length, v ++ r⟩ := by
      unfold Tree.walk
      split
      · exact hbehind
      · exact hbehind
      · dsimp only
        split
        · exact hbehind
        · exact ihin _ _ _
      · rw [hchildren]
        exact ihin _ _ _
    unfold walkAll
    rw [List.append_assoc, List.length_append, ← Nat.add_assoc, ← ih, ← htree]

/-- Nothing is looked for inside of lexemes and of parts that are none of their own. -/
theorem inside_of_hidden {k : Kind} (hk : (match k with
    | .token _ => true
    | k => !k.isShown) = true) (children : List Tree) : Wanted.inside k children = .nothing := by
  unfold Wanted.inside
  split
  · exact absurd hk (by decide)
  · exact absurd hk (by decide)
  · exact absurd hk (by decide)
  · rfl

mutual

/-- Nothing is found in a tree that holds nothing but lexemes. -/
theorem walk_lexical {t : Tree} (h : t.isLexical = true) (c : Cursor) :
    (t.walk .nothing c).found = [] ∧ (t.walk .nothing c).wanted = .nothing := by
  cases t with
  | mk f children =>
    rw [Tree.isLexical, Bool.and_eq_true] at h
    have hall := walkAll_lexical h.2 c
    rw [Tree.walk, Wanted.meet]
    dsimp only
    rw [inside_of_hidden h.1 children]
    split
    · exact ⟨rfl, rfl⟩
    · exact ⟨hall.1, rfl⟩

/-- Nothing is found in trees that hold nothing but lexemes. -/
theorem walkAll_lexical {ts : List Tree} (h : areLexical ts = true) (c : Cursor) :
    (walkAll .nothing c ts).found = [] ∧ (walkAll .nothing c ts).wanted = .nothing := by
  cases ts with
  | nil => exact ⟨rfl, rfl⟩
  | cons t ts =>
    rw [areLexical, Bool.and_eq_true] at h
    obtain ⟨hfound, hwanted⟩ := walk_lexical h.1 c
    rw [walkAll]
    dsimp only
    rw [hfound, hwanted]
    exact walkAll_lexical h.2 _

end

/-- What is looked for in a place where a literal may name a module. -/
def Wanted.Fits : Wanted → Spot → Prop
  | .source, spot => spot = .source
  | .argument, spot => spot = .argument
  | _, _ => True

theorem fits_inside (f : Facts) (children : List Tree) (spot : Spot) :
    (Wanted.inside f.kind children).Fits (spot.inside f.kind) := by
  unfold Wanted.inside
  split
  · next hk => rw [hk]; rfl
  · next hk => rw [hk]; rfl
  · split <;> exact trivial
  · exact trivial

/-- All that a tree may be for what is looked for. -/
inductive Wanted.Meets (wanted : Wanted) (f : Facts) (children : List Tree) : Meeting → Prop
  /-- The string of a statement. -/
  | source (hw : wanted = .source) (hk : f.kind = .node .stringLiteral) (hextra : f.extra = false) :
    Meets wanted f children .source
  /-- What holds the string of a statement. -/
  | clause (hw : wanted = .source) (hk : f.kind = .node .fromClause) : Meets wanted f children (.through .source none)
  /-- The arguments of a call. -/
  | arguments (hw : wanted = .arguments) (hk : f.kind = .node .arguments) :
    Meets wanted f children (.through .argument (some .nothing))
  /-- A mark around arguments. -/
  | mark (hw : wanted = .argument) : Meets wanted f children .mark
  /-- An argument. -/
  | argument (hw : wanted = .argument) : Meets wanted f children .argument
  /-- What holds an argument. -/
  | holder (hw : wanted = .argument) (hk : f.kind.isShown = false) : Meets wanted f children (.through .argument none)
  /-- Anything else. -/
  | other (hw : wanted ≠ .argument) : Meets wanted f children (.through (.inside f.kind children) (some wanted))

theorem Wanted.meets (wanted : Wanted) (f : Facts) (children : List Tree) : wanted.Meets f children (wanted.meet f children) := by
  unfold Wanted.meet
  dsimp only
  split
  · exact .other (by simp)
  · split
    · next hf =>
      rw [Bool.and_eq_true, beq_iff_eq, Bool.not_eq_true'] at hf
      exact .source rfl hf.1 hf.2
    · split
      · next hk => exact .clause rfl (beq_iff_eq.1 hk)
      · exact .other (by simp)
  · split
    · next hk => exact .arguments rfl (beq_iff_eq.1 hk)
    · exact .other (by simp)
  · split
    · exact .mark rfl
    · split
      · exact .argument rfl
      · next hk => exact .holder rfl (Bool.not_eq_true _ ▸ hk)

theorem inside_of_not_shown {k : Kind} (hk : k.isShown = false) : spot.inside k = spot := by
  unfold Spot.inside
  split
  · exact absurd hk (by decide)
  · exact absurd hk (by decide)
  · exact absurd hk (by decide)
  · rw [if_neg (by simp [hk])]

/-- What is looked for inside of a tree fits there, and so does what is looked for behind it. -/
theorem Wanted.Fits.through {wanted inner : Wanted} {after : Option Wanted} {f : Facts} {children : List Tree}
    (h : wanted.Fits spot) (hm : wanted.Meets f children (.through inner after)) : inner.Fits (spot.inside f.kind) ∧
      (∀ x, after = some x → x.Fits spot) ∧ (after = none → inner.Fits spot ∧ spot.inside f.kind = spot) := by
  cases hm with
  | clause hw hk =>
    subst hw
    have hinside : spot.inside f.kind = spot := inside_of_not_shown (hk ▸ rfl)
    exact ⟨hinside.symm ▸ h, by simp, fun _ => ⟨h, hinside⟩⟩
  | arguments hw hk => exact ⟨hk ▸ rfl, fun x hx => by rw [← Option.some.inj hx]; exact trivial, by simp⟩
  | holder hw hk =>
    subst hw
    have hinside : spot.inside f.kind = spot := inside_of_not_shown hk
    exact ⟨hinside.symm ▸ h, by simp, fun _ => ⟨h, hinside⟩⟩
  | other hw => exact ⟨fits_inside f children spot, fun x hx => by rwa [← Option.some.inj hx], by simp⟩

mutual

/-- What is looked for behind a tree fits there. -/
theorem Wanted.Fits.walk {wanted : Wanted} (h : wanted.Fits spot) (c : Cursor) (t : Tree) : (t.walk wanted c).wanted.Fits spot := by
  cases t with
  | mk f children =>
    unfold Tree.walk
    split
    · exact trivial
    · exact h
    · dsimp only
      split <;> exact trivial
    · next inner after hm =>
      obtain ⟨hinner, hsome, hnone⟩ := h.through (hm ▸ wanted.meets f children)
      cases after with
      | some x => split <;> exact hsome x rfl
      | none =>
        obtain ⟨hspot, hinside⟩ := hnone rfl
        split
        · exact hspot
        · exact hspot.walkAll c children

/-- What is looked for behind trees fits there. -/
theorem Wanted.Fits.walkAll {wanted : Wanted} (h : wanted.Fits spot) (c : Cursor) (ts : List Tree) :
    (walkAll wanted c ts).wanted.Fits spot := by
  cases ts with
  | nil => exact h
  | cons t ts =>
    unfold BareImports.Script.walkAll
    exact (h.walk c t).walkAll _ ts

end

/-! ## Exchanging the literals of specifiers -/

variable {τ : Import → Option String}

/-- What is exchanged when a named specifier gets another name: the text of a string, or a whole literal. -/
def Import.edit? (τ : Import → Option String) (i : Import) : Option Edit :=
  match i.name, τ i with
  | some _, some target => some ⟨i.start, i.stop, if i.dynamic then '\'' :: (target.toList ++ ['\'']) else target.toList⟩
  | _, _ => none

/-- A name may stand in the literal of a specifier: between the quotes of a string, or between single ones. -/
def Import.Admits (s : List Char) (i : Import) (name : String) : Prop :=
  ∀ q, (if i.dynamic then q = '\'' else s[i.start - 1]? = some q) → isContent q name.toList = true

/-- A literal is a string or a template. -/
theorem kind_of_literal {f : Facts} {children : List Tree} (h : (Tree.mk f children).isLiteral = true) :
    f.kind = .node .stringLiteral ∨ f.kind = .node .template := by
  simp only [Tree.isLiteral, Tree.kind_mk, Bool.or_eq_true, Bool.and_eq_true, beq_iff_eq] at h
  exact h.imp id And.left

/-- Nothing is looked for inside of a literal. -/
theorem inside_of_literal {f : Facts} {children : List Tree} (h : (Tree.mk f children).isLiteral = true) :
    Wanted.inside f.kind children = .nothing := by
  rcases kind_of_literal h with hk | hk <;> rw [hk] <;> rfl

theorem through_of_literal {wanted inner : Wanted} {after : Option Wanted} {f : Facts} {children : List Tree}
    (h : (Tree.mk f children).isLiteral = true) (hm : wanted.Meets f children (.through inner after)) : inner = .nothing := by
  cases hm with
  | clause _ hk => rcases kind_of_literal h with hk' | hk' <;> rw [hk'] at hk <;> exact absurd hk (by decide)
  | arguments _ hk => rcases kind_of_literal h with hk' | hk' <;> rw [hk'] at hk <;> exact absurd hk (by decide)
  | holder _ hk => rcases kind_of_literal h with hk' | hk' <;> rw [hk'] at hk <;> exact absurd hk (by decide)
  | other => exact inside_of_literal h

theorem edit?_eq_none {i : Import} (h : i.name = none) : i.edit? τ = none := by
  unfold Import.edit?
  rw [h]

/-- The specifier of a string that stands in a text. -/
theorem staticImport?_append {f : Facts} (hw : w.length = f.gap.chars + f.span.chars) (n : Nat) (r : List Char) :
    staticImport? (f.first ⟨n, w ++ r⟩) f.span.chars = (unquoted? quotes (w.drop f.gap.chars)).map fun inner =>
      ⟨some (String.ofList inner), n + f.gap.chars + 1, n + f.gap.chars + 1 + inner.length, false⟩ := by
  obtain ⟨hfirst, htake, -⟩ := Facts.behind_append hw r n
  unfold staticImport?
  rw [hfirst]
  dsimp only
  rw [htake]

/-- The specifier of an argument that stands in a text. -/
theorem dynamicImport_append {f : Facts} (hw : w.length = f.gap.chars + f.span.chars) (n : Nat) (r : List Char) (literal : Bool) :
    dynamicImport (f.first ⟨n, w ++ r⟩) f.span.chars literal =
      ⟨(if literal then unquoted? literalMarks (w.drop f.gap.chars) else none).map String.ofList, n + f.gap.chars,
        n + f.gap.chars + f.span.chars, true⟩ := by
  obtain ⟨hfirst, htake, -⟩ := Facts.behind_append hw r n
  unfold dynamicImport
  rw [hfirst]
  dsimp only
  rw [htake, List.length_drop, hw, Nat.add_sub_cancel_left]

/-- A gap, and a literal between two marks. -/
theorem exists_gap {f : Facts} {inner : List Char} {q : Char} (hw : w.length = f.gap.chars + f.span.chars)
    (hlit : w.drop f.gap.chars = q :: (inner ++ [q])) :
    ∃ gap, w = gap ++ q :: (inner ++ [q]) ∧ f.gap.chars = gap.length ∧ f.span.chars = inner.length + 2 := by
  have hspan := congrArg List.length hlit
  simp at hspan
  exact ⟨w.take f.gap.chars, by rw [← hlit, List.take_append_drop], by rw [List.length_take]; omega, by omega⟩

/-- The string of a statement is exchanged when it gets another name. -/
theorem exists_exchanged_source {f : Facts} {children : List Tree} {r : List Char} {i : Import}
    (htight : Tight [.mk f children] w) (hw : w.length = f.gap.chars + f.span.chars) (hin : Cursor.In ⟨n, w ++ r⟩ s)
    (hlexical : areLexical children = true) (hk : f.kind = .node .stringLiteral)
    (hi : staticImport? (f.first ⟨n, w ++ r⟩) f.span.chars = some i) (hadmits : ∀ name ∈ τ i, i.Admits s name) :
    ∃ t' w', Exchanged .source n [.mk f children] w (i.edit? τ).toList [t'] w' := by
  rw [staticImport?_append hw] at hi
  obtain ⟨inner, hinner, rfl⟩ := Option.map_eq_some_iff.1 hi
  obtain ⟨q, hq, hlit⟩ := unquoted?_eq_some hinner
  obtain ⟨gap, rfl, hgap, hspan⟩ := exists_gap hw hlit
  rw [hgap] at hadmits ⊢
  unfold Import.edit?
  rcases hτ : τ ⟨some (String.ofList inner), n + gap.length + 1, n + gap.length + 1 + inner.length, false⟩ with _ | name
  · exact ⟨_, _, htight.exchanged _ _⟩
  · have hquote : s[n + gap.length]? = some q := by
      have hrest := congrArg (·[gap.length]?) hin.rest
      simpa using hrest.symm
    have hcontent := hadmits name hτ q hquote
    have hexchanged := @Exchanged.inside n f { f with span := ⟨name.toList.length + 2, 0, 0⟩ } children children [] []
      gap inner name.toList [] [] q [] hk rfl rfl hgap hgap hspan rfl hq hlexical hcontent .nil
    exact ⟨_, _, by simpa using hexchanged⟩

/-- A literal that is an argument is exchanged when it gets another name. -/
theorem exists_exchanged_argument {f : Facts} {children : List Tree} {r : List Char}
    (htight : Tight [.mk f children] w) (hw : w.length = f.gap.chars + f.span.chars)
    (hlexical : (Tree.mk f children).isLiteral = true → areLexical children = true)
    (hadmits : ∀ name ∈ τ (dynamicImport (f.first ⟨n, w ++ r⟩) f.span.chars (Tree.mk f children).isLiteral),
      (dynamicImport (f.first ⟨n, w ++ r⟩) f.span.chars (Tree.mk f children).isLiteral).Admits s name) :
    ∃ t' w', Exchanged .argument n [.mk f children] w
      ((dynamicImport (f.first ⟨n, w ++ r⟩) f.span.chars (Tree.mk f children).isLiteral).edit? τ).toList [t'] w' := by
  rw [dynamicImport_append hw] at hadmits ⊢
  rcases hname : (if (Tree.mk f children).isLiteral then unquoted? literalMarks (w.drop f.gap.chars) else none) with _ | inner
  · rw [edit?_eq_none rfl]
    exact ⟨_, _, htight.exchanged _ _⟩
  · obtain ⟨hliteral, hinner⟩ : (Tree.mk f children).isLiteral = true ∧
        unquoted? literalMarks (w.drop f.gap.chars) = some inner := by
      split at hname
      · next hl => exact ⟨hl, hname⟩
      · exact absurd hname (by simp)
    obtain ⟨q, hq, hlit⟩ := unquoted?_eq_some hinner
    rw [hname] at hadmits
    obtain ⟨gap, rfl, hgap, hspan⟩ := exists_gap hw hlit
    rw [hgap, hspan] at hadmits ⊢
    unfold Import.edit?
    dsimp only [Option.map_some] at hadmits ⊢
    rcases hτ : τ ⟨some (String.ofList inner), n + gap.length, n + gap.length + (inner.length + 2), true⟩ with _ | name
    · exact ⟨_, _, htight.exchanged _ _⟩
    · have hcontent := hadmits name hτ '\'' rfl
      have hexchanged := @Exchanged.whole n f { f with kind := .node .stringLiteral, span := ⟨name.toList.length + 2, 0, 0⟩ }
        children children [] [] gap inner name.toList [] [] q [] hliteral rfl hgap hgap hspan rfl hq (hlexical hliteral)
        hcontent .nil
      exact ⟨_, _, by simpa [Nat.add_assoc] using hexchanged⟩

theorem Exchanged.length (h : Exchanged spot n ts w es ts' w') : ts'.length = ts.length := by
  induction h with
  | nil => rfl
  | leaf _ _ ih => exact congrArg (· + 1) ih
  | inside _ _ _ _ _ _ _ _ _ _ _ ih => exact congrArg (· + 1) ih
  | whole _ _ _ _ _ _ _ _ _ _ ih => exact congrArg (· + 1) ih
  | node _ _ _ _ _ _ _ _ _ _ _ ih => exact congrArg (· + 1) ih

/-- Substitutions stay. -/
theorem Exchanged.hasPartIn (h : Exchanged spot n ts w es ts' w') :
    hasPartIn .templateSubstitution ts' = hasPartIn .templateSubstitution ts := by
  induction h with
  | nil => rfl
  | leaf _ _ ih => simp only [BareImports.Script.hasPartIn, ih]
  | inside hkind hkind' _ _ _ _ _ _ _ _ _ ih =>
    rw [hkind] at hkind'
    simp [BareImports.Script.hasPartIn, Tree.isShown, hkind, hkind', ih, Kind.isShown, Node.isShown,
      Node.isRepetition]
  | whole hliteral hkind' _ _ _ _ _ _ _ _ ih =>
    have hstring : (Kind.node .stringLiteral == Kind.node .templateSubstitution) = false := by decide
    have htemplate : (Kind.node .template == Kind.node .templateSubstitution) = false := by decide
    rcases kind_of_literal hliteral with hkind | hkind <;>
      simp [BareImports.Script.hasPartIn, Tree.isShown, hkind, hkind', ih, hstring, htemplate, Kind.isShown,
        Node.isShown, Node.isRepetition]
  | node _ _ hkind _ _ _ _ _ _ _ ihin ih =>
    simp only [BareImports.Script.hasPartIn, Tree.isShown, Tree.kind_mk, Tree.hasPart, hkind, ihin, ih]

/-- A tree is exchanged with its parts. -/
theorem exists_exchanged_parts {f : Facts} {children children' : List Tree} (htight : Tight [.mk f children] w)
    (hw : w.length = f.gap.chars + f.span.chars) (hne : children ≠ []) (hstays : (Tree.mk f children).isLiteral = true → es = [])
    (h : Exchanged (spot.inside f.kind) n children w es children' w') :
    ∃ t' w', Exchanged spot n [.mk f children] w es [t'] w' := by
  by_cases hliteral : (Tree.mk f children).isLiteral = true
  · rw [hstays hliteral]
    exact ⟨_, _, htight.exchanged _ _⟩
  · have hne' : children' ≠ [] := fun hnil => hne (List.length_eq_zero_iff.1 (by rw [← h.length, hnil]; rfl))
    have hsame : (Tree.mk { f with gap := .zero, span := ⟨w'.length, 0, 0⟩ } children').isLiteral = (Tree.mk f children).isLiteral := by
      simp only [Tree.isLiteral, Tree.kind_mk, Tree.hasPart, h.hasPartIn]
    have hexchanged := @Exchanged.node spot n f { f with gap := .zero, span := ⟨w'.length, 0, 0⟩ } children children' [] [] w w' []
      [] es [] hw (Nat.zero_add _).symm rfl rfl hne hne' hsame (fun hl => absurd hl hliteral) h .nil
    exact ⟨_, _, by simpa using hexchanged⟩

/-- The literals of the specifiers that are found at a tree are exchanged when they get other names. -/
theorem exists_exchanged_tree {f : Facts} {children : List Tree} {r : List Char} {wanted : Wanted}
    (htight : Tight [.mk f children] w) (hw : w.length = f.gap.chars + f.span.chars)
    (hlexical : (Tree.mk f children).isLiteral = true → areLexical children = true) (hfits : wanted.Fits spot)
    (hin : Cursor.In ⟨n, w ++ r⟩ s)
    (hparts : children ≠ [] → ∀ wanted : Wanted, wanted.Fits (spot.inside f.kind) →
      (∀ i ∈ (walkAll wanted ⟨n, w ++ r⟩ children).found, ∀ name ∈ τ i, i.Admits s name) →
      ∃ children' w', Exchanged (spot.inside f.kind) n children w
        ((walkAll wanted ⟨n, w ++ r⟩ children).found.filterMap (Import.edit? τ)) children' w')
    (hadmits : ∀ i ∈ (Tree.walk wanted ⟨n, w ++ r⟩ (.mk f children)).found, ∀ name ∈ τ i, i.Admits s name) :
    ∃ t' w', Exchanged spot n [.mk f children] w
      ((Tree.walk wanted ⟨n, w ++ r⟩ (.mk f children)).found.filterMap (Import.edit? τ)) [t'] w' := by
  have hstay : ∃ t' w', Exchanged spot n [.mk f children] w [] [t'] w' := ⟨_, _, htight.exchanged _ _⟩
  have hm := wanted.meets f children
  have hone : ∀ i : Import, [i].filterMap (Import.edit? τ) = (i.edit? τ).toList := fun i => by
    cases h : i.edit? τ <;> simp [h]
  rw [Tree.walk] at hadmits ⊢
  generalize wanted.meet f children = m at hm hadmits ⊢
  cases m with
  | source =>
    cases hm with
    | source hwanted hk hextra =>
      subst hwanted
      obtain rfl : spot = .source := hfits
      dsimp only at hadmits ⊢
      rcases hi : staticImport? (f.first ⟨n, w ++ r⟩) f.span.chars with _ | i
      · exact hstay
      · have hlex := hlexical (by simp [Tree.isLiteral, hk])
        rw [Option.toList_some, hone]
        exact exists_exchanged_source htight hw hin hlex hk hi (hadmits i (by simp [hi]))
  | mark => exact hstay
  | argument =>
    cases hm with
    | argument hwanted =>
      subst hwanted
      obtain rfl : spot = .argument := hfits
      dsimp only at hadmits ⊢
      split at hadmits
      · next hname =>
        rw [if_pos hname, hone]
        exact exists_exchanged_argument htight hw hlexical (hadmits _ (List.mem_singleton_self _))
      · next hname =>
        rw [if_neg hname]
        simp only [Bool.or_eq_true, not_or, Bool.not_eq_true, Option.isSome_eq_false_iff, Option.isNone_iff_eq_none,
          List.isEmpty_eq_false_iff] at hname
        obtain ⟨hname, hne⟩ := hname
        have hfound := hparts hne _ (fits_inside f children _) fun i hi => hadmits i (List.mem_cons_of_mem _ hi)
        obtain ⟨children', w', hchildren⟩ := hfound
        dsimp only
        rw [List.filterMap_cons_none (edit?_eq_none hname)]
        refine exists_exchanged_parts htight hw hne (fun hl => ?_) hchildren
        rw [inside_of_literal hl, (walkAll_lexical (hlexical hl) _).1]
        rfl
  | through inner after =>
    dsimp only at hadmits ⊢
    split at hadmits
    · next hempty =>
      rw [if_pos hempty]
      exact hstay
    · next hempty =>
      rw [if_neg hempty]
      have hne : children ≠ [] := by simpa using hempty
      obtain ⟨children', w', hchildren⟩ := hparts hne inner (hfits.through hm).1 hadmits
      refine exists_exchanged_parts htight hw hne (fun hl => ?_) hchildren
      rw [through_of_literal hl hm, (walkAll_lexical (hlexical hl) _).1]
      rfl

/-- A tree is gone through, and then those behind it. -/
theorem Tight.walkAll_cons {t : Tree} (h : Tight [t] w) (ts : List Tree) (wanted : Wanted) (n : Nat) (v r : List Char) :
    (walkAll wanted ⟨n, w ++ v ++ r⟩ (t :: ts)).found = (t.walk wanted ⟨n, w ++ (v ++ r)⟩).found ++
        (walkAll (t.walk wanted ⟨n, w ++ (v ++ r)⟩).wanted ⟨n + w.length, v ++ r⟩ ts).found ∧
      (walkAll wanted ⟨n, w ++ v ++ r⟩ (t :: ts)).wanted =
        (walkAll (t.walk wanted ⟨n, w ++ (v ++ r)⟩).wanted ⟨n + w.length, v ++ r⟩ ts).wanted := by
  have hcursor : (t.walk wanted ⟨n, w ++ (v ++ r)⟩).cursor = ⟨n + w.length, v ++ r⟩ := h.cursor wanted n (v ++ r)
  rw [List.append_assoc, walkAll, hcursor]
  exact ⟨rfl, rfl⟩

theorem exists_exchanged_cons {t : Tree} {wanted : Wanted} {r : List Char} (htight : Tight [t] w) (hfits : wanted.Fits spot)
    (hin : Cursor.In ⟨n, w ++ v ++ r⟩ s)
    (hadmits : ∀ i ∈ (walkAll wanted ⟨n, w ++ v ++ r⟩ (t :: ts)).found, ∀ name ∈ τ i, i.Admits s name)
    (htree : (∀ i ∈ (t.walk wanted ⟨n, w ++ (v ++ r)⟩).found, ∀ name ∈ τ i, i.Admits s name) →
      ∃ t' w', Exchanged spot n [t] w ((t.walk wanted ⟨n, w ++ (v ++ r)⟩).found.filterMap (Import.edit? τ)) [t'] w')
    (hrest : ∀ wanted : Wanted, wanted.Fits spot → Cursor.In ⟨n + w.length, v ++ r⟩ s →
      (∀ i ∈ (walkAll wanted ⟨n + w.length, v ++ r⟩ ts).found, ∀ name ∈ τ i, i.Admits s name) →
      ∃ ts' v', Exchanged spot (n + w.length) ts v
        ((walkAll wanted ⟨n + w.length, v ++ r⟩ ts).found.filterMap (Import.edit? τ)) ts' v') :
    ∃ ts' w', Exchanged spot n (t :: ts) (w ++ v)
      ((walkAll wanted ⟨n, w ++ v ++ r⟩ (t :: ts)).found.filterMap (Import.edit? τ)) ts' w' := by
  have hbehind : Cursor.In ⟨n + w.length, v ++ r⟩ s := by
    rw [List.append_assoc] at hin
    exact (htight.cursor wanted n (v ++ r)) ▸ (walk_sound wanted hin t).cursor
  rw [(htight.walkAll_cons ts wanted n v r).1] at hadmits ⊢
  rw [List.filterMap_append]
  obtain ⟨t', w', ht⟩ := htree fun i hi => hadmits i (List.mem_append_left _ hi)
  obtain ⟨ts', v', hts⟩ := hrest _ (hfits.walk _ t) hbehind fun i hi => hadmits i (List.mem_append_right _ hi)
  exact ⟨_, _, ht.append hts⟩

/-- The literals of the specifiers that are found in trees are exchanged when they get other names. -/
theorem exists_exchanged (h : Tight ts w) {wanted : Wanted} {r : List Char} (hfits : wanted.Fits spot)
    (hin : Cursor.In ⟨n, w ++ r⟩ s)
    (hadmits : ∀ i ∈ (walkAll wanted ⟨n, w ++ r⟩ ts).found, ∀ name ∈ τ i, i.Admits s name) :
    ∃ ts' w', Exchanged spot n ts w ((walkAll wanted ⟨n, w ++ r⟩ ts).found.filterMap (Import.edit? τ)) ts' w' := by
  induction h generalizing spot wanted n r with
  | nil => exact ⟨_, _, .nil⟩
  | @leaf f ts w v hw h ih =>
    have htight : Tight [.mk f []] w := by simpa using Tight.leaf hw .nil
    refine exists_exchanged_cons htight hfits hin hadmits (fun htree => ?_) fun wanted hfits hin hrest => ih hfits hin hrest
    rw [List.append_assoc] at hin
    exact exists_exchanged_tree htight hw (fun _ => rfl) hfits hin (fun hne => absurd rfl hne) htree
  | @node f children ts w v hw hne hlexical hchildren h ihin ih =>
    have htight : Tight [.mk f children] w := by simpa using Tight.node hw hne hlexical hchildren .nil
    refine exists_exchanged_cons htight hfits hin hadmits (fun htree => ?_) fun wanted hfits hin hrest => ih hfits hin hrest
    rw [List.append_assoc] at hin
    exact exists_exchanged_tree htight hw hlexical hfits hin (fun _ wanted hfits hparts => ihin hfits hin hparts) htree

/-! ## The specifiers of trees with literals exchanged -/

/-- A specifier that has got another name, or has kept its own. -/
structure Import.Renamed (τ : Import → Option String) (i i' : Import) : Prop where
  /-- It is that of a statement or of a call as before. -/
  dynamic : i'.dynamic = i.dynamic
  /-- Its name. -/
  name : i'.name = i.name.map fun name => (τ i).getD name

/-- A specifier whose literal is not exchanged keeps its name. -/
theorem Import.Renamed.of_none {i i' : Import} (h : i.edit? τ = none) (hdynamic : i'.dynamic = i.dynamic)
    (hname : i'.name = i.name) : i.Renamed τ i' := by
  refine ⟨hdynamic, hname.trans ?_⟩
  unfold Import.edit? at h
  split at h
  · exact absurd h (by simp)
  · next hnone =>
    cases hi : i.name with
    | none => rfl
    | some name =>
      cases hτ : τ i with
      | none => rfl
      | some target => exact absurd hτ (hnone _ _ hi)

/-- The string of a statement that is not exchanged. -/
theorem renamed_static {f f' : Facts} {r r' : List Char} {n' : Nat} (hw : w.length = f.gap.chars + f.span.chars)
    (hw' : w.length = f'.gap.chars + f'.span.chars) (hgap : f'.gap.chars = f.gap.chars)
    (h : (staticImport? (f.first ⟨n, w ++ r⟩) f.span.chars).toList.filterMap (Import.edit? τ) = []) :
    List.Forall₂ (Import.Renamed τ) (staticImport? (f.first ⟨n, w ++ r⟩) f.span.chars).toList
      (staticImport? (f'.first ⟨n', w ++ r'⟩) f'.span.chars).toList := by
  rw [staticImport?_append hw] at h ⊢
  rw [staticImport?_append hw', hgap]
  cases hinner : unquoted? quotes (w.drop f.gap.chars) with
  | none => exact .nil
  | some inner =>
    rw [hinner] at h
    exact .cons (.of_none (by simpa using h) rfl rfl) .nil

/-- An argument that is not exchanged. -/
theorem renamed_dynamic {f f' : Facts} {r r' : List Char} {n' : Nat} {literal : Bool}
    (hw : w.length = f.gap.chars + f.span.chars) (hw' : w'.length = f'.gap.chars + f'.span.chars)
    (hsame : literal = true → w' = w ∧ f'.gap.chars = f.gap.chars)
    (h : (dynamicImport (f.first ⟨n, w ++ r⟩) f.span.chars literal).edit? τ = none) :
    (dynamicImport (f.first ⟨n, w ++ r⟩) f.span.chars literal).Renamed τ
        (dynamicImport (f'.first ⟨n', w' ++ r'⟩) f'.span.chars literal) ∧
      (dynamicImport (f'.first ⟨n', w' ++ r'⟩) f'.span.chars literal).name =
        (dynamicImport (f.first ⟨n, w ++ r⟩) f.span.chars literal).name := by
  have hname : (dynamicImport (f'.first ⟨n', w' ++ r'⟩) f'.span.chars literal).name =
      (dynamicImport (f.first ⟨n, w ++ r⟩) f.span.chars literal).name := by
    rw [dynamicImport_append hw, dynamicImport_append hw']
    cases literal with
    | false => rfl
    | true =>
      obtain ⟨rfl, hgap⟩ := hsame rfl
      rw [hgap]
  exact ⟨.of_none h rfl hname, hname⟩

/-- What a tree is does not change with its literals. -/
theorem meet_congr {wanted : Wanted} {f f' : Facts} {children children' : List Tree} (hkind : f'.kind = f.kind)
    (hextra : f'.extra = f.extra) (hinside : Wanted.inside f'.kind children' = Wanted.inside f.kind children) :
    wanted.meet f' children' = wanted.meet f children := by
  unfold Wanted.meet
  rw [hinside, hkind, hextra]

/-- The callees of imports stay. -/
theorem Exchanged.any_callee (h : Exchanged spot n ts w es ts' w') :
    ts'.any (·.kind == .node .importCallee) = ts.any (·.kind == .node .importCallee) := by
  have hstring : (Kind.node .stringLiteral == Kind.node .importCallee) = false := by decide
  have htemplate : (Kind.node .template == Kind.node .importCallee) = false := by decide
  induction h with
  | nil => rfl
  | leaf _ _ ih => simp only [List.any_cons, ih]
  | inside hkind hkind' _ _ _ _ _ _ _ _ _ ih =>
    simp only [List.any_cons, Tree.kind_mk, hkind', ih]
  | whole hliteral hkind' _ _ _ _ _ _ _ _ ih =>
    rcases kind_of_literal hliteral with hkind | hkind <;>
      simp only [List.any_cons, Tree.kind_mk, hkind, hkind', ih, hstring, htemplate]
  | node _ _ hkind _ _ _ _ _ _ _ _ ih => simp only [List.any_cons, Tree.kind_mk, hkind, ih]

theorem Exchanged.inside_eq (h : Exchanged spot n ts w es ts' w') (k : Kind) : Wanted.inside k ts' = Wanted.inside k ts := by
  unfold Wanted.inside
  rw [h.any_callee]

/-- What going through a tree with literals exchanged comes to. -/
structure Walk.Follows (τ : Import → Option String) (x x' : Walk) : Prop where
  /-- The same specifiers, renamed. -/
  found : List.Forall₂ (Import.Renamed τ) x.found x'.found
  /-- The same is looked for behind it. -/
  wanted : x'.wanted = x.wanted

/-- A lexeme that stays. -/
theorem follows_leaf {f : Facts} {wanted : Wanted} {r r' : List Char} {n' : Nat} (hw : w.length = f.gap.chars + f.span.chars)
    (h : (Tree.walk wanted ⟨n, w ++ r⟩ (.mk f [])).found.filterMap (Import.edit? τ) = []) :
    Walk.Follows τ (Tree.walk wanted ⟨n, w ++ r⟩ (.mk f [])) (Tree.walk wanted ⟨n', w ++ r'⟩ (.mk f [])) ∧
      (Tree.walk wanted ⟨n', w ++ r'⟩ (.mk f [])).cursor = ⟨n' + w.length, r'⟩ := by
  have hbehind := (Facts.behind_append hw r' n').2.2
  rw [Tree.walk] at h ⊢
  rw [Tree.walk]
  generalize wanted.meet f [] = m at h ⊢
  cases m with
  | source => exact ⟨⟨renamed_static hw hw rfl h, rfl⟩, hbehind⟩
  | mark => exact ⟨⟨.nil, rfl⟩, hbehind⟩
  | through inner after => exact ⟨⟨.nil, rfl⟩, hbehind⟩
  | argument =>
    simp only [List.isEmpty_nil, Bool.or_true, if_true] at h ⊢
    have hnone : (dynamicImport (f.first ⟨n, w ++ r⟩) f.span.chars (Tree.mk f []).isLiteral).edit? τ = none := by
      simpa using h
    exact ⟨⟨.cons (renamed_dynamic hw hw (fun _ => ⟨rfl, rfl⟩) hnone).1 .nil, rfl⟩, hbehind⟩

theorem edit?_eq_some {i : Import} {e : Edit} (h : i.edit? τ = some e) : i.name.isSome ∧ e.start = i.start ∧
    ∃ name, τ i = some name ∧ e.text = if i.dynamic then '\'' :: (name.toList ++ ['\'']) else name.toList := by
  unfold Import.edit? at h
  split at h
  · next hname hτ =>
    rw [← Option.some.inj h, hname]
    exact ⟨rfl, rfl, _, hτ, rfl⟩
  · exact absurd h (by simp)

theorem filterMap_eq_singleton {i : Import} {e : Edit} (h : [i].filterMap (Import.edit? τ) = [e]) : i.edit? τ = some e := by
  cases hi : i.edit? τ <;> simp_all

/-- What is exchanged for the specifiers that are found at a literal: the string of a statement, an argument, or nothing. -/
theorem walk_of_literal {f : Facts} {children : List Tree} (hliteral : (Tree.mk f children).isLiteral = true)
    (hlexical : areLexical children = true) (wanted : Wanted) (c : Cursor) :
    (wanted = .source ∧ f.extra = false ∧ Tree.walk wanted c (.mk f children) =
        ⟨f.behind c, .nothing, (staticImport? (f.first c) f.span.chars).toList⟩) ∨
      (wanted = .argument ∧ (Tree.walk wanted c (.mk f children)).found.filterMap (Import.edit? τ) =
          ((dynamicImport (f.first c) f.span.chars true).edit? τ).toList ∧
        ((dynamicImport (f.first c) f.span.chars true).name.isSome → Tree.walk wanted c (.mk f children) =
          ⟨f.behind c, .nothing, [dynamicImport (f.first c) f.span.chars true]⟩)) ∨
      (Tree.walk wanted c (.mk f children)).found.filterMap (Import.edit? τ) = [] := by
  have hm := wanted.meets f children
  have hinside := (walkAll_lexical hlexical c).1
  rw [Tree.walk, hliteral]
  generalize wanted.meet f children = m at hm ⊢
  cases m with
  | source =>
    cases hm with
    | source hwanted hk hextra => exact Or.inl ⟨hwanted, hextra, rfl⟩
  | mark => exact Or.inr (Or.inr rfl)
  | argument =>
    cases hm with
    | argument hwanted =>
      refine Or.inr (Or.inl ⟨hwanted, ?_, fun hname => ?_⟩)
      · dsimp only
        split
        · cases h : (dynamicImport (f.first c) f.span.chars true).edit? τ <;> simp [h]
        · rw [inside_of_literal hliteral, hinside]
          cases h : (dynamicImport (f.first c) f.span.chars true).edit? τ <;> simp [h]
      · dsimp only
        rw [hname]
        rfl
  | through inner after =>
    refine Or.inr (Or.inr ?_)
    dsimp only
    split
    · rfl
    · rw [through_of_literal hliteral hm, hinside]
      rfl

theorem unquoted?_append {marks : List Char} {q : Char} (hq : q ∈ marks) (inner : List Char) :
    unquoted? marks (q :: (inner ++ [q])) = some inner := by
  rw [unquoted?]
  simp [hq]

/-- The size of a gap and a literal between two marks. -/
theorem length_literal {f : Facts} {gap inner : List Char} (hgap : f.gap.chars = gap.length)
    (hspan : f.span.chars = inner.length + 2) (q : Char) :
    (gap ++ q :: (inner ++ [q])).length = f.gap.chars + f.span.chars := by
  rw [hgap, hspan]
  simp

theorem staticImport?_literal {f : Facts} {gap inner : List Char} {q : Char} (hgap : f.gap.chars = gap.length)
    (hspan : f.span.chars = inner.length + 2) (hq : q ∈ quotes) (n : Nat) (r : List Char) :
    staticImport? (f.first ⟨n, gap ++ q :: (inner ++ [q]) ++ r⟩) f.span.chars =
      some ⟨some (String.ofList inner), n + gap.length + 1, n + gap.length + 1 + inner.length, false⟩ := by
  rw [staticImport?_append (length_literal hgap hspan q), hgap, List.drop_left, unquoted?_append hq]
  rfl

theorem staticImport?_start {f : Facts} {gap inner : List Char} {q : Char} (hgap : f.gap.chars = gap.length)
    (hspan : f.span.chars = inner.length + 2) {n : Nat} {r : List Char} {i : Import}
    (h : staticImport? (f.first ⟨n, gap ++ q :: (inner ++ [q]) ++ r⟩) f.span.chars = some i) : i.start = n + gap.length + 1 := by
  rw [staticImport?_append (length_literal hgap hspan q), hgap] at h
  obtain ⟨inner', -, rfl⟩ := Option.map_eq_some_iff.1 h
  rfl

theorem dynamicImport_literal {f : Facts} {gap inner : List Char} {q : Char} (hgap : f.gap.chars = gap.length)
    (hspan : f.span.chars = inner.length + 2) (hq : q ∈ literalMarks) (n : Nat) (r : List Char) :
    dynamicImport (f.first ⟨n, gap ++ q :: (inner ++ [q]) ++ r⟩) f.span.chars true =
      ⟨some (String.ofList inner), n + gap.length, n + gap.length + (inner.length + 2), true⟩ := by
  rw [dynamicImport_append (length_literal hgap hspan q), hgap, hspan, List.drop_left, unquoted?_append hq]
  rfl

/-- The string of a statement is exchanged. -/
theorem follows_inside {f f' : Facts} {children children' : List Tree} {gap inner inner' r r' : List Char} {q : Char} {n' : Nat}
    {wanted : Wanted} (hkind : f.kind = .node .stringLiteral) (hkind' : f'.kind = f.kind) (hextra : f'.extra = f.extra)
    (hgap : f.gap.chars = gap.length) (hgap' : f'.gap.chars = gap.length) (hspan : f.span.chars = inner.length + 2)
    (hspan' : f'.span.chars = inner'.length + 2) (hq : q ∈ quotes) (hlexical : areLexical children = true)
    (h : (Tree.walk wanted ⟨n, gap ++ q :: (inner ++ [q]) ++ r⟩ (.mk f children)).found.filterMap (Import.edit? τ) =
      [⟨n + gap.length + 1, n + gap.length + 1 + inner.length, inner'⟩]) :
    Walk.Follows τ (Tree.walk wanted ⟨n, gap ++ q :: (inner ++ [q]) ++ r⟩ (.mk f children))
        (Tree.walk wanted ⟨n', gap ++ q :: (inner' ++ [q]) ++ r'⟩ (.mk f' children')) ∧
      (Tree.walk wanted ⟨n', gap ++ q :: (inner' ++ [q]) ++ r'⟩ (.mk f' children')).cursor =
        ⟨n' + (gap ++ q :: (inner' ++ [q])).length, r'⟩ := by
  have hliteral : (Tree.mk f children).isLiteral = true := by simp [Tree.isLiteral, hkind]
  have hbehind := (Facts.behind_append (length_literal hgap' hspan' q) r' n').2.2
  rcases @walk_of_literal τ f children hliteral hlexical wanted ⟨n, gap ++ q :: (inner ++ [q]) ++ r⟩ with
    ⟨rfl, hf, hwalk⟩ | ⟨-, hedits, -⟩ | hnone
  · have hwalk' : Tree.walk .source ⟨n', gap ++ q :: (inner' ++ [q]) ++ r'⟩ (.mk f' children') =
        ⟨f'.behind ⟨n', gap ++ q :: (inner' ++ [q]) ++ r'⟩, .nothing,
          (staticImport? (f'.first ⟨n', gap ++ q :: (inner' ++ [q]) ++ r'⟩) f'.span.chars).toList⟩ := by
      rw [Tree.walk, Wanted.meet]
      simp [hkind, hkind', hextra, hf]
    rw [hwalk, staticImport?_literal hgap hspan hq] at h ⊢
    rw [hwalk', staticImport?_literal hgap' hspan' hq]
    obtain ⟨-, -, name, hτ, htext⟩ := edit?_eq_some (filterMap_eq_singleton h)
    have hname : String.ofList inner' = name := by
      dsimp only at htext
      rw [htext]
      simp
    exact ⟨⟨.cons ⟨rfl, by simp [hτ, hname]⟩ .nil, rfl⟩, hbehind⟩
  · -- an argument would be exchanged as a whole
    rw [hedits, dynamicImport_literal hgap hspan (List.mem_cons_of_mem _ hq)] at h
    obtain ⟨-, hstart, -⟩ := edit?_eq_some (Option.toList_eq_singleton_iff.1 h)
    dsimp only at hstart
    omega
  · rw [hnone] at h
    exact absurd h (by simp)

/-- A literal that is an argument is exchanged. -/
theorem follows_whole {f f' : Facts} {children children' : List Tree} {gap inner inner' r r' : List Char} {q : Char} {n' : Nat}
    {wanted : Wanted} (hliteral : (Tree.mk f children).isLiteral = true) (hkind' : f'.kind = .node .stringLiteral)
    (hgap : f.gap.chars = gap.length) (hgap' : f'.gap.chars = gap.length) (hspan : f.span.chars = inner.length + 2)
    (hspan' : f'.span.chars = inner'.length + 2) (hq : q ∈ literalMarks) (hlexical : areLexical children = true)
    (h : (Tree.walk wanted ⟨n, gap ++ q :: (inner ++ [q]) ++ r⟩ (.mk f children)).found.filterMap (Import.edit? τ) =
      [⟨n + gap.length, n + gap.length + inner.length + 2, '\'' :: (inner' ++ ['\''])⟩]) :
    Walk.Follows τ (Tree.walk wanted ⟨n, gap ++ q :: (inner ++ [q]) ++ r⟩ (.mk f children))
        (Tree.walk wanted ⟨n', gap ++ '\'' :: (inner' ++ ['\'']) ++ r'⟩ (.mk f' children')) ∧
      (Tree.walk wanted ⟨n', gap ++ '\'' :: (inner' ++ ['\'']) ++ r'⟩ (.mk f' children')).cursor =
        ⟨n' + (gap ++ '\'' :: (inner' ++ ['\''])).length, r'⟩ := by
  have hliteral' : (Tree.mk f' children').isLiteral = true := by simp [Tree.isLiteral, hkind']
  have hbehind := (Facts.behind_append (length_literal hgap' hspan' '\'') r' n').2.2
  rcases @walk_of_literal τ f children hliteral hlexical wanted ⟨n, gap ++ q :: (inner ++ [q]) ++ r⟩ with
    ⟨-, -, hwalk⟩ | ⟨rfl, hedits, hwalk⟩ | hnone
  · -- the string of a statement would be exchanged between its quotes
    rw [hwalk] at h
    dsimp only at h
    rcases hi : staticImport? (f.first ⟨n, gap ++ q :: (inner ++ [q]) ++ r⟩) f.span.chars with _ | i
    · rw [hi] at h
      exact absurd h (by simp)
    · rw [hi] at h
      obtain ⟨-, hstart, -⟩ := edit?_eq_some (filterMap_eq_singleton h)
      rw [staticImport?_start hgap hspan hi] at hstart
      dsimp only at hstart
      omega
  · have hmark : '\'' ∈ literalMarks := by decide
    have hwalk' : Tree.walk .argument ⟨n', gap ++ '\'' :: (inner' ++ ['\'']) ++ r'⟩ (.mk f' children') =
        ⟨f'.behind ⟨n', gap ++ '\'' :: (inner' ++ ['\'']) ++ r'⟩, .nothing,
          [⟨some (String.ofList inner'), n' + gap.length, n' + gap.length + (inner'.length + 2), true⟩]⟩ := by
      rw [Tree.walk, Wanted.meet, hliteral', dynamicImport_literal hgap' hspan' hmark]
      simp [hkind', Kind.isArgumentMark, Kind.isShown, Node.isShown, Node.isRepetition]
    rw [dynamicImport_literal hgap hspan hq] at hedits hwalk
    rw [hedits] at h
    obtain ⟨-, -, name, hτ, htext⟩ := edit?_eq_some (Option.toList_eq_singleton_iff.1 h)
    have hname : String.ofList inner' = name := by
      have hinner : inner' = name.toList := by simpa using htext
      rw [hinner]
      simp
    rw [hwalk rfl, hwalk']
    exact ⟨⟨.cons ⟨rfl, by simp [hτ, hname]⟩ .nil, rfl⟩, hbehind⟩
  · rw [hnone] at h
    exact absurd h (by simp)

/-- A tree whose parts are exchanged. -/
theorem follows_node {f f' : Facts} {children children' : List Tree} {wanted : Wanted} {r r' : List Char} {n' : Nat}
    (hw : w.length = f.gap.chars + f.span.chars) (hw' : w'.length = f'.gap.chars + f'.span.chars) (hkind : f'.kind = f.kind)
    (hextra : f'.extra = f.extra) (hne : children ≠ []) (hne' : children' ≠ [])
    (hliteral : (Tree.mk f' children').isLiteral = (Tree.mk f children).isLiteral)
    (hstays : (Tree.mk f children).isLiteral = true → es = [] ∧ w' = w ∧ f'.gap.chars = f.gap.chars)
    (hin : Exchanged spot n children w es children' w')
    (hparts : ∀ wanted : Wanted, (walkAll wanted ⟨n, w ++ r⟩ children).found.filterMap (Import.edit? τ) = es →
      Walk.Follows τ (walkAll wanted ⟨n, w ++ r⟩ children) (walkAll wanted ⟨n', w' ++ r'⟩ children') ∧
        (walkAll wanted ⟨n', w' ++ r'⟩ children').cursor = ⟨n' + w'.length, r'⟩)
    (h : (Tree.walk wanted ⟨n, w ++ r⟩ (.mk f children)).found.filterMap (Import.edit? τ) = es) :
    Walk.Follows τ (Tree.walk wanted ⟨n, w ++ r⟩ (.mk f children)) (Tree.walk wanted ⟨n', w' ++ r'⟩ (.mk f' children')) ∧
      (Tree.walk wanted ⟨n', w' ++ r'⟩ (.mk f' children')).cursor = ⟨n' + w'.length, r'⟩ := by
  have hbehind := (Facts.behind_append hw' r' n').2.2
  have hinside : Wanted.inside f'.kind children' = Wanted.inside f.kind children := by rw [hkind, hin.inside_eq]
  have hempty : children.isEmpty = false := List.isEmpty_eq_false_iff.2 hne
  have hempty' : children'.isEmpty = false := List.isEmpty_eq_false_iff.2 hne'
  have hm := wanted.meets f children
  rw [Tree.walk] at h ⊢
  rw [Tree.walk, meet_congr hkind hextra hinside, hliteral, hinside, hempty']
  rw [hempty] at h ⊢
  generalize wanted.meet f children = m at hm h ⊢
  cases m with
  | source =>
    cases hm with
    | source hwanted hk hextra =>
      obtain ⟨rfl, rfl, hgap⟩ := hstays (by simp [Tree.isLiteral, hk])
      exact ⟨⟨renamed_static hw hw' hgap h, rfl⟩, hbehind⟩
  | mark => exact ⟨⟨.nil, rfl⟩, hbehind⟩
  | argument =>
    dsimp only at h ⊢
    rw [Bool.or_false] at h ⊢
    rw [Bool.or_false]
    have hsame := fun hl => (hstays hl).2
    split at h
    · next hname =>
      -- a literal that stays
      have hl : (Tree.mk f children).isLiteral = true := by
        by_contra hl
        rw [dynamicImport_append hw, if_neg hl] at hname
        exact absurd hname (by simp)
      rw [(hstays hl).1] at h
      have hnone : (dynamicImport (f.first ⟨n, w ++ r⟩) f.span.chars (Tree.mk f children).isLiteral).edit? τ = none := by
        simpa using h
      obtain ⟨hrenamed, hname'⟩ := @renamed_dynamic n w w' τ f f' r r' n' _ hw hw' hsame hnone
      rw [hname', if_pos hname, if_pos hname]
      exact ⟨⟨.cons hrenamed .nil, rfl⟩, hbehind⟩
    · next hname =>
      have hunnamed : (dynamicImport (f.first ⟨n, w ++ r⟩) f.span.chars (Tree.mk f children).isLiteral).name = none := by
        simpa using hname
      obtain ⟨hrenamed, hname'⟩ := @renamed_dynamic n w w' τ f f' r r' n' _ hw hw' hsame (edit?_eq_none hunnamed)
      rw [hname', if_neg hname, if_neg hname]
      rw [List.filterMap_cons_none (edit?_eq_none hunnamed)] at h
      obtain ⟨hfollows, hcursor⟩ := hparts _ h
      exact ⟨⟨.cons hrenamed hfollows.found, rfl⟩, hcursor⟩
  | through inner after =>
    dsimp only at h ⊢
    obtain ⟨hfollows, hcursor⟩ := hparts inner h
    refine ⟨⟨hfollows.found, ?_⟩, hcursor⟩
    exact congrArg after.getD hfollows.wanted

/-- What is exchanged in two texts, one before the other, is exchanged in each of them. -/
theorem append_inj_of_start {es₁ es₂ es₁' es₂' : List Edit} {k : Nat} (h : es₁ ++ es₂ = es₁' ++ es₂')
    (h₁ : ∀ e ∈ es₁, e.start < k) (h₂ : ∀ e ∈ es₂, k ≤ e.start) (h₁' : ∀ e ∈ es₁', e.start < k) (h₂' : ∀ e ∈ es₂', k ≤ e.start) :
    es₁ = es₁' ∧ es₂ = es₂' := by
  have hleft : ∀ {a b : List Edit}, (∀ e ∈ a, e.start < k) → (∀ e ∈ b, k ≤ e.start) → (a ++ b).filter (·.start < k) = a := by
    intro a b ha hb
    rw [List.filter_append, List.filter_eq_self.2 fun e he => by simpa using ha e he,
      List.filter_eq_nil_iff.2 fun e he => by simpa using hb e he, List.append_nil]
  obtain rfl : es₁ = es₁' := by rw [← hleft h₁ h₂, h, hleft h₁' h₂']
  exact ⟨rfl, List.append_cancel_left h⟩

/-- What is exchanged for a specifier stands within its bounds. -/
theorem Import.Within.edit {i : Import} {m k : Nat} {e : Edit} (h : i.Within s m k) (he : i.edit? τ = some e) :
    m ≤ e.start ∧ e.start < k := by
  obtain ⟨hname, hstart, -⟩ := edit?_eq_some he
  have hfirst := h.first hname
  have hbehind := h.behind hname
  have hstands := h.stands
  rw [hstart]
  cases hstands with
  | quoted =>
    simp only [Import.first, Import.behind, Bool.false_eq_true, if_false] at hfirst hbehind ⊢
    omega
  | literal =>
    simp only [Import.first, Import.behind, if_true] at hfirst hbehind ⊢
    omega
  | computed => exact absurd hname (by simp)

theorem Tight.uncons {f : Facts} {children : List Tree} (h : Tight (.mk f children :: ts) (w ++ v))
    (hw : w.length = f.gap.chars + f.span.chars) :
    Tight [.mk f children] w ∧ Tight ts v ∧ (children ≠ [] → Tight children w) := by
  generalize hwhole : w ++ v = x at h
  cases h with
  | @leaf _ _ w₁ v₁ hw₁ h =>
    obtain ⟨rfl, rfl⟩ := List.append_inj hwhole (hw.trans hw₁.symm)
    exact ⟨by simpa using Tight.leaf hw .nil, h, fun hne => absurd rfl hne⟩
  | @node _ _ _ w₁ v₁ hw₁ hne hlexical hchildren h =>
    obtain ⟨rfl, rfl⟩ := List.append_inj hwhole (hw.trans hw₁.symm)
    exact ⟨by simpa using Tight.node hw hne hlexical hchildren .nil, h, fun _ => hchildren⟩

theorem follows_cons {t t' : Tree} {wanted : Wanted} {r r' : List Char} {n' : Nat} (htight : Tight [t] w)
    (hin : Cursor.In ⟨n, w ++ v ++ r⟩ s)
    (h : (walkAll wanted ⟨n, w ++ v ++ r⟩ (t :: ts)).found.filterMap (Import.edit? τ) = es ++ es')
    (hes : ∀ e ∈ es, e.start < n + w.length) (hes' : ∀ e ∈ es', n + w.length ≤ e.start)
    (htree : (t.walk wanted ⟨n, w ++ (v ++ r)⟩).found.filterMap (Import.edit? τ) = es →
      Walk.Follows τ (t.walk wanted ⟨n, w ++ (v ++ r)⟩) (t'.walk wanted ⟨n', w' ++ (v' ++ r')⟩) ∧
        (t'.walk wanted ⟨n', w' ++ (v' ++ r')⟩).cursor = ⟨n' + w'.length, v' ++ r'⟩)
    (hrest : ∀ wanted : Wanted, Cursor.In ⟨n + w.length, v ++ r⟩ s →
      (walkAll wanted ⟨n + w.length, v ++ r⟩ ts).found.filterMap (Import.edit? τ) = es' →
      Walk.Follows τ (walkAll wanted ⟨n + w.length, v ++ r⟩ ts) (walkAll wanted ⟨n' + w'.length, v' ++ r'⟩ ts') ∧
        (walkAll wanted ⟨n' + w'.length, v' ++ r'⟩ ts').cursor = ⟨n' + w'.length + v'.length, r'⟩) :
    Walk.Follows τ (walkAll wanted ⟨n, w ++ v ++ r⟩ (t :: ts)) (walkAll wanted ⟨n', w' ++ v' ++ r'⟩ (t' :: ts')) ∧
      (walkAll wanted ⟨n', w' ++ v' ++ r'⟩ (t' :: ts')).cursor = ⟨n' + (w' ++ v').length, r'⟩ := by
  have hcursor : (t.walk wanted ⟨n, w ++ (v ++ r)⟩).cursor = ⟨n + w.length, v ++ r⟩ := htight.cursor wanted n (v ++ r)
  rw [List.append_assoc] at hin
  have hsound := walk_sound wanted hin t
  have hbehind : Cursor.In ⟨n + w.length, v ++ r⟩ s := hcursor ▸ hsound.cursor
  obtain ⟨hfound, hwanted⟩ := htight.walkAll_cons ts wanted n v r
  rw [hfound, List.filterMap_append] at h
  obtain ⟨hhead, htail⟩ := append_inj_of_start h (fun e he => by
    obtain ⟨i, hi, he⟩ := List.mem_filterMap.1 he
    have hwithin := hsound.found i hi
    rw [hcursor] at hwithin
    exact (hwithin.edit he).2) (fun e he => by
    obtain ⟨i, hi, he⟩ := List.mem_filterMap.1 he
    exact ((walkAll_sound _ hbehind ts).found i hi).edit he |>.1) hes hes'
  obtain ⟨hfollows, hcursor'⟩ := htree hhead
  obtain ⟨hfollows', hlast⟩ := hrest _ hbehind htail
  have hwhole : walkAll wanted ⟨n', w' ++ v' ++ r'⟩ (t' :: ts') =
      { walkAll (t.walk wanted ⟨n, w ++ (v ++ r)⟩).wanted ⟨n' + w'.length, v' ++ r'⟩ ts' with
        found := (t'.walk wanted ⟨n', w' ++ (v' ++ r')⟩).found ++
          (walkAll (t.walk wanted ⟨n, w ++ (v ++ r)⟩).wanted ⟨n' + w'.length, v' ++ r'⟩ ts').found } := by
    rw [List.append_assoc, walkAll, hcursor', hfollows.wanted]
  rw [hwhole]
  refine ⟨⟨?_, ?_⟩, ?_⟩
  · rw [hfound]
    exact List.rel_append hfollows.found hfollows'.found
  · rw [hwanted]
    exact hfollows'.wanted
  · rw [List.length_append, ← Nat.add_assoc]
    exact hlast

/-- Going through trees with literals exchanged, the same specifiers are found, renamed. -/
theorem Exchanged.walk (h : Exchanged spot n ts w es ts' w') (htight : Tight ts w) {wanted : Wanted} {r r' : List Char} {n' : Nat}
    (hin : Cursor.In ⟨n, w ++ r⟩ s) (hes : (walkAll wanted ⟨n, w ++ r⟩ ts).found.filterMap (Import.edit? τ) = es) :
    Walk.Follows τ (walkAll wanted ⟨n, w ++ r⟩ ts) (walkAll wanted ⟨n', w' ++ r'⟩ ts') ∧
      (walkAll wanted ⟨n', w' ++ r'⟩ ts').cursor = ⟨n' + w'.length, r'⟩ := by
  induction h generalizing wanted r r' n' with
  | nil => exact ⟨⟨.nil, rfl⟩, rfl⟩
  | @leaf spot n f ts ts' w v v' es hw h ih =>
    obtain ⟨hhead, htail, -⟩ := htight.uncons hw
    exact follows_cons hhead hin (hes.trans (List.nil_append es).symm) (by simp) (fun e he => (h.start_mem e he).1)
      (follows_leaf hw) fun wanted hin hes => ih htail hin hes
  | @inside n f f' children children' ts ts' gap inner inner' v v' q es hkind hkind' hextra hgap hgap' hspan hspan' hq hlexical
      hcontent h ih =>
    have hw := length_literal hgap hspan q
    obtain ⟨hhead, htail, -⟩ := htight.uncons hw
    have hend : n + (gap ++ q :: (inner ++ [q])).length = n + gap.length + inner.length + 2 := by
      simp
      omega
    refine follows_cons hhead hin (hes.trans List.singleton_append.symm) ?_ ?_
      (follows_inside hkind hkind' hextra hgap hgap' hspan hspan' hq hlexical) fun wanted hin hes => ?_
    · rw [hend]
      intro e he
      obtain rfl := List.mem_singleton.1 he
      dsimp only
      omega
    · rw [hend]
      exact fun e he => (h.start_mem e he).1
    · rw [hend] at hin hes ⊢
      exact ih htail hin hes
  | @whole n f f' children children' ts ts' gap inner inner' v v' q es hliteral hkind' hgap hgap' hspan hspan' hq hlexical
      hcontent h ih =>
    have hw := length_literal hgap hspan q
    obtain ⟨hhead, htail, -⟩ := htight.uncons hw
    have hend : n + (gap ++ q :: (inner ++ [q])).length = n + gap.length + inner.length + 2 := by
      simp
      omega
    refine follows_cons hhead hin (hes.trans List.singleton_append.symm) ?_ ?_
      (follows_whole hliteral hkind' hgap hgap' hspan hspan' hq hlexical) fun wanted hin hes => ?_
    · rw [hend]
      intro e he
      obtain rfl := List.mem_singleton.1 he
      dsimp only
      omega
    · rw [hend]
      exact fun e he => (h.start_mem e he).1
    · rw [hend] at hin hes ⊢
      exact ih htail hin hes
  | @node spot n f f' children children' ts ts' w w' v v' es es' hw hw' hkind hextra hne hne' hliteral hstays hparts h ihin ih =>
    obtain ⟨hhead, htail, hchildren⟩ := htight.uncons hw
    have hin' := hin
    rw [List.append_assoc] at hin'
    exact follows_cons hhead hin hes (fun e he => (hparts.start_mem e he).2) (fun e he => (h.start_mem e he).1)
      (follows_node hw hw' hkind hextra hne hne' hliteral hstays hparts fun wanted hes => ihin (hchildren hne) hin' hes)
      fun wanted hin hes => ih htail hin hes

/-- With the literals of specifiers exchanged a script is still read, and its specifiers are the same, renamed. -/
theorem Steady.importsOf {P : List Char → Tree} (hP : Steady P) {imports : List Import} (h : importsOf s (P s) = .ok imports)
    (hadmits : ∀ i ∈ imports, ∀ name ∈ τ i, i.Admits s name) :
    ∃ imports', importsOf (Text.exchange s 0 (imports.filterMap (Import.edit? τ)))
        (P (Text.exchange s 0 (imports.filterMap (Import.edit? τ)))) = .ok imports' ∧
      List.Forall₂ (Import.Renamed τ) imports imports' := by
  unfold Script.importsOf at h
  split at h
  · exact absurd h (by simp)
  next hcost =>
  have hcost := Nat.eq_zero_of_not_pos hcost
  obtain rfl := Except.ok.inj h
  have htight := hP.tight hcost
  have hin : Cursor.In ⟨0, s ++ []⟩ s := (List.append_nil s).symm ▸ .start s
  have hall : (walkAll .nothing ⟨0, s ++ []⟩ [P s]).found = ((P s).walk .nothing ⟨0, s⟩).found := by
    rw [List.append_nil]
    exact List.append_nil _
  obtain ⟨ts', s', hexchanged⟩ := @exists_exchanged .other 0 [P s] s s τ htight .nothing [] trivial hin (hall ▸ hadmits)
  obtain ⟨t', rfl⟩ := List.length_eq_one_iff.1 hexchanged.length
  rw [hall] at hexchanged
  obtain ⟨hcost', hsame⟩ := hP.exchanged hcost hexchanged
  have htext : Text.exchange s 0 (((P s).walk .nothing ⟨0, s⟩).found.filterMap (Import.edit? τ)) = s' := by
    have hwhole : s = [] ++ (s ++ []) := by simp
    have hpatch := hsame.exchange hwhole rfl (List.forall_mem_nil _)
    rwa [List.append_nil, Text.exchange, Nat.zero_add, List.drop_length, List.append_nil] at hpatch
  rw [htext, Script.importsOf, if_neg (by omega)]
  refine ⟨_, rfl, ?_⟩
  have hfollows := (@Exchanged.walk .other 0 [P s] [P s'] s s' s _ τ hsame htight .nothing [] [] 0 hin (hall ▸ rfl)).1.found
  have hall' : (walkAll .nothing ⟨0, s' ++ []⟩ [P s']).found = ((P s').walk .nothing ⟨0, s'⟩).found := by
    rw [List.append_nil]
    exact List.append_nil _
  rwa [hall, hall'] at hfollows

end BareImports.Script
