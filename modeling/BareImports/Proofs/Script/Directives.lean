import BareImports.Proofs.Script.Names
import Mathlib.Data.List.TakeWhile
import Mathlib.Data.Option.Basic

/-!
# The directives of a declaration file stand in its head

* `Head a cs` : a text of nothing but white space and comments, with its comments in order;
* `EndsInBreak`, `Headless` : texts behind which a head ends, and texts with which none goes on;
* `longest?_line`, `longest?_block`, `longest?_of_headless`, `headComments_append` : the comments that are read are those of the head;
* `Refers kind value comment` : a comment is a directive, as its grammar has it; `directive?_eq_some_iff`;
* `Values kind cs vs` : the values of the directives of a kind among comments; `values_of_directives`;
* `references_of_head` : the directives of a file are those of its head, and nothing is listed twice.
-/

namespace BareImports.Script

open Text

/-! ## Heads of files -/

/-- A text of nothing but white space and comments, with the comments in order. -/
inductive Head : List Char → List (List Char) → Prop
  /-- Nothing. -/
  | nil : Head [] []
  /-- White space. -/
  | space {c : Char} {s : List Char} {cs : List (List Char)} (hc : isSpace c = true) (h : Head s cs) : Head (c :: s) cs
  /-- A comment of one line, which goes on to the end of the line. -/
  | line {body s : List Char} {cs : List (List Char)} (hbody : body.all (!endsLine ·) = true)
    (hs : ∀ c ∈ s.head?, endsLine c = true) (h : Head s cs) : Head ('/' :: '/' :: (body ++ s)) (('/' :: '/' :: body) :: cs)
  /-- A comment up to its mark. -/
  | block {body s : List Char} {cs : List (List Char)} (hbody : ¬ ['*', '/'] <:+: body) (h : Head s cs) :
    Head ('/' :: '*' :: (body ++ '*' :: '/' :: s)) (('/' :: '*' :: (body ++ ['*', '/'])) :: cs)

/-- The last character of a text, if it has one, ends a line. -/
def EndsInBreak (a : List Char) : Prop := ∀ c ∈ a.getLast?, endsLine c = true

/-- A text that begins with neither white space nor a comment. -/
structure Headless (b : List Char) : Prop where
  /-- No white space is in front. -/
  solid : ∀ c ∈ b.head?, isSpace c = false
  /-- No comment of one line is in front. -/
  line : ¬ ['/', '/'] <+: b
  /-- No comment with a mark at its end is in front. -/
  block : ∀ r, b = '/' :: '*' :: r → ¬ ['*', '/'] <:+: r

theorem headless_nil : Headless [] := ⟨by simp, by simp, by simp⟩

theorem endsInBreak_of_append {u a : List Char} (h : EndsInBreak (u ++ a)) : EndsInBreak a := fun c hc => by
  refine h c ?_
  rw [Option.mem_def] at hc ⊢
  rw [List.getLast?_append, hc, Option.some_or]

/-! ## Comments that are read -/

theorem longestFrom_line {body s : List Char} (hbody : body.all (!endsLine ·) = true)
    (hs : ∀ c ∈ s.head?, endsLine c = true) (n : Nat) (best : Option Nat) :
    commentMatcher.longestFrom .line n best (body ++ s) = some (n + body.length) := by
  induction body generalizing n best with
  | nil =>
    cases s with
    | nil => rfl
    | cons c r =>
      have hstep : commentMatcher.step .line c = none := if_pos (hs c rfl)
      rw [List.nil_append, Matcher.longestFrom, hstep]
      rfl
  | cons c body ih =>
    rw [List.all_cons, Bool.and_eq_true, Bool.not_eq_true'] at hbody
    have hstep : commentMatcher.step .line c = some .line := if_neg (by rw [hbody.1]; decide)
    rw [List.cons_append, Matcher.longestFrom, hstep]
    show commentMatcher.longestFrom .line (n + 1) _ (body ++ s) = _
    rw [ih hbody.2, List.length_cons]
    congr 1
    omega

/-- The part of the closing mark that was read in a comment. -/
def Comment.seen : Comment → List Char
  | .star => ['*']
  | _ => []

/-- One more character of a comment that it does not end with. -/
theorem step_inside {c : Char} {body : List Char} {st : Comment} (hst : st = .block ∨ st = .star)
    (hbody : ¬ ['*', '/'] <:+: st.seen ++ c :: body) :
    ∃ st', (st' = .block ∨ st' = .star) ∧ commentMatcher.step st c = some st' ∧ st'.seen ++ body <:+ st.seen ++ c :: body := by
  by_cases hstar : c = '*'
  · subst hstar
    refine ⟨.star, .inr rfl, ?_, List.suffix_append _ _⟩
    rcases hst with rfl | rfl <;> rfl
  · refine ⟨.block, .inl rfl, ?_, (List.suffix_cons c body).trans (List.suffix_append _ _)⟩
    rcases hst with rfl | rfl
    · exact congrArg some (if_neg (by simpa using hstar))
    · have hslash : c ≠ '/' := by
        rintro rfl
        exact hbody (List.prefix_append ['*', '/'] body).isInfix
      show some (if c == '/' then Comment.closed else if c == '*' then .star else .block) = _
      rw [if_neg (by simpa using hslash), if_neg (by simpa using hstar)]

/-- No comment ends while its text does not hold the closing mark. -/
theorem longestFrom_inside {body : List Char} {st : Comment} (hst : st = .block ∨ st = .star)
    (hbody : ¬ ['*', '/'] <:+: st.seen ++ body) (n : Nat) :
    ∃ st', (st' = .block ∨ st' = .star) ∧ ∀ s,
      commentMatcher.longestFrom st n none (body ++ s) = commentMatcher.longestFrom st' (n + body.length) none s := by
  induction body generalizing st n with
  | nil => exact ⟨st, hst, fun s => rfl⟩
  | cons c body ih =>
    obtain ⟨st₁, hst₁, hstep, hseen⟩ := step_inside hst hbody
    obtain ⟨st', hst', hrun⟩ := ih hst₁ (fun hin => hbody (hin.trans hseen.isInfix)) (n + 1)
    refine ⟨st', hst', fun s => ?_⟩
    have hbest : (if commentMatcher.accepts st then some n else none) = none := by
      rcases hst with rfl | rfl <;> rfl
    rw [List.cons_append, Matcher.longestFrom, hstep, hbest]
    show commentMatcher.longestFrom st₁ (n + 1) none (body ++ s) = _
    rw [hrun s, List.length_cons, Nat.add_right_comm, Nat.add_assoc]

theorem longest?_line {body s : List Char} (hbody : body.all (!endsLine ·) = true)
    (hs : ∀ c ∈ s.head?, endsLine c = true) :
    commentMatcher.longest? ('/' :: '/' :: (body ++ s)) = some ('/' :: '/' :: body).length := by
  show commentMatcher.longestFrom .line 2 none (body ++ s) = _
  rw [longestFrom_line hbody hs, List.length_cons, List.length_cons, Nat.add_comm]

theorem longest?_block {body : List Char} (hbody : ¬ ['*', '/'] <:+: body) (s : List Char) :
    commentMatcher.longest? ('/' :: '*' :: (body ++ '*' :: '/' :: s)) =
      some ('/' :: '*' :: (body ++ ['*', '/'])).length := by
  show commentMatcher.longestFrom .block 2 none (body ++ '*' :: '/' :: s) = _
  obtain ⟨st, hst, hrun⟩ := longestFrom_inside (.inl rfl) hbody 2
  have hclosed : ∀ n, commentMatcher.longestFrom st n none ('*' :: '/' :: s) = some (n + 2) := by
    intro n
    rcases hst with rfl | rfl <;> cases s <;> rfl
  rw [hrun, hclosed, List.length_cons, List.length_cons, List.length_append]
  congr 1
  simp only [List.length_cons, List.length_nil]
  omega

theorem longest?_of_ne {c : Char} (hc : c ≠ '/') (s : List Char) : commentMatcher.longest? (c :: s) = none := by
  have hstep : commentMatcher.step .start c = none := if_neg (by simpa using hc)
  rw [Matcher.longest?, Matcher.longestFrom, show commentMatcher.start = .start from rfl, hstep]
  rfl

theorem longest?_of_headless {b : List Char} (hb : Headless b) : commentMatcher.longest? b = none := by
  cases b with
  | nil => rfl
  | cons c r =>
    by_cases hc : c = '/'
    · subst hc
      cases r with
      | nil => rfl
      | cons d r =>
        have hslash : d ≠ '/' := by
          rintro rfl
          exact hb.line (List.prefix_append ['/', '/'] r)
        by_cases hstar : d = '*'
        · -- an open comment is none: the mark that would end it is missing
          subst hstar
          obtain ⟨st, hst, hrun⟩ := longestFrom_inside (.inl rfl) (hb.block r rfl) 2
          show commentMatcher.longestFrom .block 2 none r = none
          rw [← List.append_nil r, hrun]
          rcases hst with rfl | rfl <;> rfl
        · have hstep : commentMatcher.step .slash d = none := by
            show (if d == '/' then some Comment.line else if d == '*' then some .block else none) = none
            rw [if_neg (by simpa using hslash), if_neg (by simpa using hstar)]
          show commentMatcher.longestFrom .slash 1 none (d :: r) = none
          rw [Matcher.longestFrom, hstep]
          rfl
    · exact longest?_of_ne hc r

theorem headComments_succ (fuel : Nat) (s : List Char) : headComments (fuel + 1) s =
    match commentMatcher.longest? s with
    | some n => s.take n :: headComments fuel (s.drop n)
    | none => match s with
      | c :: r => if isSpace c then headComments fuel r else []
      | [] => [] := rfl

theorem headComments_of_headless {b : List Char} (hb : Headless b) (fuel : Nat) : headComments fuel b = [] := by
  cases fuel with
  | zero => rfl
  | succ fuel =>
    rw [headComments_succ, longest?_of_headless hb]
    cases b with
    | nil => rfl
    | cons c r => simp only [hb.solid c rfl, Bool.false_eq_true, if_false]

theorem headComments_of_longest? {w : List Char} {s : List Char} (h : commentMatcher.longest? (w ++ s) = some w.length)
    (fuel : Nat) : headComments (fuel + 1) (w ++ s) = w :: headComments fuel s := by
  rw [headComments_succ, h]
  simp only [List.take_left, List.drop_left]

theorem not_endsInBreak_line {body : List Char} (hbody : body.all (!endsLine ·) = true) :
    ¬ EndsInBreak ('/' :: '/' :: body) := by
  intro h
  have hlast : ∀ c ∈ '/' :: '/' :: body, endsLine c = false := by
    intro c hc
    rcases List.mem_cons.1 hc with rfl | hc
    · rfl
    rcases List.mem_cons.1 hc with rfl | hc
    · rfl
    · simpa using List.all_eq_true.1 hbody c hc
  have hmem := List.getLast_mem (List.cons_ne_nil '/' ('/' :: body))
  have hend := h _ (List.getLast?_eq_some_getLast (List.cons_ne_nil '/' ('/' :: body)))
  rw [hlast _ hmem] at hend
  exact Bool.noConfusion hend

/-- What is read in front of the first token is the head, if the head is over where the rest of the text begins. -/
theorem headComments_append {a : List Char} {cs : List (List Char)} (h : Head a cs) {b : List Char} (hb : Headless b)
    (hend : b = [] ∨ EndsInBreak a) {fuel : Nat} (hfuel : (a ++ b).length ≤ fuel) : headComments fuel (a ++ b) = cs := by
  induction h generalizing fuel with
  | nil => exact headComments_of_headless hb fuel
  | @space c s cs hc h ih =>
    obtain ⟨fuel, rfl⟩ : ∃ n, fuel = n + 1 := Nat.exists_eq_succ_of_ne_zero (by simp at hfuel; omega)
    have hc' : c ≠ '/' := by
      rintro rfl
      exact Bool.noConfusion hc
    rw [List.cons_append, headComments_succ, longest?_of_ne hc']
    simp only [hc, if_true]
    exact ih (hend.imp_right (endsInBreak_of_append (u := [c]))) (by simpa using hfuel)
  | @line body s cs hbody hs h ih =>
    obtain ⟨fuel, rfl⟩ : ∃ n, fuel = n + 1 := Nat.exists_eq_succ_of_ne_zero (by simp at hfuel; omega)
    have hnext : ∀ c ∈ (s ++ b).head?, endsLine c = true := by
      cases s with
      | nil =>
        rcases hend with rfl | hend
        · simp
        · exact absurd (by simpa using hend) (not_endsInBreak_line hbody)
      | cons c s => exact hs
    have hread := longest?_line hbody hnext
    rw [show '/' :: '/' :: (body ++ s) ++ b = ('/' :: '/' :: body) ++ (s ++ b) by simp,
      headComments_of_longest? hread,
      ih (hend.imp_right (endsInBreak_of_append (u := '/' :: '/' :: body))) (by simp at hfuel ⊢; omega)]
  | @block body s cs hbody h ih =>
    obtain ⟨fuel, rfl⟩ : ∃ n, fuel = n + 1 := Nat.exists_eq_succ_of_ne_zero (by simp at hfuel; omega)
    have hread := longest?_block hbody (s ++ b)
    have hsplit : ∀ r, '/' :: '*' :: (body ++ '*' :: '/' :: r) = ('/' :: '*' :: (body ++ ['*', '/'])) ++ r := by simp
    rw [hsplit] at hread
    rw [hsplit, List.append_assoc, headComments_of_longest? hread,
      ih (hend.imp_right fun he => endsInBreak_of_append (hsplit s ▸ he)) (by simp at hfuel ⊢; omega)]

/-! ## Directives -/

/-- How an attribute is written. -/
def Attribute.word : Attribute → String
  | .path => "path"
  | .types => "types"
  | .lib => "lib"

/-- A comment refers to a value: behind three slashes it has `<reference`, white space, the attribute, `=` and the value between
two quotes of one kind. There may be more white space, and anything may follow. -/
inductive Refers (kind : Attribute) (value : List Char) : List Char → Prop
  /-- The parts of such a comment. -/
  | mk {w₁ w₂ w₃ w₄ rest : List Char} {q : Char} (h₁ : w₁.all isBlank = true) (h₂ : w₂.all isBlank = true) (hne : w₂ ≠ [])
    (h₃ : w₃.all isBlank = true) (h₄ : w₄.all isBlank = true) (hq : q = '"' ∨ q = '\'') (hvalue : q ∉ value) :
    Refers kind value ("///".toList ++ (w₁ ++ ("<reference".toList ++ (w₂ ++ (kind.word.toList ++ (w₃ ++
      ("=".toList ++ (w₄ ++ q :: (value ++ q :: rest)))))))))

theorem after?_eq_some {p : String} {s r : List Char} : after? p s = some r ↔ s = p.toList ++ r := by
  rw [after?, List.isPrefixOf?_eq_some_iff_append_eq]
  exact eq_comm

/-- White space up to a text that begins with none. -/
theorem span_isBlank {w s : List Char} (hw : w.all isBlank = true) (hs : ∀ c ∈ s.head?, isBlank c = false) :
    (w ++ s).span isBlank = (w, s) := by
  rw [List.span_eq_takeWhile_dropWhile, List.takeWhile_append_of_pos (List.all_eq_true.1 hw),
    List.dropWhile_append_of_pos (List.all_eq_true.1 hw)]
  cases s with
  | nil => rw [List.takeWhile_nil, List.dropWhile_nil, List.append_nil]
  | cons c s =>
    have hc : ¬ isBlank c = true := by rw [hs c rfl]; decide
    rw [List.takeWhile_cons_of_neg hc, List.dropWhile_cons_of_neg hc, List.append_nil]

theorem dropWhile_isBlank {w s : List Char} (hw : w.all isBlank = true) (hs : ∀ c ∈ s.head?, isBlank c = false) :
    (w ++ s).dropWhile isBlank = s := by
  have hspan := span_isBlank hw hs
  rw [List.span_eq_takeWhile_dropWhile] at hspan
  exact (Prod.mk.inj hspan).2

theorem solid_word (kind : Attribute) (s : List Char) : ∀ c ∈ (kind.word.toList ++ s).head?, isBlank c = false := by
  cases kind <;> · rintro c ⟨⟩; rfl

theorem attribute?_eq_some {s r : List Char} {k : Attribute} : attribute? s = some (k, r) ↔ s = k.word.toList ++ r := by
  have hmap : ∀ {x : Option (List Char)} {k' : Attribute},
      x.map (k', ·) = some (k, r) ↔ x = some r ∧ k' = k := by
    intro x k'
    cases x <;> simp [and_comm]
  constructor
  · intro h
    unfold attribute? at h
    rw [Option.orElse_eq_some, Option.orElse_eq_some, hmap, hmap, hmap] at h
    rcases h with ⟨hr, rfl⟩ | ⟨-, ⟨hr, rfl⟩ | ⟨-, hr, rfl⟩⟩ <;> exact after?_eq_some.1 hr
  · rintro rfl
    have hword : after? k.word (k.word.toList ++ r) = some r := after?_append k.word r
    cases k with
    | path => exact (Option.orElse_eq_some _ _ _).2 (.inl (hmap.2 ⟨hword, rfl⟩))
    | types => exact (Option.orElse_eq_some _ _ _).2 (.inr ⟨rfl, (Option.orElse_eq_some _ _ _).2 (.inl (hmap.2 ⟨hword, rfl⟩))⟩)
    | lib => exact (Option.orElse_eq_some _ _ _).2 (.inr ⟨rfl, (Option.orElse_eq_some _ _ _).2 (.inr ⟨rfl, hmap.2 ⟨hword, rfl⟩⟩)⟩)

theorem quotedValue?_eq_some {s v : List Char} :
    quotedValue? s = some v ↔ '\n' ∉ v ∧ ∃ q rest, (q = '"' ∨ q = '\'') ∧ q ∉ v ∧ s = q :: (v ++ q :: rest) := by
  constructor
  · intro h
    cases s with
    | nil => cases h
    | cons q s =>
      simp only [quotedValue?, Option.ite_none_right_eq_some, Option.bind_eq_some_iff, Option.ite_none_left_eq_some] at h
      obtain ⟨hq, ⟨value, rest⟩, hcut, hn, hv⟩ := h
      obtain rfl := Option.some.inj hv
      obtain ⟨rfl, hmem⟩ := cut?_eq_some hcut
      exact ⟨by simpa using hn, q, rest, by simpa using hq, hmem, rfl⟩
  · rintro ⟨hn, q, rest, hq, hv, rfl⟩
    rw [quotedValue?, if_pos (by simpa using hq), cut?_append hv, Option.bind_some]
    exact if_neg (by simpa using hn)

theorem directive?_of_refers {comment value : List Char} {kind : Attribute} (h : Refers kind value comment)
    (hn : '\n' ∉ value) : directive? comment = some (kind, String.ofList value) := by
  obtain @⟨w₁, w₂, w₃, w₄, rest, q, h₁, h₂, hne, h₃, h₄, hq, hvalue⟩ := h
  have hvalue? : quotedValue? (q :: (value ++ q :: rest)) = some value :=
    quotedValue?_eq_some.2 ⟨hn, q, rest, hq, hvalue, rfl⟩
  have hsolid : isBlank q = false := by rcases hq with rfl | rfl <;> rfl
  simp only [directive?, Option.bind_eq_bind]
  rw [after?_append, Option.bind_some, dropWhile_isBlank h₁ (by rintro c ⟨⟩; rfl), after?_append, Option.bind_some,
    span_isBlank h₂ (solid_word kind _), if_neg (by simpa using hne), attribute?_eq_some.2 rfl, Option.bind_some,
    dropWhile_isBlank h₃ (by rintro c ⟨⟩; rfl), after?_append, Option.bind_some,
    dropWhile_isBlank h₄ (by rintro c ⟨⟩; exact hsolid), hvalue?]
  rfl

theorem refers_of_directive? {comment : List Char} {kind : Attribute} {value : String}
    (h : directive? comment = some (kind, value)) : '\n' ∉ value.toList ∧ Refers kind value.toList comment := by
  simp only [directive?, Option.bind_eq_bind, Option.bind_eq_some_iff, Option.ite_none_left_eq_some, Option.bind_none] at h
  obtain ⟨s₁, hmark, s₂, hopen, hblank, ⟨k, s₃⟩, hword, s₄, hequals, v, hvalue, he⟩ := h
  obtain ⟨rfl, rfl⟩ := Prod.mk.inj (Option.some.inj he)
  obtain ⟨hn, q, rest, hq, hqv, hquoted⟩ := quotedValue?_eq_some.1 hvalue
  rw [String.toList_ofList]
  refine ⟨hn, ?_⟩
  have hsplit : ∀ s : List Char, s = s.takeWhile isBlank ++ s.dropWhile isBlank := fun s => List.takeWhile_append_dropWhile.symm
  have hall : ∀ s : List Char, (s.takeWhile isBlank).all isBlank = true := fun s => List.all_takeWhile
  rw [List.span_eq_takeWhile_dropWhile] at hblank hword
  dsimp only at hblank hword hequals ⊢
  rw [after?_eq_some.1 hmark, hsplit s₁, after?_eq_some.1 hopen, hsplit s₂, attribute?_eq_some.1 hword, hsplit s₃,
    after?_eq_some.1 hequals, hsplit s₄, hquoted]
  exact .mk (hall _) (hall _) (by simpa using hblank) (hall _) (hall _) hq hqv

theorem directive?_eq_some_iff {comment : List Char} {kind : Attribute} {value : String} :
    directive? comment = some (kind, value) ↔ '\n' ∉ value.toList ∧ Refers kind value.toList comment := by
  refine ⟨refers_of_directive?, fun ⟨hn, h⟩ => ?_⟩
  rw [directive?_of_refers h hn, String.ofList_toList]

/-! ## The directives of a head -/

/-- No comment of a head that is a directive has a line break in its value: it is one of a line. -/
theorem directive?_of_head {a : List Char} {cs : List (List Char)} (h : Head a cs) {comment : List Char} (hc : comment ∈ cs)
    {kind : Attribute} {value : String} :
    directive? comment = some (kind, value) ↔ Refers kind value.toList comment := by
  rw [directive?_eq_some_iff, and_iff_right_iff_imp]
  intro hrefers
  suffices hn : '\n' ∉ comment by
    intro hvalue
    refine hn ?_
    cases hrefers
    simp [hvalue]
  induction h with
  | nil => exact absurd hc List.not_mem_nil
  | space _ _ ih => exact ih hc
  | @line body _ _ hbody _ _ ih =>
    rcases List.mem_cons.1 hc with rfl | hc
    · have hbreak : '\n' ∉ body := fun hn => Bool.noConfusion (List.all_eq_true.1 hbody _ hn)
      simpa using hbreak
    · exact ih hc
  | block _ _ ih =>
    rcases List.mem_cons.1 hc with rfl | hc
    · generalize hcomment : '/' :: '*' :: _ = comment at hrefers
      cases hrefers
      cases hcomment
    · exact ih hc

/-- The values of the directives of a kind among some comments. -/
inductive Values (kind : Attribute) : List (List Char) → List String → Prop
  /-- No comments. -/
  | nil : Values kind [] []
  /-- A directive of the kind. -/
  | take {comment : List Char} {cs : List (List Char)} {value : String} {vs : List String}
    (hc : Refers kind value.toList comment) (h : Values kind cs vs) : Values kind (comment :: cs) (value :: vs)
  /-- Another comment. -/
  | skip {comment : List Char} {cs : List (List Char)} {vs : List String} (hc : ∀ value, ¬ Refers kind value comment)
    (h : Values kind cs vs) : Values kind (comment :: cs) vs

theorem Attribute.beq_iff {k k' : Attribute} : (k == k') = true ↔ k = k' := by
  cases k <;> cases k' <;> decide

theorem values_of_directives {kind : Attribute} {cs : List (List Char)}
    (hcs : ∀ c ∈ cs, ∀ value, directive? c = some (kind, value) ↔ Refers kind value.toList c) :
    Values kind cs (((cs.filterMap directive?).filter (·.1 == kind)).map (·.2)) := by
  induction cs with
  | nil => exact .nil
  | cons c cs ih =>
    have htail := ih fun c' hc' => hcs c' (List.mem_cons_of_mem c hc')
    have hhead := hcs c List.mem_cons_self
    by_cases htake : ∃ value, directive? c = some (kind, value)
    · obtain ⟨value, hvalue⟩ := htake
      rw [List.filterMap_cons_some hvalue, List.filter_cons, if_pos (Attribute.beq_iff.2 rfl), List.map_cons]
      exact .take ((hhead value).1 hvalue) htail
    · have hskip : ((c :: cs).filterMap directive?).filter (·.1 == kind) = (cs.filterMap directive?).filter (·.1 == kind) := by
        rcases hd : directive? c with _ | ⟨k, v⟩
        · rw [List.filterMap_cons_none hd]
        · rw [List.filterMap_cons_some hd, List.filter_cons_of_neg]
          intro hk
          obtain rfl := Attribute.beq_iff.1 hk
          exact htake ⟨v, hd⟩
      rw [hskip]
      refine .skip (fun value hrefers => htake ⟨String.ofList value, (hhead _).2 ?_⟩) htail
      rwa [String.toList_ofList]

/-! ## What a file refers to -/

/-- What a file refers to with directives of a kind. -/
def References.of (r : References) : Attribute → List String
  | .path => r.paths
  | .types => r.types
  | .lib => r.libs

theorem references_of (text : String) (kind : Attribute) :
    (references text).of kind = valuesOf kind (directives text.toList) := by
  cases kind <;> rfl

theorem nodup_eraseDups : ∀ vs : List String, vs.eraseDups.Nodup
  | [] => List.nodup_nil
  | v :: vs => by
    rw [List.eraseDups_cons, List.nodup_cons, List.mem_eraseDups, List.mem_filter]
    exact ⟨fun hv => by simp at hv, nodup_eraseDups (vs.filter fun w => !w == v)⟩
termination_by vs => vs.length
decreasing_by exact Nat.lt_succ_of_le (List.length_filter_le _ vs)

theorem directives_append {a : List Char} {cs : List (List Char)} (h : Head a cs) {b : List Char} (hb : Headless b)
    (hend : b = [] ∨ EndsInBreak a) : directives (a ++ b) = cs.filterMap directive? := by
  rw [directives, headComments_append h hb hend (Nat.le_succ _)]

/-- A declaration file with a head refers to what the directives of its head name, whatever stands behind the head: the values of
the comments that are directives of a kind, each where it occurs first. What any file refers to is listed once, and no import
has the empty name. -/
theorem references_of_head :
    (∀ (a b : List Char) (cs : List (List Char)), Head a cs → EndsInBreak a → Headless b → ∀ kind,
      (references (String.ofList (a ++ b))).of kind = (references (String.ofList a)).of kind ∧
      ∃ vs, Values kind cs vs ∧ (references (String.ofList a)).of kind = vs.eraseDups) ∧
    ∀ text, (references text).imports.Nodup ∧ "" ∉ (references text).imports ∧ ∀ kind, ((references text).of kind).Nodup := by
  constructor
  · intro a b cs h hend hb kind
    have hlong := directives_append h hb (.inr hend)
    have hshort := directives_append h headless_nil (.inl rfl)
    rw [List.append_nil] at hshort
    rw [references_of, references_of, String.toList_ofList, String.toList_ofList, hlong, hshort]
    exact ⟨rfl, _, values_of_directives fun c hc value => directive?_of_head h hc, rfl⟩
  · intro text
    refine ⟨?_, fun hempty => (imports_isInfix hempty).1 rfl, fun kind => ?_⟩
    · rw [references_imports]
      exact nodup_eraseDups _
    · rw [references_of]
      exact nodup_eraseDups _

/-- A head whose two directives name one file, before a script that names another one and does not end. -/
theorem references_of_head_twice :
    let once := " <reference path='a.d.ts'/>".toList
    let again := " <reference path=\"a.d.ts\"".toList
    let head := '/' :: '/' :: ('/' :: once ++ '\n' :: '/' :: '/' :: ('/' :: again ++ ['\n']))
    let script := "f(`\n/// <reference path='b.d.ts'/>\n".toList
    (Head head ['/' :: '/' :: '/' :: once, '/' :: '/' :: '/' :: again] ∧ EndsInBreak head ∧ Headless script) ∧
      (references (String.ofList (head ++ script))).of .path = ["a.d.ts"] := by
  intro once again head script
  have hhead : Head head ['/' :: '/' :: '/' :: once, '/' :: '/' :: '/' :: again] := by
    refine @Head.line ('/' :: once) _ _ (by decide) (by rintro c ⟨⟩; rfl) (.space rfl ?_)
    exact @Head.line ('/' :: again) _ _ (by decide) (by rintro c ⟨⟩; rfl) (.space rfl .nil)
  have hend : EndsInBreak head := by
    rintro c ⟨⟩
    rfl
  have hfirst : script.head? = some 'f' := rfl
  have hscript : Headless script := by
    refine ⟨by rintro c ⟨⟩; rfl, by decide, fun r hr => ?_⟩
    rw [hr] at hfirst
    cases hfirst
  refine ⟨⟨hhead, hend, hscript⟩, ?_⟩
  obtain ⟨hsame, -⟩ := references_of_head.1 head script _ hhead hend hscript .path
  refine hsame.trans ?_
  rw [references_of, String.toList_ofList]
  decide

end BareImports.Script
