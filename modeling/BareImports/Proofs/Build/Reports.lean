import BareImports.Proofs.Build.Splicing

/-!
# Where the problems of a script are reported

* `offset_ofOffset` : the place of an offset of a text leads back to it;
* `decimal?_toDigits`, `placeIn?_positioned` : a message that is written with a place ends with it;
* `Locates s o e d`, `LocatesFault s d` : a specifier that failed, or the first fault, is reported where it stands in a text;
* `scripts_reported` : behind a batch, so are all problems of its scripts.
-/

namespace BareImports.Build

open Text Script

variable {s : List Char} {f : File}

/-! ## Places -/

theorem lineStart_append (t u : List Char) : lineStart (t ++ '\n' :: u) (t.count '\n' + 1) = t.length + 1 := by
  induction t with
  | nil =>
    cases u <;> simp [lineStart]
  | cons c t ih =>
    by_cases hc : c = '\n'
    · subst hc
      rw [List.count_cons_self, List.cons_append, lineStart, if_pos (by decide), ih, List.length_cons]
    · rw [List.count_cons_of_ne hc, List.cons_append, lineStart, if_neg (by simpa using hc), ih, List.length_cons]

theorem sinceLineFeed_append {t u : List Char} (hu : '\n' ∉ u) : sinceLineFeed (t ++ '\n' :: u) = u.length := by
  have htake : (u.reverse ++ '\n' :: t.reverse).takeWhile (· != '\n') = u.reverse := by
    rw [List.takeWhile_append_of_pos (by simpa using fun c hc => ne_of_mem_of_not_mem hc hu)]
    simp
  unfold sinceLineFeed
  rw [List.reverse_append, List.reverse_cons, List.append_assoc, List.singleton_append, htake, List.length_reverse]

/-- The place of an offset of a text leads back to the offset. -/
theorem offset_ofOffset {n : Nat} (hn : n ≤ s.length) : (Place.ofOffset s n).offset s = n := by
  have hlength : (s.take n).length = n := by simpa using hn
  unfold Place.offset Place.ofOffset
  dsimp only
  rw [hlength, Nat.sub_self, Nat.add_zero]
  by_cases hmem : '\n' ∈ s.take n
  · -- the last line feed before the offset
    obtain ⟨u, t, hut, hu⟩ := List.eq_append_cons_of_mem (List.mem_reverse.2 hmem)
    have htake : s.take n = t.reverse ++ '\n' :: u.reverse := by
      rw [← List.reverse_reverse (s.take n), hut]
      simp
    have hs : s = t.reverse ++ '\n' :: (u.reverse ++ s.drop n) := by
      conv_lhs => rw [← List.take_append_drop n s, htake]
      simp
    have hcount : (s.take n).count '\n' = t.reverse.count '\n' + 1 := by
      rw [htake, List.count_append, List.count_cons_self, List.count_eq_zero.2 (mt List.mem_reverse.1 hu), Nat.zero_add]
    have hlen : t.length + 1 + u.length = n := by
      rw [htake] at hlength
      simp at hlength
      omega
    rw [hcount, htake, sinceLineFeed_append (by simpa using hu)]
    conv_lhs => rw [hs]
    rw [lineStart_append]
    simpa using hlen
  · have hall : (s.take n).reverse.takeWhile (· != '\n') = (s.take n).reverse :=
      List.takeWhile_eq_self_iff.2 fun c hc => by simpa using ne_of_mem_of_not_mem (List.mem_reverse.1 hc) hmem
    rw [List.count_eq_zero.2 hmem]
    unfold sinceLineFeed
    rw [hall, List.length_reverse, hlength]
    simp [lineStart]

/-- The failure of a specifier is told with the range that leads back to where the specifier stands in a text. -/
structure Locates (s : List Char) (o : Open) (e : Failure) (d : Diagnostic) : Prop where
  /-- It stands there, under its name. -/
  stands : o.span.Stands s ∧ o.span.name = some o.name
  /-- What is told. -/
  message : d.message = "Could not resolve module \"" ++ o.name ++ "\": " ++ e.message
  /-- The range begins where the specifier does. -/
  start : d.range.start.offset s = o.span.start
  /-- It ends where the specifier does. -/
  stop : d.range.stop.offset s = o.span.stop

theorem locates_report {o : Open} (h : o.span.Stands s ∧ o.span.name = some o.name) (e : Failure) :
    Locates s o e (Rewriting.report s o e) :=
  ⟨h, rfl, offset_ofOffset (h.1.le.1.trans h.1.le.2), offset_ofOffset h.1.le.2⟩

/-! ## Places in messages -/

theorem digitValue?_of_isDigit {c : Char} (h : c.isDigit = true) : digitValue? c = some (c.toNat - 48) := by
  have hrange : 48 ≤ c.toNat ∧ c.toNat ≤ 57 := by
    simp only [Char.isDigit, Bool.and_eq_true, decide_eq_true_eq] at h
    exact ⟨UInt32.le_iff_toNat_le.1 h.1, UInt32.le_iff_toNat_le.1 h.2⟩
  have hfirst : (decide (48 ≤ c.toNat) && decide (c.toNat < 48 + 10)) = true := by
    rw [Bool.and_eq_true, decide_eq_true_eq, decide_eq_true_eq]
    omega
  obtain ⟨zeros, hzeros⟩ : ∃ zeros, DecimalDigit.zeros = 48 :: zeros := ⟨_, rfl⟩
  unfold digitValue?
  rw [hzeros, List.find?_cons, hfirst]
  rfl

theorem ofDigits_map (l : List Char) (n : Nat) :
    (l.map (·.toNat - 48)).foldl (fun n d => n * 10 + d) n = Nat.ofDigitChars 10 l n := by
  induction l generalizing n with
  | nil => rfl
  | cons c l ih =>
    rw [List.map_cons, List.foldl_cons, ih, Nat.mul_comm]
    rfl

/-- The digits of a number write it. -/
theorem decimal?_toDigits (n : Nat) : decimal? (Nat.toDigits 10 n) = some n := by
  have hall : ∀ c ∈ Nat.toDigits 10 n, digitValue? c = some (c.toNat - 48) := fun c hc =>
    digitValue?_of_isDigit (Nat.isDigit_of_mem_toDigits (by decide) (by decide) hc)
  have hmap : (Nat.toDigits 10 n).mapM digitValue? = some ((Nat.toDigits 10 n).map (·.toNat - 48)) := by
    generalize Nat.toDigits 10 n = l at hall
    induction l with
    | nil => rfl
    | cons c l ih =>
      rw [List.mapM_cons, hall c List.mem_cons_self, ih fun c' hc' => hall c' (List.mem_cons_of_mem _ hc')]
      rfl
  have hne : (Nat.toDigits 10 n).isEmpty = false := List.isEmpty_eq_false_iff.2 Nat.toDigits_ne_nil
  unfold decimal?
  rw [hmap, hne, Option.map_some, Number.ofDigits, ofDigits_map, Nat.ofDigitChars_ten_toDigits]
  rfl

theorem cutLast?_append {c : Char} {l r : List Char} (h : c ∉ r) : cutLast? c (l ++ c :: r) = some (l, r) := by
  have hcut : ∀ {a : List Char}, c ∉ a → cut? c (a ++ c :: l.reverse) = some (a, l.reverse) := by
    intro a ha
    unfold cut?
    induction a with
    | nil => simp [cutWhere?]
    | cons x a ih =>
      rw [List.cons_append, cutWhere?, if_neg (by simpa using Ne.symm (List.ne_of_not_mem_cons ha)),
        ih fun hmem => ha (List.mem_cons_of_mem _ hmem)]
      rfl
  unfold cutLast?
  rw [List.reverse_append, List.reverse_cons, List.append_assoc, List.singleton_append, hcut (by simpa using h)]
  simp

/-- A message that is written with a line and a column ends with them. -/
theorem placeIn?_positioned (message : String) (line column : Nat) :
    placeIn? (positioned message (line + 1) (column + 1)).toList = some ⟨line, column⟩ := by
  have hdigits : ∀ n : Nat, (toString ((n : Int) + 1)).toList = Nat.toDigits 10 (n + 1) := by
    intro n
    rw [show (n : Int) + 1 = ((n + 1 : Nat) : Int) from rfl, Int.toString_eq_repr]
    exact String.toList_ofList
  have hnot : ∀ (n : Nat) (c : Char), c.isDigit = false → c ∉ Nat.toDigits 10 n := fun n c hc hmem =>
    absurd (Nat.isDigit_of_mem_toDigits (by decide) (by decide) hmem) (by simp [hc])
  have htext : (positioned message (line + 1) (column + 1)).toList =
      (message.toList ++ [' ', '@'] ++ ':' :: Nat.toDigits 10 (line + 1)) ++ ':' :: Nat.toDigits 10 (column + 1) := by
    unfold positioned
    simp only [String.toList_append, hdigits]
    simp
  have hend : Version.dropFinalLineFeed (positioned message (line + 1) (column + 1)).toList =
      (positioned message (line + 1) (column + 1)).toList := by
    refine if_neg fun h => ?_
    obtain ⟨t, ht⟩ := List.isSuffixOf_iff_suffix.1 h
    have hlast := congrArg List.getLast? ht
    rw [htext, List.getLast?_append, List.getLast?_append, List.getLast?_cons,
      List.getLast?_eq_some_getLast Nat.toDigits_ne_nil] at hlast
    have heq : '\n' = (Nat.toDigits 10 (column + 1)).getLast Nat.toDigits_ne_nil := by simpa using hlast
    exact hnot (column + 1) '\n' (by decide) (heq ▸ List.getLast_mem _)
  unfold placeIn?
  rw [hend, htext, cutLast?_append (hnot _ ':' (by decide))]
  dsimp only [Option.bind_eq_bind, Option.bind_some]
  rw [cutLast?_append (hnot _ ':' (by decide))]
  dsimp only [Option.bind_some]
  rw [decimal?_toDigits, decimal?_toDigits]
  simp

/-! ## Faults -/

/-- The offset of the first fault of a tree, or of the tree if none is shown. -/
def faultOffset (t : Tree) : Nat := (t.firstFault? 0).getD t.facts.gap.chars

/-- A text is no script, and that is told with the place of the first fault of its tree. -/
structure LocatesFault (s : List Char) (d : Diagnostic) : Prop where
  /-- The tree of the text has faults. -/
  cost : 0 < (parse .plain s).facts.cost
  /-- What is told ends with the place. -/
  message : d.message = "Module syntax error: " ++ positioned "Unexpected syntax" (d.range.start.line + 1) (d.range.start.character + 1)
  /-- The place is that of the fault. -/
  start : d.range.start = .ofOffset s (faultOffset (parse .plain s))
  /-- The range spans one character. -/
  stop : d.range.stop = { d.range.start with character := d.range.start.character + 1 }

/-- The report of a fault has its place, although it is read from the message. -/
theorem syntaxReport_eq (e : SyntaxFault) : syntaxReport e =
    { message := "Module syntax error: " ++ e.message
      range := ⟨e.place, { e.place with character := e.place.character + 1 }⟩ } := by
  have hplace : placeIn? e.message.toList = some e.place := placeIn?_positioned _ _ _
  unfold syntaxReport
  rw [hplace]
  rfl

theorem locatesFault_report {text : String} {e : SyntaxFault} (h : Script.imports text = .error e) :
    LocatesFault text.toList (syntaxReport e) := by
  unfold Script.imports importsOf at h
  dsimp only at h
  split at h
  · next hcost =>
    obtain rfl := Except.error.inj h
    rw [syntaxReport_eq]
    exact ⟨hcost, rfl, rfl, rfl⟩
  · exact absurd h (by simp)

/-! ## The problems of a batch -/

namespace Run

variable {r : Run} {ms : List Move} {i : Nat} {items : List Output} {fails : Bool}

/-- All problems of a script were told. -/
inductive Told (r : Run) (ms : List Move) (i : Nat) (f : File) : Prop
  /-- It cannot be read, and its first fault was told. -/
  | unread {d : Diagnostic} (h : LocatesFault f.content.toList d) (hd : .diagnostic f.name d ∈ r.taken ms)
  /-- Each named specifier has come to a result, and each failure was told. -/
  | read {imports : List Import} {results : List (Open × Except Failure String)} (h : Script.imports f.content = .ok imports)
    (hall : results.map (·.1) = (Rewriting.start r.map f imports).left) (hcame : ∀ e ∈ results, Came r ms i e.1 e.2)
    (htold : ∀ o e, (o, .error e) ∈ results → ∃ d, Locates f.content.toList o e d ∧ .diagnostic f.name d ∈ r.taken ms)

/-- What is told of a script is its first fault, or the failure of one of its specifiers. -/
inductive Problem (r : Run) (ms : List Move) (i : Nat) (f : File) (d : Diagnostic) : Prop
  /-- The script cannot be read. -/
  | fault (h : LocatesFault f.content.toList d)
  /-- A specifier has come to a failure. -/
  | failure {o : Open} {e : Failure} (hcame : Came r ms i o (.error e)) (h : Locates f.content.toList o e d)

/-- A report of specifiers that have come to results is that of a failure. -/
theorem mem_rewritten {map : ImportMap} {imports : List Import} {results : List (Open × Except Failure String)}
    (h : Script.imports f.content = .ok imports) (hall : results.map (·.1) <+: (Rewriting.start map f imports).left) :
    (∀ o e, (o, .error e) ∈ results → Locates f.content.toList o e (Rewriting.report f.content.toList o e) ∧
      .diagnostic f.name (Rewriting.report f.content.toList o e) ∈ (rewritten f results).2) ∧
    ∀ out ∈ (rewritten f results).2, ∃ o e, (o, .error e) ∈ results ∧
      out = .diagnostic f.name (Rewriting.report f.content.toList o e) := by
  obtain ⟨rest, hrest⟩ := hall
  have hstart := @start_descending f map imports _ h
  have hdescending : Descending f.content.toList (results.map (·.1)) :=
    ⟨fun o ho => hstart.stands o (hrest ▸ List.mem_append_left _ ho), hstart.apart.sublist (hrest ▸ List.sublist_append_left _ _)⟩
  rw [rewritten_reports_eq hdescending]
  refine ⟨fun o e he => ⟨locates_report (hdescending.stands o (List.mem_map_of_mem he)) e, ?_⟩, fun out hout => ?_⟩
  · exact List.mem_map.2 ⟨(o, e), List.mem_filterMap.2 ⟨_, he, rfl⟩, rfl⟩
  · obtain ⟨⟨o, e⟩, he, rfl⟩ := List.mem_map.1 hout
    obtain ⟨⟨o', x⟩, hx, heq⟩ := List.mem_filterMap.1 he
    cases x with
    | ok t => exact absurd heq (by simp)
    | error e' =>
      obtain ⟨rfl, rfl⟩ := Prod.mk.inj (Option.some.inj heq)
      exact ⟨_, _, hx, rfl⟩

/-- A diagnostic that is given is passed on, or it is a problem of a script. -/
theorem gave_problem {name : String} {d : Diagnostic} (h : (r.begin items fails).Gave ms i (.diagnostic name d)) :
    .diagnostic name d ∈ items ∨ ∃ f m, (r.begin items fails).Was ms i (.script f m) ∧ f.name = name ∧
      Problem (r.begin items fails) ms i f d := by
  have hcomes : ∀ i p, (r.begin items fails).producers[i]? = some p → (r.begin items fails).Comes items [] i p := by
    intro i p hp
    obtain rfl : p = .source items fails := by simpa [begin, spawn] using List.mem_of_getElem? hp
    exact fun o ho => ho
  have hnone := not_rewriting_begin r items fails
  generalize r.begin items fails = r₀ at h hcomes hnone
  obtain ⟨before, m, t, hb, ht, ho⟩ := h
  have hbefore : before <+: ms := (List.prefix_append before [m]).trans hb
  have hi := ht.before
  have hfrom := comes_play hcomes before i _ hi
  have hacts := ht.acts
  clear ht
  generalize hr : r₀.play before = r' at hacts
  cases hacts with
  | report =>
    rw [List.mem_singleton.1 ho]
    exact Or.inl (hfrom _ List.mem_cons_self)
  | manifest => exact absurd (List.mem_singleton.1 ho) (by simp)
  | copy => exact absurd (List.mem_singleton.1 ho) (by simp)
  | give => exact absurd (List.mem_singleton.1 ho) (by simp [Rewriting.output])
  | @fault f m' e he =>
    obtain ⟨rfl, rfl⟩ : name = f.name ∧ d = syntaxReport e := by simpa using ho
    exact Or.inr ⟨f, m', ⟨before, hbefore, hi⟩, rfl, .fault (locatesFault_report he)⟩
  | @settle w w' m' o hs =>
    obtain rfl : o = some (.diagnostic name d) := Option.mem_toList.1 ho
    obtain ⟨f, m'', hf⟩ := was_script hnone before i w m' hi
    cases reading_of_was hf with
    | unread hu => exact absurd (Option.some.inj (hu.symm.trans hi)) (by simp)
    | wrote hu => exact absurd (Option.some.inj (hu.symm.trans hi)) (by simp)
    | @writes w₁ m₁ given imports results rest hu hw =>
      obtain ⟨rfl, rfl⟩ := Producer.rewriting.inj (Option.some.inj (hu.symm.trans hi))
      obtain ⟨results', rest', hw'⟩ := hw.settle hi hs
      have hmem : .diagnostic name d ∈ (rewritten f results').2 := by
        rw [hw'.state]
        exact List.mem_append_right _ (List.mem_singleton_self _)
      obtain ⟨hlocates, hreports⟩ := mem_rewritten hw'.read ⟨rest', hw'.all⟩
      obtain ⟨o, e, he, heq⟩ := hreports _ hmem
      obtain ⟨rfl, rfl⟩ := Output.diagnostic.inj heq
      exact Or.inr ⟨f, m'', hf.mono hbefore, rfl, .failure ((hw'.came _ he).mono hbefore) (hlocates o e he).1⟩
  | _ => exact absurd ho (by simp)

/-- Behind a batch all problems of every script were told, each where it stands in the script as it was, and every diagnostic
that is given is such a one or was passed on. -/
theorem scripts_reported {map : ImportMap} {url : String} (hr : Between map url r) (items : List Output) (fails : Bool)
    (ms : List Move) :
    (((r.begin items fails).play ms).merge.isOver = true → ∀ i f m, (r.begin items fails).Was ms i (.script f m) →
      Told (r.begin items fails) ms i f) ∧
    ∀ name d, .diagnostic name d ∈ (r.begin items fails).taken ms → .diagnostic name d ∈ items ∨
      ∃ i f m, (r.begin items fails).Was ms i (.script f m) ∧ f.name = name ∧ Problem (r.begin items fails) ms i f d := by
  obtain ⟨hc, hm, hd⟩ := hr.rests
  have hs := sound_begin hc hm hd items fails
  constructor
  · intro hover i f m hwas
    obtain ⟨given, hwrote, hgiven⟩ := wrote_of_was hs hover hwas
    cases hwrote with
    | fault he => exact .unread (locatesFault_report he) (hgiven _ (List.mem_cons_of_mem _ List.mem_cons_self))
    | rewritten h hall hcame =>
      have hreports := (mem_rewritten h ⟨[], (List.append_nil _).trans hall⟩).1
      refine .read h hall hcame fun o e he => ?_
      obtain ⟨hlocates, hmem⟩ := hreports o e he
      exact ⟨_, hlocates, hgiven _ (List.mem_append_left _ hmem)⟩
  · intro name d hd
    have hqueue : (r.begin items fails).merge.queue = [] := by
      show r.merge.queue = []
      rw [hm]
    obtain ⟨i, hgave⟩ := (gave_of_queue hqueue ms).1 _ hd
    exact (gave_problem hgave).imp_right fun ⟨f, m, hwas, hname, hproblem⟩ => ⟨i, f, m, hwas, hname, hproblem⟩

/-- A script of a project that is none. -/
def scrawl : File := { name := "index.js", content := letter }

/-- The state in which it is given. -/
def unopened : Run := begin { map := {}, cache := .empty "https://cdn.test/" } [.file scrawl] false

/-- The moves until the stream is over. -/
def refusing : List Build.Move := [.produce 0, .produce 1] ++ (.produce 0 :: List.replicate 5 .take)

/-- The moves of a script whose dependency is not to be had. -/
def stumbling : List Build.Move := [.produce 0, .produce 1] ++ ([.resolve 1 1, .answer 0 (.error (.unexpected "closed")),
  .resolve 1 1, .produce 1, .produce 1, .produce 1, .produce 0] ++ List.replicate 4 .take)

/-- The fault of a text that is no script is told, and so is the failure of a dependency that is not to be had. -/
theorem scripts_reported_scrawl : Told unopened refusing 1 scrawl ∧ Told opened stumbling 1 notebook := by
  constructor
  · have hscript : (unopened.step (.produce 0)).producers[1]? = some (.script scrawl .project) := rfl
    have hread : (unopened.step (.produce 0)).step (.produce 1) =
        (unopened.step (.produce 0)).takeScript 1 scrawl .project (.error ⟨0, ⟨0, 0⟩⟩) := by
      rw [produce_script hscript]
      exact congrArg _ imports_letter
    have hover : (unopened.play refusing).merge.isOver = true := by
      rw [refusing, play_opening, hread]
      decide +kernel
    exact (scripts_reported (.fresh : Between {} "https://cdn.test/" _) [.file scrawl] false refusing).1 hover 1 scrawl
      .project ⟨[.produce 0], by simp [refusing], rfl⟩
  · have hover : (opened.play stumbling).merge.isOver = true := by
      rw [stumbling, play_opening, step_parsed]
      decide +kernel
    exact (scripts_reported (.fresh : Between {} "https://cdn.test/" _) [.file notebook] false stumbling).1 hover 1 notebook
      .project ⟨[.produce 0], by simp [stumbling], rfl⟩

end Run

end BareImports.Build
