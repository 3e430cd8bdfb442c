import BareImports.Proofs.Build.Links
import BareImports.Proofs.Script.Spans
import BareImports.Proofs.Text.Exchange

/-!
# What a script is rewritten to

* `splice_exchange` : a splice before all other exchanges of a text is one more exchange;
* `Descending s os` : specifiers that stand in a text, each behind the next one; `start_descending` : so do those of a script;
* `edits`, `rewritten_exchange`, `rewritten_reports_eq` : specifiers that are replaced and reported one after the other are
  exchanged in the original text and reported where they stand in it;
* `scripts_spliced` : behind a batch, so is every script.
-/

namespace BareImports.Build

open Text Script

variable {s : List Char} {f : File}

/-! ## Splices -/

/-- A splice before all other exchanges is one more exchange. -/
theorem splice_exchange {e : Edit} (hle : e.start ≤ e.stop) (hs : e.stop ≤ s.length) {es : List Edit}
    (hes : ∀ e' ∈ es, e.stop ≤ e'.start) : splice (exchange s 0 es) e.start e.stop e.text = exchange s 0 (e :: es) := by
  have htake := take_exchange (hle.trans hs) fun e' he' => hle.trans (hes e' he')
  have hdrop : (exchange s 0 es).drop e.stop = exchange s e.stop es := by
    rw [exchange_split (Nat.zero_le _) hs hes, List.drop_zero, List.drop_append_of_le_length (by simpa using hs)]
    simp
  unfold splice
  rw [htake, hdrop]
  rfl

/-! ## The specifiers of a script -/

/-- Specifiers that stand in a text, each behind the next one. -/
structure Descending (s : List Char) (os : List Open) : Prop where
  /-- Each stands in the text, under its name. -/
  stands : ∀ o ∈ os, o.span.Stands s ∧ o.span.name = some o.name
  /-- Each is behind the next ones. -/
  apart : os.Pairwise fun o o' => o'.span.Before o.span

/-- The named specifiers of a script are left to be replaced, the last one first. -/
theorem start_descending {map : ImportMap} {imports : List Import} {t : Tree} (h : importsOf f.content.toList t = .ok imports) :
    Descending f.content.toList (Rewriting.start map f imports).left := by
  obtain ⟨hstand, hordered⟩ := importsOf_stand h
  have hopen : ∀ i ∈ imports, ∀ o, (i.name.map fun name => (⟨name, i, .ofSpecifier map f.name name⟩ : Open)) = some o →
      o.span = i ∧ i.name = some o.name := by
    intro i _ o ho
    obtain ⟨name, hname, rfl⟩ := Option.map_eq_some_iff.1 ho
    exact ⟨rfl, hname⟩
  refine ⟨fun o ho => ?_, ?_⟩
  · obtain ⟨i, hi, ho⟩ := List.mem_filterMap.1 ho
    obtain ⟨hspan, hname⟩ := hopen i (List.mem_reverse.1 hi) o ho
    exact hspan ▸ ⟨hstand i (List.mem_reverse.1 hi), hname⟩
  · rw [List.pairwise_filter] at hordered
    refine List.Pairwise.filterMap _ ?_ (List.pairwise_reverse.2 (List.Pairwise.and_mem.1 hordered))
    rintro i j ⟨hj, hi, hij⟩ o ho o' ho'
    obtain ⟨rfl, hname⟩ := hopen i hi o ho
    obtain ⟨rfl, hname'⟩ := hopen j hj o' ho'
    have hbefore := hij (by simp [hname']) (by simp [hname])
    exact (hstand _ hj).before (by simp [hname']) hbefore

/-! ## What has become of them -/

/-- The exchange that a specifier with its result asks for. -/
def edit? : Open × Except Failure String → Option Edit
  | (o, .ok target) => if target == o.name then none else some ⟨o.span.start, o.span.stop, Rewriting.replacement o target⟩
  | (_, .error _) => none

/-- The exchanges that specifiers ask for, in the order of the text. -/
def edits (results : List (Open × Except Failure String)) : List Edit := (results.filterMap edit?).reverse

theorem edits_concat (results : List (Open × Except Failure String)) (e : Open × Except Failure String) :
    edits (results ++ [e]) = (edit? e).toList ++ edits results := by
  unfold edits
  rw [List.filterMap_append, List.reverse_append]
  rcases h : edit? e with _ | x <;> simp [h]

/-- An exchange is that of a specifier and spans it. -/
theorem mem_edits {results : List (Open × Except Failure String)} {x : Edit} (h : x ∈ edits results) :
    ∃ o ∈ results.map (·.1), x.start = o.span.start ∧ x.stop = o.span.stop := by
  obtain ⟨⟨o, r⟩, he, hx⟩ := List.mem_filterMap.1 (List.mem_reverse.1 h)
  refine ⟨o, List.mem_map.2 ⟨_, he, rfl⟩, ?_⟩
  cases r with
  | error e => exact absurd hx (by simp [edit?])
  | ok target =>
    simp only [edit?] at hx
    split at hx
    · exact absurd hx (by simp)
    · rw [← Option.some.inj hx]
      exact ⟨rfl, rfl⟩

theorem Descending.init {os : List Open} {o : Open} (h : Descending s (os ++ [o])) : Descending s os :=
  ⟨fun o' ho' => h.stands o' (List.mem_append_left _ ho'), (List.pairwise_append.1 h.apart).1⟩

/-- What was exchanged before stands behind a specifier. -/
theorem Descending.le_start {results : List (Open × Except Failure String)} {o : Open}
    (h : Descending s (results.map (·.1) ++ [o])) : ∀ x ∈ edits results, o.span.stop ≤ x.start := by
  intro x hx
  obtain ⟨o', ho', hstart, -⟩ := mem_edits hx
  rw [hstart]
  exact ((List.pairwise_append.1 h.apart).2.2 o' ho' o (List.mem_singleton_self o)).stop

/-- Specifiers that are replaced one after the other, from the last one to the first, are exchanged in the original text. -/
theorem rewritten_exchange {results : List (Open × Except Failure String)}
    (h : Descending f.content.toList (results.map (·.1))) :
    (rewritten f results).1 = exchange f.content.toList 0 (edits results) := by
  induction results using List.reverseRecOn with
  | nil => rfl
  | append_singleton results e ih =>
    obtain ⟨o, x⟩ := e
    rw [List.map_append] at h
    have htext := ih h.init
    rw [rewritten_concat, edits_concat]
    cases x with
    | error e => exact htext
    | ok target =>
      simp only [advance, edit?]
      split
      · exact htext
      · obtain ⟨hle, hlength⟩ := (h.stands o (by simp)).1.le
        rw [htext]
        exact @splice_exchange _ ⟨o.span.start, o.span.stop, Rewriting.replacement o target⟩ hle hlength _ h.le_start

/-- A range is told by the text before its end. -/
theorem ofOffsets_congr {t : List Char} {start stop : Nat} (hle : start ≤ stop) (h : t.take stop = s.take stop) :
    Span.ofOffsets t start stop = Span.ofOffsets s start stop := by
  have hstart : t.take start = s.take start := by
    have htake := congrArg (List.take start) h
    rwa [List.take_take, List.take_take, Nat.min_eq_left hle] at htake
  simp only [Span.ofOffsets, Place.ofOffset, h, hstart]

/-- Specifiers that come to failures are reported where they stand in the original text. -/
theorem rewritten_reports_eq {results : List (Open × Except Failure String)}
    (h : Descending f.content.toList (results.map (·.1))) :
    (rewritten f results).2 = (failures results).map fun e =>
      .diagnostic f.name (Rewriting.report f.content.toList e.1 e.2) := by
  induction results using List.reverseRecOn with
  | nil => rfl
  | append_singleton results e ih =>
    obtain ⟨o, x⟩ := e
    rw [List.map_append] at h
    have hreports := ih h.init
    rw [rewritten_concat, failures, List.filterMap_append, List.map_append]
    cases x with
    | ok target =>
      rw [List.filterMap_cons, List.filterMap_nil, List.map_nil, List.append_nil]
      exact hreports
    | error e =>
      obtain ⟨hle, hlength⟩ := (h.stands o (by simp)).1.le
      have hrange : Span.ofOffsets (rewritten f results).1 o.span.start o.span.stop =
          Span.ofOffsets f.content.toList o.span.start o.span.stop := by
        rw [rewritten_exchange h.init]
        exact ofOffsets_congr hle (take_exchange hlength h.le_start)
      have hreport : Rewriting.report (rewritten f results).1 o e = Rewriting.report f.content.toList o e := by
        unfold Rewriting.report
        rw [hrange]
      exact congrArg₂ (· ++ [.diagnostic f.name ·]) hreports hreport

/-! ## The scripts of a batch -/

namespace Run

variable {r : Run} {ms : List Move} {i : Nat} {items : List Output} {fails : Bool}

/-- The file that a script is given as. -/
inductive Rewritten (r : Run) (ms : List Move) (i : Nat) (f : File) : File → Prop
  /-- A script that cannot be read is given as it is. -/
  | unread {e : SyntaxFault} (h : Script.imports f.content = .error e) : Rewritten r ms i f f
  /-- Each named specifier has come to a result, and stands in the script with its quotes. The script is given with the
  spans of those that are replaced exchanged, one behind the other, and all gaps as they are. -/
  | spliced {imports : List Import} {results : List (Open × Except Failure String)}
    (h : Script.imports f.content = .ok imports) (hall : results.map (·.1) = (Rewriting.start r.map f imports).left)
    (hcame : ∀ e ∈ results, Came r ms i e.1 e.2)
    (hstands : ∀ e ∈ results, e.1.span ∈ imports ∧ e.1.span.Stands f.content.toList)
    (hapart : (edits results).Pairwise fun e e' => e.stop ≤ e'.start) :
    Rewritten r ms i f { f with content := String.ofList (exchange f.content.toList 0 (edits results)) }

theorem mem_of_start {map : ImportMap} {imports : List Import} {o : Open} (h : o ∈ (Rewriting.start map f imports).left) :
    o.span ∈ imports := by
  obtain ⟨j, hj, ho⟩ := List.mem_filterMap.1 h
  obtain ⟨name, -, rfl⟩ := Option.map_eq_some_iff.1 ho
  exact List.mem_reverse.1 hj

/-- Exchanges are in the order of the text. -/
theorem edits_apart {results : List (Open × Except Failure String)} (h : Descending s (results.map (·.1))) :
    (edits results).Pairwise fun e e' => e.stop ≤ e'.start := by
  induction results using List.reverseRecOn with
  | nil => exact .nil
  | append_singleton results e ih =>
    rw [List.map_append] at h
    rw [edits_concat, List.pairwise_append]
    refine ⟨by cases edit? e <;> simp, ih h.init, fun x hx y hy => ?_⟩
    have hmem : x ∈ edits [e] := by
      unfold edits
      cases hedit : edit? e <;> simp_all
    obtain ⟨o, ho, -, hstop⟩ := mem_edits hmem
    obtain rfl := List.mem_singleton.1 ho
    rw [hstop]
    exact h.le_start y hy

/-- What a script gives ends in the file that it is given as, and no other one. -/
theorem Wrote.rewrites {given : List Output} (h : Wrote r ms i f given) :
    ∃ g, Rewritten r ms i f g ∧ .file g ∈ given ∧ ∀ g', .file g' ∈ given → g' = g := by
  cases h with
  | fault h => exact ⟨f, .unread h, List.mem_cons_self, fun g' hg' => by simpa using hg'⟩
  | @rewritten imports results h hall hcame =>
    have hdescending := @start_descending f r.map imports _ h
    rw [← hall] at hdescending
    refine ⟨_, .spliced h hall hcame (fun e he => ?_) (edits_apart hdescending), ?_, fun g' hg' => ?_⟩
    · have hmem : e.1 ∈ results.map (·.1) := List.mem_map_of_mem he
      exact ⟨mem_of_start (hall ▸ hmem), (hdescending.stands _ hmem).1⟩
    · rw [rewritten_exchange hdescending]
      exact List.mem_append_right _ (List.mem_singleton_self _)
    · rw [rewritten_exchange hdescending, rewritten_reports_eq hdescending] at hg'
      rcases List.mem_append.1 hg' with hg' | hg'
      · obtain ⟨e, -, he⟩ := List.mem_map.1 hg'
        exact absurd he (by simp)
      · exact Output.file.inj (List.mem_singleton.1 hg')

/-- Behind a batch every script was given with exactly the spans exchanged that are replaced, in whatever order its specifiers
came to their results, and every file that is given is such a one or was passed on. -/
theorem scripts_spliced {map : ImportMap} {url : String} (hr : Between map url r) (items : List Output) (fails : Bool)
    (ms : List Move) :
    (((r.begin items fails).play ms).merge.isOver = true → ∀ i f m, (r.begin items fails).Was ms i (.script f m) →
      ∃ g, Rewritten (r.begin items fails) ms i f g ∧ .file g ∈ (r.begin items fails).taken ms) ∧
    ∀ g, .file g ∈ (r.begin items fails).taken ms → (.file g ∈ items ∧ isScript g = false) ∨
      ∃ i f m, (r.begin items fails).Was ms i (.script f m) ∧ Rewritten (r.begin items fails) ms i f g := by
  obtain ⟨hc, hm, hd⟩ := hr.rests
  have hs := sound_begin hc hm hd items fails
  constructor
  · intro hover i f m hwas
    obtain ⟨given, hwrote, hgiven⟩ := wrote_of_was hs hover hwas
    obtain ⟨g, hg, hmem, -⟩ := hwrote.rewrites
    exact ⟨g, hg, hgiven _ hmem⟩
  · intro g hg
    have hqueue : (r.begin items fails).merge.queue = [] := by
      show r.merge.queue = []
      rw [hm]
    obtain ⟨i, hgave⟩ := (gave_of_queue hqueue ms).1 _ hg
    refine (gave_file hgave).imp_right ?_
    rintro ⟨f, m, given, hwas, hwrote, hmem, -⟩
    obtain ⟨g', hg', -, honly⟩ := hwrote.rewrites
    exact ⟨i, f, m, hwas, honly g hmem ▸ hg'⟩

/-- A script of a project and its dependency are given with their specifiers exchanged, and nothing else is. -/
theorem scripts_spliced_leaf :
    (∃ g, Rewritten opened journey 1 notebook g ∧ .file g ∈ graph) ∧
    ∀ g, .file g ∈ graph → ∃ i f m, opened.Was journey i (.script f m) ∧ Rewritten opened journey i f g := by
  have hfresh : Between {} "https://cdn.test/" { map := {}, cache := .empty "https://cdn.test/" } := .fresh
  obtain ⟨htaken, hover⟩ := taken_journey
  have hwas : opened.Was journey 1 (.script notebook .project) := ⟨[.produce 0], by simp [journey], rfl⟩
  obtain ⟨hgiven, hall⟩ := scripts_spliced hfresh [.file notebook] false journey
  refine ⟨htaken ▸ hgiven hover 1 notebook .project hwas, fun g hg => (hall g (htaken ▸ hg)).resolve_left ?_⟩
  rintro ⟨hnotebook, hscript⟩
  obtain rfl : g = notebook := by simpa using hnotebook
  exact absurd hscript (by decide)

end Run

end BareImports.Build
