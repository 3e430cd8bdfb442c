import BareImports.Proofs.Files.Read

/-!
# An output folder and what is around it

* `pathIn_leadsTo` : every name, seen from an output folder, is spelled as the place that it leads to;
* `isInside_iff` : a place is inside if it is the output folder or below it;
* `holds_writeDeep_iff`, `entry?_writeDeep` : what a file that is written leaves as it is;
* `holds_writeEach_iff`, `entry?_writeEach` : nothing outside is written, up to a fault too;
* `holds_last` : of the names that lead to a place the last one counts;
* `writeEach_skips` : names that lead outside are left out, with a warning for each of them;
* `writeAll_contained` : all of this for an output folder.
-/

namespace BareImports.Files

open Text Url

/-! ## The places of names -/

section Names

variable {p q : Place} {s : List Char} {segs : List (List Char)}

/-- Segments that are joined one after the other do not make two slashes in front. -/
theorem foldl_join_rooted (hs : s.head? ≠ some '/') (hsegs : ∀ g ∈ segs, '/' ∉ g) :
    ∃ t, t.head? ≠ some '/' ∧ segs.foldl Path.join ('/' :: s) = '/' :: t := by
  induction segs generalizing s with
  | nil => exact ⟨s, hs, rfl⟩
  | cons g segs ih =>
    have hg : '/' ∉ g := hsegs g List.mem_cons_self
    have hhead : g.head? ≠ some '/' := fun h => hg (List.mem_of_mem_head? h)
    have hstart : startsWith "/" g = false := by
      rw [startsWith_slash]
      simpa using hhead
    obtain ⟨t, ht, hjoin⟩ : ∃ t, t.head? ≠ some '/' ∧ Path.join ('/' :: s) g = '/' :: t := by
      unfold Path.join
      rw [hstart, if_neg (by simp)]
      cases s with
      | nil => exact ⟨g, hhead, rfl⟩
      | cons c s =>
        split
        · exact ⟨c :: s ++ g, hs, rfl⟩
        · exact ⟨c :: s ++ '/' :: g, hs, rfl⟩
    rw [List.foldl_cons, hjoin]
    exact ih ht fun x hx => hsegs x (List.mem_cons_of_mem g hx)

/-- A name, seen from an output folder, is spelled as the place that it leads to. -/
theorem pathIn_leadsTo (hp : Proper p) (name : String) :
    pathIn (spelling p) name.toList = spelling (leadsTo (spelling p) name) := by
  have hsegs : ∀ g ∈ Path.segments name.toList, '/' ∉ g := fun g hg => Path.not_mem_of_mem_splitOn hg
  obtain ⟨t, ht, hjoin⟩ := foldl_join_rooted (head?_intercalate hp) hsegs
  have hroot := root_cons ht
  have hpath : pathIn (spelling p) name.toList = spelling (Path.placeSegments ('/' :: t)) := by
    show Path.normalize ((Path.segments name.toList).foldl Path.join ('/' :: ['/'].intercalate p)) = _
    rw [hjoin, normalize_of_root (by rw [hroot]; simp), hroot]
    rfl
  unfold leadsTo
  rw [hpath, placeSegments_spelling (proper_placeSegments _)]

theorem proper_leadsTo (root : List Char) (name : String) : Proper (leadsTo root name) := proper_placeSegments _

theorem isPrefix_sharedFront (p q : Place) : Path.sharedFront p q <+: p ∧ Path.sharedFront p q <+: q := by
  obtain ⟨hp, hq⟩ := take_sharedFront p q
  rw [List.prefix_iff_eq_take, List.prefix_iff_eq_take]
  exact ⟨hp.symm, hq.symm⟩

/-- A place is inside if it is the output folder or below it. -/
theorem isInside_iff (hp : Proper p) (hq : Proper q) : isInside (spelling p) (spelling q) = true ↔ p <+: q := by
  constructor
  · intro h
    unfold isInside at h
    rw [common_spelling hp hq, beq_iff_eq] at h
    have hshared : Proper (Path.sharedFront p q) := fun g hg => hp g ((isPrefix_sharedFront p q).1.subset hg)
    have hsame : Path.sharedFront p q = p := by
      have hplace := congrArg Path.placeSegments (show spelling (Path.sharedFront p q) = spelling p from h)
      rwa [placeSegments_spelling hshared, placeSegments_spelling hp] at hplace
    exact hsame ▸ (isPrefix_sharedFront p q).2
  · rintro ⟨x, rfl⟩
    exact isInside_spelling hp fun g hg => hq g (List.mem_append_right p hg)

end Names

/-! ## What is left as it is -/

namespace Tree

variable {t : Tree} {p q : Place} {bs bs' : List UInt8}

theorem files_makeFoldersIn (p : Place) (names : List (List Char)) (t : Tree) :
    (makeFoldersIn p names t).1.files = t.files := by
  induction names generalizing p t with
  | nil => rfl
  | cons name names ih =>
    unfold makeFoldersIn
    split
    · rfl
    dsimp only
    split
    · exact ih _ _
    · rfl
    · exact ih _ _

/-- Folders are made on the way to a folder only. -/
theorem mem_folders_makeFoldersIn (p : Place) (names : List (List Char)) (t : Tree) {x : Place} :
    (x ∈ t.folders → x ∈ (makeFoldersIn p names t).1.folders) ∧
      (x ∈ (makeFoldersIn p names t).1.folders → x ∈ t.folders ∨ x <+: p ++ names) := by
  induction names generalizing p t with
  | nil => exact ⟨id, Or.inl⟩
  | cons name names ih =>
    have hway : p ++ name :: names = p ++ [name] ++ names := by simp
    unfold makeFoldersIn
    split
    · exact ⟨id, Or.inl⟩
    dsimp only
    split
    · rw [hway]
      exact ih _ _
    · exact ⟨id, Or.inl⟩
    · obtain ⟨hkeep, hnew⟩ := ih (p ++ [name]) { t with folders := t.folders ++ [p ++ [name]] }
      refine ⟨fun hx => hkeep (List.mem_append_left _ hx), fun hx => ?_⟩
      rw [hway]
      rcases hnew hx with hx | hx
      · rcases List.mem_append.1 hx with hx | hx
        · exact Or.inl hx
        · exact Or.inr (List.mem_singleton.1 hx ▸ List.prefix_append _ _)
      · exact Or.inr hx

theorem entry?_congr {t' : Tree} (hfiles : t'.files.lookup q = t.files.lookup q) (hfolders : q ∈ t'.folders ↔ q ∈ t.folders) :
    t'.entry? q = t.entry? q := by
  have hcontains : t'.folders.contains q = t.folders.contains q := by
    rw [Bool.eq_iff_iff, List.contains_iff_mem, List.contains_iff_mem, hfolders]
  unfold entry?
  rw [hfiles, hcontains]

theorem entry?_write (hne : q ≠ p) (change : List UInt8 → List UInt8) : entry? (t.write p change).1 q = t.entry? q := by
  have hput : ∀ bs, entry? (t.put p bs) q = t.entry? q := fun bs =>
    entry?_congr (by rw [lookup_put, if_neg hne]) (by rw [folders_put])
  unfold write
  split
  · rfl
  split
  · rfl
  · exact hput _
  split
  · exact hput _
  · rfl

/-- What is not on the way to a file is left as it is when the file is written. -/
theorem entry?_writeDeep (hq : ¬ q <+: p) (bs : List UInt8) : entry? (t.writeDeep p bs).1 q = t.entry? q := by
  have hmake : entry? (t.makeFolders p.dropLast).1 q = t.entry? q := by
    refine entry?_congr (by rw [makeFolders, files_makeFoldersIn]) ⟨fun h => ?_, fun h => ?_⟩
    · exact ((mem_folders_makeFoldersIn [] p.dropLast t).2 h).resolve_right fun hway =>
        hq (hway.trans (List.dropLast_prefix p))
    · exact (mem_folders_makeFoldersIn [] p.dropLast t).1 h
  unfold writeDeep
  split
  · next t' f ht =>
    rw [ht] at hmake
    exact hmake
  · next t' ht =>
    rw [ht] at hmake
    rw [entry?_write (by rintro rfl; exact hq (List.prefix_refl _)), hmake]

/-- No other file comes or goes when a file is written. -/
theorem holds_writeDeep_iff (hne : q ≠ p) : (t.writeDeep p bs').1.Holds q bs ↔ t.Holds q bs := by
  refine ⟨fun h => ?_, fun h => h.writeDeep hne bs'⟩
  have hmake : ∀ {t' : Tree}, t'.files = t.files → t.folders ⊆ t'.folders → t'.Holds q bs → t.Holds q bs := by
    intro t' hfiles hfolders h
    rw [holds_iff] at h ⊢
    rw [hfiles] at h
    refine ⟨?_, h.2⟩
    have hno := h.1
    simp only [Bool.or_eq_false_iff, List.contains_eq_mem, decide_eq_false_iff_not] at hno ⊢
    exact ⟨hno.1, fun hmem => hno.2 (hfolders hmem)⟩
  have hfiles : (t.makeFolders p.dropLast).1.files = t.files := files_makeFoldersIn _ _ _
  have hfolders : t.folders ⊆ (t.makeFolders p.dropLast).1.folders := fun x hx =>
    (mem_folders_makeFoldersIn [] p.dropLast t).1 hx
  unfold writeDeep at h
  split at h
  · next t' f ht =>
    rw [ht] at hfiles hfolders
    exact hmake hfiles hfolders h
  · next t' ht =>
    rw [ht] at hfiles hfolders
    refine hmake hfiles hfolders ?_
    unfold Holds at h ⊢
    rwa [entry?_write hne] at h

end Tree

/-! ## Named texts -/

section Each

variable {t : Tree} {dir q : Place} {bs : List UInt8} {root : List Char} {files : List (String × String)} {e : String × String}

theorem stays_iff (hdir : Proper dir) (e : String × String) :
    stays (spelling dir) e = true ↔ dir <+: leadsTo (spelling dir) e.1 := by
  unfold stays
  rw [pathIn_leadsTo hdir, isInside_iff hdir (proper_leadsTo _ _)]

/-- What each of the writes keeps, all of them keep, up to a fault too. -/
theorem writeEach_keeps {P : Tree → Prop}
    (hP : ∀ (e : String × String) (t : Tree), P t → P (writeOne root e.1 e.2 t).1) (h : P t) :
    P (writeEach root files t).1 := by
  induction files generalizing t with
  | nil => exact h
  | cons e files ih =>
    have hone := hP e t h
    rcases hw : writeOne root e.1 e.2 t with ⟨t', log, _ | f⟩ <;> rw [hw] at hone
    · rw [writeEach_cons hw]
      exact ih hone
    · rw [writeEach_cons_fault hw]
      exact hone

/-- No file outside comes or goes. -/
theorem holds_writeEach_iff (hdir : Proper dir) (hq : ¬ dir <+: q) :
    (writeEach (spelling dir) files t).1.Holds q bs ↔ t.Holds q bs := by
  refine writeEach_keeps (P := fun t' => t'.Holds q bs ↔ t.Holds q bs) (fun e t' h => ?_) Iff.rfl
  cases hstays : stays (spelling dir) e with
  | false =>
    rw [writeOne_of_leaves hstays]
    exact h
  | true =>
    have hne : q ≠ leadsTo (spelling dir) e.1 := fun heq => hq (heq ▸ (stays_iff hdir e).1 hstays)
    rw [writeOne_of_stays hstays]
    exact (Tree.holds_writeDeep_iff hne).trans h

/-- Nothing else outside comes or goes either, the folders around the output folder aside. -/
theorem entry?_writeEach (hdir : Proper dir) (hq : ¬ dir <+: q) (haround : ¬ q <+: dir) :
    Tree.entry? (writeEach (spelling dir) files t).1 q = t.entry? q := by
  refine writeEach_keeps (P := fun t' => t'.entry? q = t.entry? q) (fun e t' h => ?_) rfl
  cases hstays : stays (spelling dir) e with
  | false =>
    rw [writeOne_of_leaves hstays]
    exact h
  | true =>
    have hway : ¬ q <+: leadsTo (spelling dir) e.1 := fun hway =>
      (List.prefix_or_prefix_of_prefix hway ((stays_iff hdir e).1 hstays)).elim haround hq
    rw [writeOne_of_stays hstays]
    exact (Tree.entry?_writeDeep hway _).trans h

/-- Of the names that lead to a place the last one counts. -/
theorem holds_last (hok : (writeEach root files t).2.2 = none) (hstays : stays root e = true)
    (hlast : (files.filter fun x => leadsTo root x.1 == leadsTo root e.1).getLast? = some e) :
    (writeEach root files t).1.Holds (leadsTo root e.1) (Utf8.encode e.2.toList) := by
  obtain ⟨ys, hfilter⟩ := List.getLast?_eq_some_iff.1 hlast
  obtain ⟨front, rest, rfl, -, hrest⟩ := List.filter_eq_append_iff.1 hfilter
  obtain ⟨more, back, rfl, -, -, hback⟩ := List.filter_eq_cons_iff.1 hrest
  rw [← List.append_assoc] at hok ⊢
  refine holds_writeEach_append hstays hok fun x hx hsame => ?_
  exact absurd (beq_iff_eq.2 hsame) (List.filter_eq_nil_iff.1 hback x hx)

/-- Names that lead outside are left out, with a warning for each of them. -/
theorem writeEach_skips (root : List Char) (files : List (String × String)) (t : Tree) :
    (writeEach root files t).1 = (writeEach root (files.filter (stays root)) t).1 ∧
    (writeEach root files t).2.2 = (writeEach root (files.filter (stays root)) t).2.2 ∧
    ((writeEach root files t).2.2 = none →
      (writeEach root files t).2.1 = (files.filter fun e => !stays root e).map refusal) := by
  induction files generalizing t with
  | nil => exact ⟨rfl, rfl, fun _ => rfl⟩
  | cons e files ih =>
    cases hstays : stays root e with
    | false =>
      rw [writeEach_cons (writeOne_of_leaves hstays t), List.filter_cons_of_neg (by simp [hstays]),
        List.filter_cons_of_pos (by simp [hstays])]
      exact ⟨(ih t).1, (ih t).2.1, fun hok => congrArg (refusal e :: ·) ((ih t).2.2 hok)⟩
    | true =>
      rw [List.filter_cons_of_pos hstays, List.filter_cons_of_neg (by simp [hstays])]
      rcases hw : writeOne root e.1 e.2 t with ⟨t', log, _ | f⟩
      · obtain rfl : log = [] := by
          rw [writeOne_of_stays hstays] at hw
          exact (Prod.mk.inj (Prod.mk.inj hw).2).1.symm
        rw [writeEach_cons hw, writeEach_cons hw]
        exact ih t'
      · rw [writeEach_cons_fault hw, writeEach_cons_fault hw]
        exact ⟨rfl, rfl, fun hok => absurd hok (by simp)⟩

end Each

/-! ## Output folders -/

/-- Where a name leads from an output folder, as seen from the current folder. -/
def outputPlace (t : Tree) (output : String) (e : String × String) : Place :=
  leadsTo (Path.absolute t.herePath output.toList) e.1

/-- No file outside an output folder comes or goes, also when writing stops at a fault, and nothing else but the folders
around it. If there is no fault, each name that leads to it or below it has its file there, with the content of the last one
that leads there, and the other names are left out. -/
theorem writeAll_contained {t : Tree} (hhere : Proper t.here) {output : String}
    (houtput : Path.root output.toList ≠ ['/', '/']) (files : List (String × String)) :
    (∀ q bs, ¬ t.placeOf output.toList <+: q → ((writeAll output files t).1.Holds q bs ↔ t.Holds q bs)) ∧
    (∀ q, ¬ t.placeOf output.toList <+: q → ¬ q <+: t.placeOf output.toList →
      Tree.entry? (writeAll output files t).1 q = t.entry? q) ∧
    ((writeAll output files t).2.2 = none →
      (∀ e ∈ files, t.placeOf output.toList <+: outputPlace t output e → ∃ last,
        (files.filter fun x => outputPlace t output x == outputPlace t output e).getLast? = some last ∧
        (writeAll output files t).1.Holds (outputPlace t output e) (Utf8.encode last.2.toList)) ∧
      (writeAll output files t).1 =
        (writeAll output (files.filter fun e => t.placeOf output.toList <+: outputPlace t output e) t).1 ∧
      (writeAll output files t).2.1 =
        (files.filter fun e => ¬ t.placeOf output.toList <+: outputPlace t output e).map refusal) := by
  obtain ⟨dir, hdir, hroot⟩ := absolute_spelling hhere houtput
  have hroot' : Path.absolute t.herePath output.toList = spelling dir := hroot
  have hplace : t.placeOf output.toList = dir := by
    unfold Tree.placeOf
    rw [hroot', placeSegments_spelling hdir]
  have hstays : stays (spelling dir) = fun e => decide (dir <+: leadsTo (spelling dir) e.1) :=
    funext fun e => Bool.eq_iff_iff.2 (by rw [stays_iff hdir, decide_eq_true_iff])
  obtain ⟨htree, -, hlog⟩ := writeEach_skips (spelling dir) files t
  unfold writeAll outputPlace
  rw [hplace, hroot']
  refine ⟨fun q bs => holds_writeEach_iff hdir, fun q => entry?_writeEach hdir, fun hok => ⟨fun e he hin => ?_, ?_, ?_⟩⟩
  · have hmem : e ∈ files.filter fun x => leadsTo (spelling dir) x.1 == leadsTo (spelling dir) e.1 :=
      List.mem_filter.2 ⟨he, beq_self_eq_true _⟩
    have hlast := List.getLast?_eq_some_getLast (List.ne_nil_of_mem hmem)
    set last := List.getLast _ (List.ne_nil_of_mem hmem)
    have hsame := beq_iff_eq.1 (List.mem_filter.1 (List.mem_of_getLast? hlast)).2
    refine ⟨last, hlast, ?_⟩
    rw [← hsame] at hin hlast ⊢
    exact holds_last hok ((stays_iff hdir last).2 hin) hlast
  · rw [htree, hstays]
  · rw [hlog hok, hstays]
    simp only [decide_not]

/-- A folder with a file beside the output folder. -/
def yard : Tree where
  here := ["home".toList]
  folders := [["home".toList]]
  files := [(["home".toList, "gate.js".toList], [103])]

/-- Two names for one place, and two that climb out, one of them to a folder whose name goes on from that of the output
folder. -/
def climbing : List (String × String) :=
  [("lib/a.js", "a"), ("../gate.js", "b"), ("x/../lib//a.js", "c"), ("../outside/b.js", "d")]

/-- The file beside is kept, the later text counts, and the names that climb out are refused. -/
theorem writeAll_contained_climbing :
    (Proper yard.here ∧ Path.root "out".toList ≠ ['/', '/'] ∧ (writeAll "out" climbing yard).2.2 = none) ∧
    (writeAll "out" climbing yard).1.Holds ["home".toList, "gate.js".toList] [103] ∧
    Tree.entry? (writeAll "out" climbing yard).1 ["home".toList, "outside".toList] = none ∧
    (writeAll "out" climbing yard).1.Holds ["home".toList, "out".toList, "lib".toList, "a.js".toList] [99] ∧
    (writeAll "out" climbing yard).2.1 = [refusal ("../gate.js", "b"), refusal ("../outside/b.js", "d")] := by
  have hok : (writeAll "out" climbing yard).2.2 = none := by decide +kernel
  have hroot : Path.root "out".toList ≠ ['/', '/'] := by decide
  obtain ⟨hfile, hentry, hwritten⟩ := writeAll_contained (t := yard) (by decide) hroot climbing
  obtain ⟨hheld, -, hlog⟩ := hwritten hok
  refine ⟨⟨by decide, hroot, hok⟩, (hfile _ _ (by decide +kernel)).2 rfl, ?_, ?_, ?_⟩
  · rw [hentry _ (by decide +kernel) (by decide +kernel)]
    rfl
  · obtain ⟨last, hlast, hholds⟩ := hheld ("lib/a.js", "a") (by decide) (by decide +kernel)
    have hlater : (climbing.filter fun x => outputPlace yard "out" x == outputPlace yard "out" ("lib/a.js", "a")).getLast? =
        some ("x/../lib//a.js", "c") := by decide +kernel
    have hplace : outputPlace yard "out" ("lib/a.js", "a") = ["home".toList, "out".toList, "lib".toList, "a.js".toList] := by
      decide +kernel
    obtain rfl := Option.some.inj (hlast.symm.trans hlater)
    rwa [hplace] at hholds
  · have hout : climbing.filter (fun e => ¬ yard.placeOf "out".toList <+: outputPlace yard "out" e) =
        [("../gate.js", "b"), ("../outside/b.js", "d")] := by decide +kernel
    rw [hlog, hout]
    rfl

end BareImports.Files
