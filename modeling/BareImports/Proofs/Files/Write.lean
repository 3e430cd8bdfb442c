import BareImports.Files.Project
import Mathlib.Data.List.Basic

/-!
# What is written stays written

* `Tree.Holds t p bs` : the file at a place holds some bytes;
* `Holds.write`, `Holds.writeDeep` : what is written elsewhere leaves it as it is;
* `holds_write`, `holds_writeDeep` : a file that was written holds what was written;
* `leadsTo root name` : the place that a name leads to in an output folder;
* `holds_writeEach_append`, `holds_writeEach` : a text that was written is there if no other one came in its place.
-/

namespace BareImports.Files

open Text

namespace Tree

/-- The file at a place holds some bytes. -/
def Holds (t : Tree) (p : Place) (bs : List UInt8) : Prop := t.entry? p = some (.file bs)

section Holds

variable {t : Tree} {p q : Place} {bs : List UInt8}

theorem holds_iff : t.Holds p bs ↔ (p.isEmpty || t.folders.contains p) = false ∧ t.files.lookup p = some bs := by
  unfold Holds entry?
  cases hf : p.isEmpty || t.folders.contains p with
  | true => simp
  | false => simp

@[simp] theorem folders_put : (t.put p bs).folders = t.folders := rfl

theorem lookup_cons_place (k : Place) (old : List UInt8) (files : List (Place × List UInt8)) :
    ((k, old) :: files).lookup q = if q = k then some old else files.lookup q := by
  rw [List.lookup_cons]
  by_cases h : q = k
  · rw [beq_iff_eq.2 h, if_pos h]
  · rw [beq_eq_false_iff_ne.2 h, if_neg h]

theorem lookup_map_set (files : List (Place × List UInt8)) (hp : files.any (·.1 == p) = true) :
    (files.map fun (q, old) => (q, if q == p then bs else old)).lookup q = if q = p then some bs else files.lookup q := by
  induction files with
  | nil => exact absurd hp (by simp)
  | cons e files ih =>
    obtain ⟨k, old⟩ := e
    rw [List.map_cons, lookup_cons_place]
    dsimp only
    rw [lookup_cons_place]
    by_cases hq : q = k
    · subst hq
      by_cases hk : q = p
      · simp [hk]
      · rw [if_pos rfl, if_pos rfl, if_neg (by simpa using hk), if_neg hk]
    · rw [if_neg hq, if_neg hq]
      by_cases hany : files.any (·.1 == p) = true
      · exact ih hany
      · -- only the first file is at the place
        have hk : k = p := by
          rw [List.any_cons, Bool.or_eq_true] at hp
          exact beq_iff_eq.1 (hp.resolve_right hany)
        have hother : ∀ e ∈ files, e.1 ≠ p := fun e he hep =>
          hany (List.any_eq_true.2 ⟨e, he, beq_iff_eq.2 hep⟩)
        rw [if_neg (hk ▸ hq)]
        congr 1
        conv_rhs => rw [← List.map_id files]
        refine List.map_congr_left fun e he => ?_
        rw [if_neg (by simpa using hother e he)]
        rfl

theorem lookup_put : (t.put p bs).files.lookup q = if q = p then some bs else t.files.lookup q := by
  unfold put
  dsimp only
  split
  · next h => exact lookup_map_set t.files h
  · next h =>
    rw [List.lookup_append, lookup_cons_place, List.lookup_nil]
    by_cases hq : q = p
    · have hnone : t.files.lookup q = none := by
        rw [List.lookup_eq_none_iff]
        intro e he
        rw [hq, bne_iff_ne]
        rintro rfl
        exact h (List.any_eq_true.2 ⟨e, he, beq_self_eq_true _⟩)
      rw [hnone, if_pos hq, Option.none_or]
    · rw [if_neg hq, if_neg hq, Option.or_none]

theorem Holds.put (h : t.Holds q bs) (hne : q ≠ p) (bs' : List UInt8) : (t.put p bs').Holds q bs := by
  rw [holds_iff] at h ⊢
  rw [lookup_put, if_neg hne]
  exact h

/-- A file stays as it is if another one is written. -/
theorem Holds.write (h : t.Holds q bs) (hne : q ≠ p) (change : List UInt8 → List UInt8) :
    (t.write p change).1.Holds q bs := by
  unfold Tree.write
  split
  · exact h
  · split
    · exact h
    · exact h.put hne _
    · split
      · exact h.put hne _
      · exact h

theorem here_write (t : Tree) (p : Place) (change : List UInt8 → List UInt8) : (t.write p change).1.here = t.here := by
  unfold Tree.write
  split
  · rfl
  split
  · rfl
  · rfl
  split <;> rfl

/-- A file that was written holds what was written. -/
theorem holds_write (h : (t.write p fun _ => bs).2 = none) : (t.write p fun _ => bs).1.Holds p bs := by
  have hput : (p.isEmpty || t.folders.contains p) = false → (t.put p bs).Holds p bs := by
    intro hfolder
    rw [holds_iff, lookup_put, if_pos rfl]
    exact ⟨hfolder, rfl⟩
  unfold Tree.write at h ⊢
  rcases hfault : p.getLast?.bind nameFault? with _ | f
  swap
  · rw [hfault] at h
    exact absurd h (by simp)
  rw [hfault] at h
  rcases hentry : t.entry? p with _ | old | old
  · have hfolder : (p.isEmpty || t.folders.contains p) = false := by
      unfold entry? at hentry
      split at hentry
      · exact absurd hentry (by simp)
      · next hno => simpa using hno
    rw [hentry] at h
    by_cases hin : t.isFolderAt p.dropLast = true
    · dsimp only
      rw [if_pos hin]
      exact hput hfolder
    · dsimp only at h
      rw [if_neg hin] at h
      exact absurd h (by simp)
  · rw [hentry] at h
    exact absurd h (by simp)
  · exact hput (holds_iff.1 hentry).1

theorem Holds.makeFoldersIn (h : t.Holds q bs) (names : List (List Char)) :
    (Tree.makeFoldersIn p names t).1.Holds q bs := by
  induction names generalizing p t with
  | nil => exact h
  | cons name names ih =>
    unfold Tree.makeFoldersIn
    split
    · exact h
    · dsimp only
      split
      · exact ih h
      · exact h
      · next hnone =>
        refine ih ?_
        have hne : q ≠ p ++ [name] := by
          rintro rfl
          rw [show t.entry? (p ++ [name]) = _ from h] at hnone
          exact absurd hnone (by simp)
        rw [holds_iff] at h ⊢
        refine ⟨?_, h.2⟩
        simp only [Bool.or_eq_false_iff, List.contains_eq_mem, decide_eq_false_iff_not] at h
        simp [h.1, hne]

/-- A file stays as it is if another one is written with the folders around it. -/
theorem Holds.writeDeep (h : t.Holds q bs) (hne : q ≠ p) (bs' : List UInt8) : (t.writeDeep p bs').1.Holds q bs := by
  have hfolders : (t.makeFolders p.dropLast).1.Holds q bs := h.makeFoldersIn p.dropLast
  unfold Tree.writeDeep
  split
  · next t' f ht =>
    rw [ht] at hfolders
    exact hfolders
  · next t' ht =>
    rw [ht] at hfolders
    exact hfolders.write hne _

theorem holds_writeDeep (h : (t.writeDeep p bs).2 = none) : (t.writeDeep p bs).1.Holds p bs := by
  unfold Tree.writeDeep at h ⊢
  split at h
  · exact absurd h (by simp)
  · exact holds_write h

end Holds

end Tree

/-! ## Named texts -/

/-- The place that a name leads to in an output folder. -/
def leadsTo (root : List Char) (name : String) : Place := Path.placeSegments (pathIn root name.toList)

/-- Whether a name leads to an output folder or below it. -/
def stays (root : List Char) (e : String × String) : Bool := isInside root (pathIn root e.1.toList)

/-- The warning about a name that does not. -/
def refusal (e : String × String) : Log.Entry :=
  Log.warn "Refusing to write outside the output directory: %s" [.text e.1]

section Each

variable {root : List Char} {t t' : Tree} {p : Place} {bs : List UInt8} {files : List (String × String)} {e : String × String}
  {log : List Log.Entry} {f : Log.Fault}

theorem writeOne_of_stays (h : stays root e = true) (t : Tree) : writeOne root e.1 e.2 t =
    ((t.writeDeep (leadsTo root e.1) (Utf8.encode e.2.toList)).1, [],
      (t.writeDeep (leadsTo root e.1) (Utf8.encode e.2.toList)).2) := by
  unfold stays at h
  unfold writeOne
  rw [if_pos h]
  rfl

theorem writeOne_of_leaves (h : stays root e = false) (t : Tree) : writeOne root e.1 e.2 t = (t, [refusal e], none) := by
  unfold stays at h
  unfold writeOne
  dsimp only
  rw [h, if_neg (by simp)]
  rfl

theorem writeEach_cons_fault (h : writeOne root e.1 e.2 t = (t', log, some f)) :
    writeEach root (e :: files) t = (t', log, some f) := by
  unfold writeEach
  dsimp only
  rw [h]

theorem writeEach_cons (h : writeOne root e.1 e.2 t = (t', log, none)) : writeEach root (e :: files) t =
    ((writeEach root files t').1, log ++ (writeEach root files t').2.1, (writeEach root files t').2.2) := by
  conv_lhs => unfold writeEach
  dsimp only
  rw [h]

/-- If there was no fault, there was none at the first text either. -/
theorem writeEach_cons_ok (h : (writeEach root (e :: files) t).2.2 = none) :
    ∃ t' log, writeOne root e.1 e.2 t = (t', log, none) ∧ (writeEach root files t').2.2 = none ∧
      (writeEach root (e :: files) t).1 = (writeEach root files t').1 := by
  rcases hw : writeOne root e.1 e.2 t with ⟨t', log, _ | f⟩
  · rw [writeEach_cons hw] at h ⊢
    exact ⟨t', log, rfl, h, rfl⟩
  · rw [writeEach_cons_fault hw] at h
    exact absurd h (by simp)

theorem holds_writeOne (h : t.Holds p bs) (hsame : leadsTo root e.1 = p → Utf8.encode e.2.toList = bs)
    (hok : (writeOne root e.1 e.2 t).2.2 = none) : (writeOne root e.1 e.2 t).1.Holds p bs := by
  cases hstays : stays root e with
  | false =>
    rw [writeOne_of_leaves hstays]
    exact h
  | true =>
    rw [writeOne_of_stays hstays] at hok ⊢
    by_cases hp : leadsTo root e.1 = p
    · rw [← hsame hp, ← hp]
      exact Tree.holds_writeDeep hok
    · exact h.writeDeep (Ne.symm hp) _

/-- What is there stays if no other text is written in its place. -/
theorem Tree.Holds.writeEach (h : t.Holds p bs) (hok : (writeEach root files t).2.2 = none)
    (hsame : ∀ e ∈ files, leadsTo root e.1 = p → Utf8.encode e.2.toList = bs) : (writeEach root files t).1.Holds p bs := by
  induction files generalizing t with
  | nil => exact h
  | cons e files ih =>
    obtain ⟨t', log, hw, hok', htree⟩ := writeEach_cons_ok hok
    have hone := holds_writeOne h (hsame e List.mem_cons_self) (by rw [hw])
    rw [hw] at hone
    rw [htree]
    exact ih hone hok' fun x hx => hsame x (List.mem_cons_of_mem _ hx)

/-- A text that was written is there if no other text was written in its place after it. -/
theorem holds_writeEach_append {front back : List (String × String)} (hstays : stays root e = true)
    (hok : (writeEach root (front ++ e :: back) t).2.2 = none)
    (hback : ∀ x ∈ back, leadsTo root x.1 = leadsTo root e.1 → x.2 = e.2) :
    (writeEach root (front ++ e :: back) t).1.Holds (leadsTo root e.1) (Utf8.encode e.2.toList) := by
  induction front generalizing t with
  | nil =>
    obtain ⟨t', log, hw, hok', htree⟩ := writeEach_cons_ok hok
    rw [writeOne_of_stays hstays] at hw
    obtain ⟨rfl, hrest⟩ := Prod.mk.inj hw
    rw [List.nil_append, htree]
    exact (Tree.holds_writeDeep (Prod.mk.inj hrest).2).writeEach hok' fun x hx hp => by rw [hback x hx hp]
  | cons x front ih =>
    rw [List.cons_append] at hok ⊢
    obtain ⟨t', log, -, hok', htree⟩ := writeEach_cons_ok hok
    rw [htree]
    exact ih hok'

/-- Among named texts that were written, the only one for its place is there. -/
theorem holds_writeEach {name content : String} (hmem : (name, content) ∈ files)
    (hin : isInside root (pathIn root name.toList) = true) (hok : (writeEach root files t).2.2 = none)
    (hsame : ∀ e ∈ files, leadsTo root e.1 = leadsTo root name → e.2 = content) :
    (writeEach root files t).1.Holds (leadsTo root name) (Utf8.encode content.toList) := by
  obtain ⟨front, back, rfl⟩ := List.append_of_mem hmem
  exact holds_writeEach_append (e := (name, content)) hin hok fun x hx =>
    hsame x (List.mem_append_right _ (List.mem_cons_of_mem _ hx))

end Each

end BareImports.Files
