import BareImports.Proofs.Table
import BareImports.Proofs.Text.Utf8
import BareImports.Text.LetterCase
import Mathlib

/-!
# Words in upper or lower case

* `SameLetter c d` : two characters agree in upper or in lower case; `Spells part word` : so do all those of a word;
* `lowerChar_of_isLower`, `upperChar_of_isLower`, `eq_of_toUpper_eq` : the case of the small letters of ASCII;
* `small_of_upperChar` : of all other characters only `ı` and `ſ` have a capital letter of ASCII as their upper case.
-/

namespace BareImports.Text

/-- Two characters agree in upper or in lower case. -/
def SameLetter (c d : Char) : Prop := lowerChar c = lowerChar d ∨ upperChar c = upperChar d

instance (c d : Char) : Decidable (SameLetter c d) := inferInstanceAs (Decidable (_ ∨ _))

/-- Characters that are those of a word, whatever their case. -/
def Spells (part : List Char) (word : String) : Prop := List.Forall₂ SameLetter part word.toList

/-! ## Small letters -/

theorem toNat_lt_of_isLower {d : Char} (hd : d.isLower = true) : d.toNat < 128 := by
  have h : d.val ≤ 122 := by
    simp only [Char.isLower, Bool.and_eq_true, decide_eq_true_eq] at hd
    exact hd.2
  have h' : d.toNat ≤ 122 := h
  omega

theorem toLower_of_isLower {d : Char} (hd : d.isLower = true) : d.toLower = d := by
  refine Char.toLower_eq_of_not_isUpper ?_
  simp only [Char.isLower, Char.isUpper, Bool.and_eq_true, decide_eq_true_eq, UInt32.le_iff_toNat_le] at hd ⊢
  intro h
  have hsmall : 97 ≤ d.val.toNat := hd.1
  have hgreat : d.val.toNat ≤ 90 := h.2
  omega

theorem eq_of_toUpper_eq {d e : Char} (hd : d.isLower = true) (he : e.isLower = true) (h : d.toUpper = e.toUpper) :
    d = e := by
  rw [← toLower_of_isLower hd, ← Char.toLower_toUpper_eq_toLower, h, Char.toLower_toUpper_eq_toLower, toLower_of_isLower he]

theorem lowerChar_of_isLower {d : Char} (hd : d.isLower = true) : lowerChar d = [d] := by
  unfold lowerChar
  rw [if_pos (toNat_lt_of_isLower hd), toLower_of_isLower hd]

theorem upperChar_of_isLower {d : Char} (hd : d.isLower = true) : upperChar d = [d.toUpper] :=
  if_pos (toNat_lt_of_isLower hd)

/-- What is no letter of ASCII has none as its upper case, apart from two characters. -/
theorem upperRuns_apart : ∀ r ∈ upperRuns, r.first < 128 ∧ r.last < 128 ∨ 128 ≤ r.first + r.shift ∨
    r.first = r.last ∧ (r.first = 'ı'.toNat ∨ r.first = 'ſ'.toNat) := by
  decide +kernel

theorem upperLong_apart : ∀ e ∈ upperLong, 2 ≤ e.2.length := by
  decide +kernel

theorem other?_eq_some {r : CaseRun} {n m : Nat} (h : r.other? n = some m) :
    r.first ≤ n ∧ n ≤ r.last ∧ m = Int.toNat (n + r.shift) := by
  unfold CaseRun.other? at h
  split at h
  · next hin =>
    simp only [Bool.and_eq_true, decide_eq_true_eq] at hin
    exact ⟨hin.1.1, hin.1.2, (Option.some.inj h).symm⟩
  · exact absurd h (by simp)

theorem toNat_ofNat_or (n : Nat) : (Char.ofNat n).toNat = n ∨ (Char.ofNat n).toNat = 0 := by
  by_cases hvalid : n.isValidChar
  · exact Or.inl (Utf8.toNat_ofNat (by unfold Nat.isValidChar at hvalid; omega))
  · exact Or.inr (congrArg Char.toNat (dif_neg hvalid))

/-- A character beyond ASCII that has a capital letter of ASCII as its upper case. -/
theorem small_of_upperChar {c x : Char} (hc : 128 ≤ c.toNat) (hx : x.isUpper = true) (h : upperChar c = [x]) :
    c = 'ı' ∨ c = 'ſ' := by
  have hxpos : 65 ≤ x.toNat ∧ x.toNat ≤ 90 := by
    simp only [Char.isUpper, decide_eq_true_eq, ge_iff_le] at hx
    exact hx
  unfold upperChar at h
  rw [if_neg (by omega)] at h
  unfold mapCase at h
  split at h
  · next n hn =>
    obtain ⟨r, hr, hother⟩ := List.exists_of_findSome?_eq_some hn
    obtain ⟨hfirst, hlast, rfl⟩ := other?_eq_some hother
    obtain rfl := (List.cons.inj h).1
    rcases upperRuns_apart r hr with hsmall | hgreat | ⟨hone, hwhich⟩
    · omega
    · -- the upper case would not be ASCII, unless it is no character
      rcases toNat_ofNat_or (Int.toNat (c.toNat + r.shift)) with heq | heq
      · omega
      · omega
    · have hn' : c.toNat = r.first := by omega
      refine hwhich.imp (fun h => ?_) fun h => ?_
      · exact Char.toNat_inj.1 (hn'.trans h)
      · exact Char.toNat_inj.1 (hn'.trans h)
  · split at h
    · next ns hlook =>
      have hlen := upperLong_apart _ (Table.mem_of_lookup hlook)
      have hone := congrArg List.length h
      rw [List.length_map, List.length_singleton] at hone
      dsimp only at hlen
      omega
    · obtain rfl := (List.cons.inj h).1
      omega

end BareImports.Text
