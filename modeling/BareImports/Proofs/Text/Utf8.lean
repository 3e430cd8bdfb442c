import BareImports.Text.LineBreak
import BareImports.Text.Utf8
import Mathlib.Data.List.Basic

/-!
# Valid bytes are the bytes of their text

* `lead?_eq_some` : what a first byte and the one after it may be;
* `encodeChar_two`, `encodeChar_three`, `encodeChar_four` : the bytes of a character that is made of bytes;
* `encode_decode?` : the text of valid bytes has these bytes;
* `unifyBreaks_eq_self` : a text without carriage returns keeps its line breaks.
-/

namespace BareImports.Text

theorem unifyBreaks_eq_self {s : List Char} (h : '\x0d' ∉ s) : unifyBreaks s = s := by
  fun_induction unifyBreaks s with
  | case1 => rfl
  | case2 s ih => exact absurd List.mem_cons_self h
  | case3 c s _ ih =>
    rw [List.mem_cons, not_or] at h
    rw [ih h.2, if_neg (by simpa using fun hc : c = '\x0d' => h.1 hc.symm)]

namespace Utf8

/-! ## Characters made of bytes -/

theorem toNat_ofNat {n : Nat} (h : n < 0xD800 ∨ 0xDFFF < n ∧ n < 0x110000) : (Char.ofNat n).toNat = n := by
  have hvalid : n.isValidChar := h
  rw [Char.ofNat, dif_pos hvalid]
  rfl

theorem toUInt8_eq {n : Nat} {b : UInt8} (h : n = b.toNat) : n.toUInt8 = b := by
  rw [h]
  exact UInt8.ofNat_toNat

variable {a b c d : UInt8}

theorem encodeChar_one (ha : a.toNat < 0x80) : encodeChar (Char.ofNat a.toNat) = [a] := by
  unfold encodeChar
  rw [toNat_ofNat (by omega)]
  dsimp only
  rw [if_pos ha, toUInt8_eq rfl]

theorem encodeChar_two (ha : 0xC2 ≤ a.toNat ∧ a.toNat < 0xE0) (hb : 0x80 ≤ b.toNat ∧ b.toNat ≤ 0xBF) :
    encodeChar (Char.ofNat ((a.toNat - 0xC0) * 64 + tail b)) = [a, b] := by
  unfold encodeChar tail
  rw [toNat_ofNat (by omega)]
  dsimp only
  rw [if_neg (by omega), if_pos (by omega), toUInt8_eq (b := a) (by omega), toUInt8_eq (b := b) (by omega)]

theorem encodeChar_three (ha : 0xE0 ≤ a.toNat ∧ a.toNat < 0xF0) (hb : 0x80 ≤ b.toNat ∧ b.toNat ≤ 0xBF)
    (hlow : a.toNat = 0xE0 → 0xA0 ≤ b.toNat) (hhigh : a.toNat = 0xED → b.toNat ≤ 0x9F)
    (hc : 0x80 ≤ c.toNat ∧ c.toNat ≤ 0xBF) :
    encodeChar (Char.ofNat ((a.toNat - 0xE0) * 4096 + tail b * 64 + tail c)) = [a, b, c] := by
  unfold encodeChar tail
  rw [toNat_ofNat (by omega)]
  dsimp only
  rw [if_neg (by omega), if_neg (by omega), if_pos (by omega), toUInt8_eq (b := a) (by omega),
    toUInt8_eq (b := b) (by omega), toUInt8_eq (b := c) (by omega)]

theorem encodeChar_four (ha : 0xF0 ≤ a.toNat ∧ a.toNat ≤ 0xF4) (hb : 0x80 ≤ b.toNat ∧ b.toNat ≤ 0xBF)
    (hlow : a.toNat = 0xF0 → 0x90 ≤ b.toNat) (hhigh : a.toNat = 0xF4 → b.toNat ≤ 0x8F)
    (hc : 0x80 ≤ c.toNat ∧ c.toNat ≤ 0xBF) (hd : 0x80 ≤ d.toNat ∧ d.toNat ≤ 0xBF) :
    encodeChar (Char.ofNat ((a.toNat - 0xF0) * 262144 + tail b * 4096 + tail c * 64 + tail d)) = [a, b, c, d] := by
  unfold encodeChar tail
  rw [toNat_ofNat (by omega)]
  dsimp only
  rw [if_neg (by omega), if_neg (by omega), if_neg (by omega), toUInt8_eq (b := a) (by omega),
    toUInt8_eq (b := b) (by omega), toUInt8_eq (b := c) (by omega), toUInt8_eq (b := d) (by omega)]

/-! ## Bytes -/

/-- What a first byte from 0x80 on calls for. -/
inductive Leads (a : Nat) : Lead → Prop
  /-- One more byte. -/
  | two (ha : 0xC2 ≤ a ∧ a < 0xE0) : Leads a ⟨1, 0x80, 0xBF⟩
  /-- Two more bytes. -/
  | three {l : Lead} (ha : 0xE0 ≤ a ∧ a < 0xF0) (hfollow : l.follow = 2)
    (hlow : 0x80 ≤ l.low.toNat ∧ (a = 0xE0 → 0xA0 ≤ l.low.toNat))
    (hhigh : l.high.toNat ≤ 0xBF ∧ (a = 0xED → l.high.toNat ≤ 0x9F)) : Leads a l
  /-- Three more bytes. -/
  | four {l : Lead} (ha : 0xF0 ≤ a ∧ a ≤ 0xF4) (hfollow : l.follow = 3)
    (hlow : 0x80 ≤ l.low.toNat ∧ (a = 0xF0 → 0x90 ≤ l.low.toNat))
    (hhigh : l.high.toNat ≤ 0xBF ∧ (a = 0xF4 → l.high.toNat ≤ 0x8F)) : Leads a l

theorem lead?_eq_some {l : Lead} (h : lead? a = some l) : Leads a.toNat l := by
  unfold lead? at h
  simp only [UInt8.lt_iff_toNat_lt, beq_iff_eq, ← UInt8.toNat_inj, UInt8.reduceToNat] at h
  split at h
  · exact absurd h (by simp)
  split at h
  · obtain rfl := Option.some.inj h
    exact .two (by omega)
  split at h
  · obtain rfl := Option.some.inj h
    exact .three (by omega) rfl ⟨by decide, fun _ => by decide⟩ ⟨by decide, by omega⟩
  split at h
  · obtain rfl := Option.some.inj h
    exact .three (by omega) rfl ⟨by decide, by omega⟩ ⟨by decide, fun _ => by decide⟩
  split at h
  · obtain rfl := Option.some.inj h
    exact .three (by omega) rfl ⟨by decide, by omega⟩ ⟨by decide, by omega⟩
  split at h
  · obtain rfl := Option.some.inj h
    exact .four (by omega) rfl ⟨by decide, fun _ => by decide⟩ ⟨by decide, by omega⟩
  split at h
  · obtain rfl := Option.some.inj h
    exact .four (by omega) rfl ⟨by decide, by omega⟩ ⟨by decide, by omega⟩
  split at h
  · obtain rfl := Option.some.inj h
    exact .four (by omega) rfl ⟨by decide, by omega⟩ ⟨by decide, fun _ => by decide⟩
  · exact absurd h (by simp)

theorem isTail_iff : isTail c = true ↔ 0x80 ≤ c.toNat ∧ c.toNat ≤ 0xBF := by
  unfold isTail
  rw [Bool.and_eq_true, decide_eq_true_iff, decide_eq_true_iff, UInt8.le_iff_toNat_le, UInt8.le_iff_toNat_le]
  rfl

theorem mapM_cons_eq_some {x : Option Char} {xs : List (Option Char)} {cs : List Char}
    (h : (x :: xs).mapM id = some cs) : ∃ c rest, x = some c ∧ xs.mapM id = some rest ∧ cs = c :: rest := by
  rw [List.mapM_cons] at h
  obtain ⟨c, hc, h⟩ := Option.bind_eq_some_iff.1 h
  obtain ⟨rest, hrest, h⟩ := Option.bind_eq_some_iff.1 h
  exact ⟨c, rest, hc, hrest, (Option.some.inj h).symm⟩

theorem mapM_none {xs : List (Option Char)} {cs : List Char} : (none :: xs).mapM id ≠ some cs := by
  intro h
  obtain ⟨c, -, hc, -⟩ := mapM_cons_eq_some h
  exact absurd hc (by simp)

/-- A character made of some bytes, in front of the text of the others. -/
theorem encode_of_cons {x : Char} {s front : List UInt8} {cs : List Char} (hx : encodeChar x = front)
    (ih : ∀ {rest : List Char}, (scan s).mapM id = some rest → encode rest = s)
    (h : (some x :: scan s).mapM id = some cs) : encode cs = front ++ s := by
  obtain ⟨y, rest, hy, hrest, rfl⟩ := mapM_cons_eq_some h
  obtain rfl : x = y := Option.some.inj hy
  rw [encode, List.flatMap_cons, hx]
  exact congrArg (front ++ ·) (ih hrest)

/-- The byte behind a first one lies between the bounds that it calls for. -/
theorem between_of {l : Lead} (h : ¬ (decide (b < l.low) || decide (l.high < b)) = true) :
    l.low.toNat ≤ b.toNat ∧ b.toNat ≤ l.high.toNat := by
  simp only [Bool.or_eq_true, decide_eq_true_eq, not_or, UInt8.not_lt, UInt8.le_iff_toNat_le] at h
  exact h

/-- The text of valid bytes has these bytes. -/
theorem encode_decode? {bytes : List UInt8} {cs : List Char} (h : decode? bytes = some cs) : encode cs = bytes := by
  unfold decode? at h
  -- one character after the other; a beginning that breaks off makes no text
  fun_induction scan bytes generalizing cs with
  | case1 =>
    obtain rfl : [] = cs := Option.some.inj h
    rfl
  | case2 a s ha ih => exact encode_of_cons (encodeChar_one (UInt8.lt_iff_toNat_lt.1 ha)) ih h
  | case6 a ha l hl b s hb hfollow ih =>
    have hbetween := between_of hb
    cases lead?_eq_some hl with
    | two hrange => exact encode_of_cons (encodeChar_two hrange (by simpa using hbetween)) ih h
    | three _ hthree _ _ => exact absurd (beq_iff_eq.1 hfollow) (by omega)
    | four _ hfour _ _ => exact absurd (beq_iff_eq.1 hfollow) (by omega)
  | case9 a ha l hl b hb hone c s hc hfollow ih =>
    have hbetween := between_of hb
    rw [Bool.not_eq_true', Bool.not_eq_false, isTail_iff] at hc
    cases lead?_eq_some hl with
    | two _ => exact absurd rfl hone
    | three hrange _ hlow hhigh =>
      exact encode_of_cons (encodeChar_three hrange (by omega) (by omega) (by omega) hc) ih h
    | four _ hfour _ _ => exact absurd (beq_iff_eq.1 hfollow) (by omega)
  | case12 a ha l hl b hb hone c hc htwo d s hd ih =>
    have hbetween := between_of hb
    rw [Bool.not_eq_true', Bool.not_eq_false, isTail_iff] at hc hd
    cases lead?_eq_some hl with
    | two _ => exact absurd rfl hone
    | three _ hthree _ _ => exact absurd (beq_iff_eq.2 hthree) htwo
    | four hrange _ hlow hhigh =>
      exact encode_of_cons (encodeChar_four hrange (by omega) (by omega) (by omega) hc hd) ih h
  | _ => exact absurd h mapM_none

end Utf8

end BareImports.Text
