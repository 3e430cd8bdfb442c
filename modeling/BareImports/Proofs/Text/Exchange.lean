import Mathlib.Data.List.Infix

/-!
# A text with spans of it exchanged

* `Edit`, `exchange s n es` : a text from an offset on, with spans of it exchanged;
* `exchange_split`, `take_exchange` : up to where it is first exchanged it is as it was;
* `exchange_gap`, `exchange_cons` : a gap, and a span that is exchanged behind a gap.
-/

namespace BareImports.Text

variable {s : List Char}

/-- A span of a text and what stands there instead. -/
structure Edit where
  /-- Where the span begins. -/
  start : Nat
  /-- Where it ends. -/
  stop : Nat
  /-- What stands there instead. -/
  text : List Char

/-- A text from an offset on, with spans of it exchanged in its order: the gaps as they are, and what stands between. -/
def exchange (s : List Char) (n : Nat) : List Edit → List Char
  | [] => s.drop n
  | e :: es => (s.take e.start).drop n ++ e.text ++ exchange s e.stop es

example : String.ofList (exchange "import a, import b".toList 0 [⟨7, 8, "./a.js".toList⟩, ⟨17, 18, "c".toList⟩]) =
    "import ./a.js, import c" := by decide

/-- A text up to where it is first exchanged is as it was. -/
theorem exchange_split {n k : Nat} (hnk : n ≤ k) (hk : k ≤ s.length) {es : List Edit} (hes : ∀ e ∈ es, k ≤ e.start) :
    exchange s n es = (s.take k).drop n ++ exchange s k es := by
  have hdrop : ∀ t : List Char, k ≤ t.length → t.drop n = (t.take k).drop n ++ t.drop k := by
    intro t ht
    conv_lhs => rw [← List.take_append_drop k t]
    rw [List.drop_append_of_le_length]
    simpa [ht] using hnk
  cases es with
  | nil => exact hdrop s hk
  | cons e es =>
    have hke : k ≤ e.start := hes e List.mem_cons_self
    have hgap := hdrop (s.take e.start) (by rw [List.length_take]; omega)
    rw [List.take_take, Nat.min_eq_left hke] at hgap
    unfold exchange
    rw [hgap]
    simp only [List.append_assoc]

theorem take_exchange {k : Nat} (hk : k ≤ s.length) {es : List Edit} (hes : ∀ e ∈ es, k ≤ e.start) :
    (exchange s 0 es).take k = s.take k := by
  rw [exchange_split (Nat.zero_le k) hk hes, List.drop_zero, List.take_append_of_le_length (by rw [List.length_take]; omega), List.take_take,
    Nat.min_self]

variable {u w r : List Char} {es : List Edit} {n k : Nat}

theorem drop_take_gap (hs : s = u ++ (w ++ r)) (hn : u.length = n) (hk : n + w.length = k) : (s.take k).drop n = w := by
  subst hs hn hk
  rw [List.take_length_add_append, List.drop_left, List.take_left]

/-- A gap of a text is as it was. -/
theorem exchange_gap (hs : s = u ++ (w ++ r)) (hn : u.length = n) (hk : n + w.length = k) (hes : ∀ e ∈ es, k ≤ e.start) :
    exchange s n es = w ++ exchange s k es := by
  have hle : k ≤ s.length := by
    rw [hs, List.length_append, List.length_append]
    omega
  rw [exchange_split (by omega) hle hes, drop_take_gap hs hn hk]

/-- A span is exchanged behind a gap. -/
theorem exchange_cons {e : Edit} (hs : s = u ++ (w ++ r)) (hn : u.length = n) (hk : n + w.length = e.start) :
    exchange s n (e :: es) = w ++ e.text ++ exchange s e.stop es := by
  rw [exchange, drop_take_gap hs hn hk]

end BareImports.Text
