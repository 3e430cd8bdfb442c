/-!
# Values by number

* `Numbered`: a value for each number, as a tree over the binary digits;
* `Numbered.update`: changes the value of a number;
* `Numbered.ofList`: the members of a list by their places;
* `Numbered.get_update`, `Numbered.get_ofList`: what is found afterwards.
-/

namespace BareImports.Script

/-- A value for each number. -/
inductive Numbered (α : Type)
  /-- One value for all numbers. -/
  | all (value : α)
  /-- The value of zero, then those of the odd numbers and those of the other even ones, by their halves. -/
  | fork (value : α) (odd even : Numbered α)
  deriving Repr

namespace Numbered

variable {α : Type}

/-- The value of a number. -/
def get : Numbered α → Nat → α
  | .all x, _ => x
  | .fork x odd even, n =>
    if n == 0 then x else if n % 2 == 1 then odd.get (n / 2) else even.get (n / 2 - 1)

/-- The value of zero, the values of the odd numbers, and those of the other even ones. -/
def parts : Numbered α → α × Numbered α × Numbered α
  | .all x => (x, .all x, .all x)
  | .fork x odd even => (x, odd, even)

/-- Changes the value of a number below the fuel. -/
def updateFrom (f : α → α) : Nat → Numbered α → Nat → Numbered α
  | 0, c, _ => c
  | fuel + 1, c, n =>
    let (x, odd, even) := c.parts
    if n == 0 then .fork (f x) odd even
    else if n % 2 == 1 then .fork x (updateFrom f fuel odd (n / 2)) even
    else .fork x odd (updateFrom f fuel even (n / 2 - 1))

/-- Changes the value of a number. -/
def update (c : Numbered α) (n : Nat) (f : α → α) : Numbered α := updateFrom f (n + 1) c n

/-- The members of a list by their places, and one value for all other numbers. -/
def ofList (x : α) (xs : List α) : Numbered α :=
  xs.zipIdx.foldl (fun c (y, n) => c.update n fun _ => y) (.all x)

theorem get_parts (c : Numbered α) (n : Nat) :
    c.get n = if n = 0 then c.parts.1 else if n % 2 = 1 then c.parts.2.1.get (n / 2) else c.parts.2.2.get (n / 2 - 1) := by
  cases c with
  | all x => simp [get, parts]
  | fork x odd even => simp [get, parts]

theorem get_updateFrom (f : α → α) (fuel : Nat) (c : Numbered α) (n m : Nat) (h : n < fuel) :
    (updateFrom f fuel c n).get m = if m = n then f (c.get m) else c.get m := by
  induction fuel generalizing c n m with
  | zero => omega
  | succ fuel ih =>
    -- half of a number that is not zero is below what is left of the fuel
    rw [get_parts c m]
    unfold updateFrom
    by_cases hn : n = 0
    · by_cases hm : m = 0 <;> simp [get, hn, hm]
    · have hodd := ih c.parts.2.1 (n / 2) (m / 2) (by omega)
      have heven := ih c.parts.2.2 (n / 2 - 1) (m / 2 - 1) (by omega)
      grind [get]

theorem get_update (c : Numbered α) (n m : Nat) (f : α → α) :
    (c.update n f).get m = if m = n then f (c.get m) else c.get m :=
  get_updateFrom f (n + 1) c n m (Nat.lt_succ_self n)

/-- Members that are put in from place `k` on are found from there on. -/
theorem get_foldl_zipIdx (xs : List α) (c : Numbered α) (k n : Nat) :
    ((xs.zipIdx k).foldl (fun c (y, i) => c.update i fun _ => y) c).get n =
      if k ≤ n then xs.getD (n - k) (c.get n) else c.get n := by
  induction xs generalizing c k with
  | nil => simp
  | cons y xs ih =>
    rw [List.zipIdx_cons, List.foldl_cons, ih, get_update]
    rcases Nat.lt_trichotomy n k with hlt | rfl | hgt
    · simp [Nat.not_le_of_lt hlt, Nat.ne_of_lt hlt, show ¬k + 1 ≤ n by omega]
    · simp [show ¬n + 1 ≤ n by omega]
    · simp [show k + 1 ≤ n by omega, show k ≤ n by omega, show n ≠ k by omega, show n - k = n - (k + 1) + 1 by omega]

theorem get_ofList (x : α) (xs : List α) (n : Nat) : (ofList x xs).get n = xs.getD n x := by
  rw [ofList, get_foldl_zipIdx]
  simp [get]

end Numbered

end BareImports.Script
