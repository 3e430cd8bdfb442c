/-!
# Tables

A table is a list of keys with values in the order in which the keys first came.

* `Table.put`: sets the value of a key, in its place if it has one;
* `Table.update`: changes the value of a key.
-/

namespace BareImports.Table

variable {α β : Type} [BEq α]

/-- A table with the value of a key changed; a new key comes last. -/
def update (k : α) (f : Option β → β) : List (α × β) → List (α × β)
  | [] => [(k, f none)]
  | (k', v) :: t => if k' == k then (k', f (some v)) :: t else (k', v) :: update k f t

/-- A table with the value of a key set. -/
def put (t : List (α × β)) (k : α) (v : β) : List (α × β) := update k (fun _ => v) t

theorem lookup_put_self [LawfulBEq α] (t : List (α × β)) (k : α) (v : β) : (put t k v).lookup k = some v := by
  induction t with
  | nil => simp [put, update]
  | cons e t ih =>
    obtain ⟨k', v'⟩ := e
    by_cases h : k' = k
    · simp [put, update, h]
    · have hk : (k == k') = false := by simpa using Ne.symm h
      simp only [put, update, beq_iff_eq, h, ↓reduceIte, List.lookup_cons, hk]
      exact ih

theorem lookup_put_of_ne [LawfulBEq α] (t : List (α × β)) {k k' : α} (v : β) (h : k' ≠ k) :
    (put t k v).lookup k' = t.lookup k' := by
  induction t with
  | nil => simp [put, update, List.lookup_cons, beq_eq_false_iff_ne.2 h]
  | cons e t ih =>
    obtain ⟨k'', v'⟩ := e
    by_cases hk : k'' = k
    · simp [put, update, hk, List.lookup_cons, beq_eq_false_iff_ne.2 h]
    · simp only [put, update, beq_iff_eq, hk, ↓reduceIte, List.lookup_cons]
      split
      · rfl
      · exact ih

end BareImports.Table
