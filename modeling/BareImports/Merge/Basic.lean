/-!
# Many producers, one stream

A merge counts the producers that were added and not yet seen to have ended. Items and ends share one queue, so the
end of a producer is seen behind its last item and behind every producer that it added.

* `Merge`: the queue and the count;
* `Merge.add`, `Merge.put`, `Merge.close`: what producers do;
* `Merge.take?`, `Merge.drain`: what the consumer does.
-/

namespace BareImports

/-- A queue of items and of ends of producers. -/
structure Merge (α : Type) where
  /-- Items and ends, the oldest first. -/
  queue : List (Option α) := []
  /-- Producers that were added and whose end the consumer has not taken. -/
  outstanding : Nat := 0

namespace Merge

variable {α : Type}

/-- A further producer. -/
def add (m : Merge α) : Merge α := { m with outstanding := m.outstanding + 1 }

/-- An item of a producer. -/
def put (m : Merge α) (a : α) : Merge α := { m with queue := m.queue ++ [some a] }

/-- The end of a producer. -/
def close (m : Merge α) : Merge α := { m with queue := m.queue ++ [none] }

/-- Whether the stream has ended for the consumer. -/
def isOver (m : Merge α) : Bool := m.outstanding == 0

/-- Takes the oldest entry: an item, or `none` for the end of a producer. -/
def take? (m : Merge α) : Option (Option α × Merge α) :=
  match m.queue with
  | [] => none
  | some a :: q => some (some a, { m with queue := q })
  | none :: q => some (none, ⟨q, m.outstanding - 1⟩)

/-- Takes all entries while producers are outstanding, and gives their items. -/
def drain (m : Merge α) : List α × Merge α := go m.outstanding m.queue
where
  /-- Takes entries from a queue. -/
  go (outstanding : Nat) : List (Option α) → List α × Merge α
    | [] => ([], ⟨[], outstanding⟩)
    | e :: q =>
      if outstanding == 0 then ([], ⟨e :: q, 0⟩)
      else match e with
        | none => go (outstanding - 1) q
        | some a =>
          let (items, m) := go outstanding q
          (a :: items, m)

end Merge

end BareImports
