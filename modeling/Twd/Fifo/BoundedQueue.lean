import Mathlib.Data.List.Basic

/-!
# Bounded first-in first-out queues

A queue that holds at most `cap` items. The bound is a field, so no operation can build a queue that
breaks it. A write appends as many items as there is room for, a read removes the oldest ones.
-/

/-- A queue of at most `cap` items, the oldest first. -/
@[ext] structure BoundedQueue (α : Type*) (cap : Nat) where
  /-- The items, the oldest first. -/
  items : List α
  /-- There are at most `cap` of them. -/
  length_le : items.length ≤ cap

namespace BoundedQueue

variable {α : Type*} {cap : Nat}

/-- The queue without items. -/
def empty : BoundedQueue α cap := ⟨[], Nat.zero_le cap⟩

/-- The number of items. -/
def used (q : BoundedQueue α cap) : Nat := q.items.length

/-- The number of items that can still be added. -/
def avail (q : BoundedQueue α cap) : Nat := cap - q.items.length

/-- Appends the first `min (cap - |q|) amount` items of `src`, returns how many that are. -/
def write (q : BoundedQueue α cap) (src : List α) (amount : Nat) : Nat × BoundedQueue α cap :=
  (min q.avail amount, ⟨q.items ++ src.take (min q.avail amount), by
    have := q.length_le
    simp only [List.length_append, List.length_take, avail]
    omega⟩)

/-- The oldest `min |q| amount` items. -/
def peek (q : BoundedQueue α cap) (amount : Nat) : List α := q.items.take amount

/-- Removes and returns the oldest `min |q| amount` items. -/
def read (q : BoundedQueue α cap) (amount : Nat) : List α × BoundedQueue α cap :=
  (q.peek amount, ⟨q.items.drop amount, by
    have := q.length_le
    rw [List.length_drop]
    omega⟩)

@[simp] theorem write_items (q : BoundedQueue α cap) (src : List α) (amount : Nat) :
    (q.write src amount).2.items = q.items ++ src.take (min q.avail amount) := rfl

@[simp] theorem read_items (q : BoundedQueue α cap) (amount : Nat) :
    (q.read amount).2.items = q.items.drop amount := rfl

end BoundedQueue
