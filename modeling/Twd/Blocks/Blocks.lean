import Mathlib.Data.Set.BooleanAlgebra
import Mathlib.Data.Set.Disjoint
import Mathlib.Data.Setoid.Basic
import Mathlib.Order.CompletePartialOrder

/-!
# Nested blocks

An equivalence for every length, finer for greater lengths: what agrees with a point up to a length
is a block. Two blocks are disjoint or one is part of the other, and which of these it is shows in
the first positions of the points, up to the smaller of the two lengths.
-/

namespace Blocks

variable {α : Type*} {s : ℕ → Setoid α} {m n w : ℕ} {x y : α}

/-- What agrees with `x` up to the length `n`. -/
def block (s : ℕ → Setoid α) (n : ℕ) (x : α) : Set α := {y | s n y x}

theorem mem_block : y ∈ block s n x ↔ s n y x := Iff.rfl

theorem self_mem_block (n : ℕ) (x : α) : x ∈ block s n x := (s n).refl x

theorem block_eq (h : s n y x) : block s n y = block s n x :=
  Set.ext fun _ => ⟨fun hz => (s n).trans hz h, fun hz => (s n).trans hz ((s n).symm h)⟩

theorem block_eq_iff : block s n y = block s n x ↔ s n y x :=
  ⟨fun h => mem_block.mp (h ▸ self_mem_block n y), block_eq⟩

section Nested

variable (hs : Antitone s) (hmn : m ≤ n)

include hs hmn

theorem block_anti (x : α) : block s n x ⊆ block s m x := fun _ h => hs hmn h

/-- The longer block is part of the shorter one when its point is. -/
theorem block_subset_iff : block s n y ⊆ block s m x ↔ s m y x := by
  refine ⟨fun h => mem_block.mp (h (self_mem_block n y)), fun h => ?_⟩
  rw [← block_eq h]
  exact block_anti hs hmn y

theorem block_disjoint_iff : Disjoint (block s n y) (block s m x) ↔ ¬ s m y x := by
  constructor
  · intro hd h
    exact Set.disjoint_left.mp hd (self_mem_block n y) h
  · intro h
    refine Set.disjoint_left.mpr fun z hy hx => h ?_
    exact (s m).trans ((s m).symm (hs hmn hy)) hx

end Nested

/-- Up to the length `w` there is a point that agrees with `x` for `m` positions and no further. -/
def Splits (s : ℕ → Setoid α) (w : ℕ) : Prop :=
  ∀ x m n, m < n → n ≤ w → ∃ z, s m z x ∧ ¬ s n z x

theorem block_ssubset_iff (hs : Antitone s) (hsplit : Splits s w) (hmn : m < n) (hn : n ≤ w) :
    block s n y ⊂ block s m x ↔ s m y x := by
  refine ⟨fun h => (block_subset_iff hs hmn.le).mp h.subset, fun h => ?_⟩
  obtain ⟨z, hz, hnz⟩ := hsplit y m n hmn hn
  refine ⟨(block_subset_iff hs hmn.le).mpr h, fun hsub => hnz ?_⟩
  exact hsub ((s m).trans hz h)

/-- A block is part of another when it is longer and its point is part of it. -/
theorem block_subset_iff_of_splits (hs : Antitone s) (hsplit : Splits s w) (hm : m ≤ w) :
    block s n y ⊆ block s m x ↔ m ≤ n ∧ s m y x := by
  refine ⟨fun h => ?_, fun ⟨hmn, h⟩ => (block_subset_iff hs hmn).mpr h⟩
  have hy : s m y x := h (self_mem_block n y)
  refine ⟨?_, hy⟩
  by_contra hlt
  obtain ⟨z, hz, hnz⟩ := hsplit y n m (Nat.lt_of_not_le hlt) hm
  exact hnz ((s m).trans (h hz) ((s m).symm hy))

end Blocks
