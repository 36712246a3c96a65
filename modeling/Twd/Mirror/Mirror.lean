import Mathlib.Data.List.Basic
import Mathlib.Data.Nat.ModEq
import Mathlib.Logic.Function.Basic

/-!
# Memory that is mapped again and again

`size` cells are seen through an address range in which they repeat: offset `o` is the cell
`o % size`. Storing and loading consecutive bytes through such a range never has to care about the
end of the cells. The lemmas say what a store of at most `size` bytes changes and what a load sees
of it.
-/

namespace Mirror

variable {α : Type*}

/-- The memory after the bytes have been stored at consecutive offsets from `off` on. -/
def store (size : Nat) (mem : Nat → α) (off : Nat) : List α → Nat → α
  | [] => mem
  | b :: bs => store size (Function.update mem (off % size) b) (off + 1) bs

/-- The `len` bytes at consecutive offsets from `off` on. -/
def load (size : Nat) (mem : Nat → α) (off len : Nat) : List α :=
  (List.range len).map fun i => mem ((off + i) % size)

variable {size : Nat} {mem mem' : Nat → α}

@[simp] theorem load_length (off len : Nat) : (load size mem off len).length = len := by
  simp [load]

@[simp] theorem load_zero (off : Nat) : load size mem off 0 = [] := rfl

theorem getElem_load {off len i : Nat} (h : i < (load size mem off len).length) :
    (load size mem off len)[i] = mem ((off + i) % size) := by
  simp [load]

theorem cell_ne {a b : Nat} (hab : a < b) (hb : b < a + size) : a % size ≠ b % size := by
  intro h
  have hdvd : size ∣ b - a := (Nat.modEq_iff_dvd' hab.le).mp h
  have := Nat.le_of_dvd (by omega) hdvd
  omega

theorem load_congr {off off' len : Nat}
    (h : ∀ i < len, mem ((off + i) % size) = mem' ((off' + i) % size)) :
    load size mem off len = load size mem' off' len := by
  apply List.map_congr_left
  intro i hi
  exact h i (List.mem_range.mp hi)

/-- Offsets that agree modulo `size` see the same bytes. -/
theorem load_of_mod_eq {off off' : Nat} (len : Nat) (h : off % size = off' % size) :
    load size mem off len = load size mem off' len := by
  apply load_congr
  intro i _
  rw [Nat.add_mod, h, ← Nat.add_mod]

theorem load_append (off m n : Nat) :
    load size mem off (m + n) = load size mem off m ++ load size mem (off + m) n := by
  simp [load, List.range_add, Function.comp_def, Nat.add_assoc]

theorem take_load {off m len : Nat} (h : m ≤ len) :
    (load size mem off len).take m = load size mem off m := by
  obtain ⟨n, rfl⟩ := Nat.exists_eq_add_of_le h
  rw [load_append, List.take_left' (load_length off m)]

theorem drop_load {off m len : Nat} (h : m ≤ len) :
    (load size mem off len).drop m = load size mem (off + m) (len - m) := by
  obtain ⟨n, rfl⟩ := Nat.exists_eq_add_of_le h
  rw [load_append, List.drop_left' (load_length off m), Nat.add_sub_cancel_left]

/-- Offsets that agree modulo `size` are stored to alike. -/
theorem store_of_mod_eq {off off' : Nat} (bs : List α) (h : off % size = off' % size) :
    store size mem off bs = store size mem off' bs := by
  induction bs generalizing mem off off' with
  | nil => rfl
  | cons b bs ih =>
    rw [store, store, h]
    refine ih ?_
    rw [Nat.add_mod, h, ← Nat.add_mod]

theorem store_apply_of_ne {off : Nat} {bs : List α} {c : Nat}
    (h : ∀ i < bs.length, (off + i) % size ≠ c) : store size mem off bs c = mem c := by
  induction bs generalizing mem off with
  | nil => rfl
  | cons b bs ih =>
    have h0 : off % size ≠ c := h 0 (by simp)
    rw [store, ih, Function.update_of_ne h0.symm]
    intro i hi
    have := h (i + 1) (by simp; omega)
    rwa [Nat.add_assoc, Nat.add_comm 1]

/-- A store of at most `size` bytes puts byte `i` at offset `off + i`: no later byte of it comes
    around to the same cell. -/
theorem store_apply {off : Nat} {bs : List α} (hle : bs.length ≤ size) {i : Nat}
    (hi : i < bs.length) : store size mem off bs ((off + i) % size) = bs[i] := by
  induction bs generalizing mem off i with
  | nil => simp at hi
  | cons b bs ih =>
    simp only [List.length_cons] at hle hi
    rw [store]
    cases i with
    | zero =>
      rw [store_apply_of_ne, Nat.add_zero, Function.update_self, List.getElem_cons_zero]
      intro j hj
      exact (cell_ne (by omega) (by omega)).symm
    | succ i =>
      have htail : store size (Function.update mem (off % size) b) (off + 1) bs
          ((off + 1 + i) % size) = bs[i] := ih (by omega) (by omega)
      rw [List.getElem_cons_succ, ← htail]
      congr 2
      omega

theorem load_store {off : Nat} {bs : List α} (hle : bs.length ≤ size) :
    load size (store size mem off bs) off bs.length = bs := by
  apply List.ext_getElem (load_length _ _)
  intro i h1 h2
  rw [getElem_load, store_apply hle h2]

/-- A store leaves the bytes just before it as they were, as far back as the cells reach. -/
theorem load_store_before {off m : Nat} {bs : List α} (hle : m + bs.length ≤ size) :
    load size (store size mem (off + m) bs) off m = load size mem off m := by
  refine load_congr fun i hi => store_apply_of_ne fun j hj => ?_
  exact (cell_ne (by omega) (by omega)).symm

/-- Storing after `m` bytes appends to what a load from their offset sees. -/
theorem load_store_append {off m : Nat} {bs : List α} (hle : m + bs.length ≤ size) :
    load size (store size mem (off + m) bs) off (m + bs.length) = load size mem off m ++ bs := by
  rw [load_append, load_store_before hle, load_store (by omega)]

end Mirror
