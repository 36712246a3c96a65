import Twd.Mirror.Mirror

/-!
# Address spaces

An address space says which cell is behind each address, if there is one. Ranges of addresses are
mapped and unmapped, and items are stored and loaded at consecutive addresses. Where the same cells
come again and again in a range, that is memory as in `Mirror`.
-/

namespace AddressSpace

variable {γ α : Type*}

/-- The space after `len` addresses from `base` on have been mapped, the one at distance `i` to
`cell i`. -/
def mapRange (space : Nat → Option γ) (base len : Nat) (cell : Nat → γ) : Nat → Option γ :=
  fun a => if base ≤ a ∧ a < base + len then some (cell (a - base)) else space a

/-- The space after `len` addresses from `base` on have been unmapped. -/
def unmapRange (space : Nat → Option γ) (base len : Nat) : Nat → Option γ :=
  fun a => if base ≤ a ∧ a < base + len then none else space a

/-- Nothing is behind `len` addresses from `base` on. -/
def Free (space : Nat → Option γ) (base len : Nat) : Prop := ∀ i < len, space (base + i) = none

/-- The cells after the items have been stored at consecutive addresses; `none` if there is an
address without a cell. -/
def store [DecidableEq γ] (space : Nat → Option γ) (mem : γ → α) (addr : Nat) :
    List α → Option (γ → α)
  | [] => some mem
  | b :: bs => (space addr).bind fun c => store space (Function.update mem c b) (addr + 1) bs

/-- The `len` items at consecutive addresses; `none` if there is an address without a cell. -/
def load (space : Nat → Option γ) (mem : γ → α) (addr : Nat) : Nat → Option (List α)
  | 0 => some []
  | len + 1 => (space addr).bind fun c => (load space mem (addr + 1) len).map (mem c :: ·)

/-- The first `size` of the cells come again and again behind `len` addresses from `base` on. -/
def Repeats (space : Nat → Option γ) (base len size : Nat) (cell : Nat → γ) : Prop :=
  ∀ i < len, space (base + i) = some (cell (i % size))

variable {space : Nat → Option γ} {base len size : Nat} {cell : Nat → γ}

theorem mapRange_of_mem {i : Nat} (hi : i < len) :
    mapRange space base len cell (base + i) = some (cell i) := by
  rw [mapRange, if_pos ⟨by omega, by omega⟩, Nat.add_sub_cancel_left]

theorem mapRange_of_not_mem {a : Nat} (ha : ¬ (base ≤ a ∧ a < base + len)) :
    mapRange space base len cell a = space a := if_neg ha

theorem unmapRange_of_not_mem {a : Nat} (ha : ¬ (base ≤ a ∧ a < base + len)) :
    unmapRange space base len a = space a := if_neg ha

/-- Spaces that agree outside of a range are the same once it has been unmapped. -/
theorem unmapRange_congr {space' : Nat → Option γ}
    (h : ∀ a, ¬ (base ≤ a ∧ a < base + len) → space a = space' a) :
    unmapRange space base len = unmapRange space' base len := by
  funext a
  by_cases ha : base ≤ a ∧ a < base + len
  · rw [unmapRange, unmapRange, if_pos ha, if_pos ha]
  · rw [unmapRange_of_not_mem ha, unmapRange_of_not_mem ha, h a ha]

theorem unmapRange_of_free (h : Free space base len) : unmapRange space base len = space := by
  funext a
  by_cases ha : base ≤ a ∧ a < base + len
  · rw [unmapRange, if_pos ha, ← h (a - base) (by omega), Nat.add_sub_cancel' ha.1]
  · exact unmapRange_of_not_mem ha

/-- Two mappings of the same cells, one after the other. -/
theorem repeats_mapRange_twice :
    Repeats (mapRange (mapRange space base size cell) (base + size) size cell) base (2 * size) size
      cell := by
  intro i hi
  by_cases hlt : i < size
  · rw [mapRange_of_not_mem (by omega), mapRange_of_mem hlt, Nat.mod_eq_of_lt hlt]
  · obtain ⟨j, rfl⟩ := Nat.exists_eq_add_of_le (Nat.not_lt.mp hlt)
    rw [← Nat.add_assoc, mapRange_of_mem (by omega), Nat.add_mod_left, Nat.mod_eq_of_lt (by omega)]

section Copies

variable [DecidableEq γ] {mem : γ → α}

/-- A store to a range in which cells repeat is a store to the mirrored cells, and to no others. -/
theorem store_repeats (h : Repeats space base len size cell) (hcell : Function.Injective cell)
    (mem : γ → α) {off : Nat} {bs : List α} (hfit : off + bs.length ≤ len) :
    ∃ mem', store space mem (base + off) bs = some mem' ∧
      (fun o => mem' (cell o)) = Mirror.store size (fun o => mem (cell o)) off bs ∧
      ∀ c, (∀ o, c ≠ cell o) → mem' c = mem c := by
  induction bs generalizing mem off with
  | nil => exact ⟨mem, rfl, rfl, fun _ _ => rfl⟩
  | cons b bs ih =>
    rw [List.length_cons] at hfit
    obtain ⟨mem', hstore, hmem', hother⟩ :=
      ih (Function.update mem (cell (off % size)) b) (show off + 1 + bs.length ≤ len by omega)
    refine ⟨mem', ?_, ?_, ?_⟩
    · rw [store, h off (by omega)]
      exact hstore
    · rw [hmem', Mirror.store]
      congr 1
      funext o
      by_cases ho : o = off % size
      · rw [ho, Function.update_self, Function.update_self]
      · rw [Function.update_of_ne (hcell.ne ho), Function.update_of_ne ho]
    · intro c hc
      rw [hother c hc, Function.update_of_ne (hc _)]

omit [DecidableEq γ] in
/-- A load from a range in which cells repeat is a load from the mirrored cells. -/
theorem load_repeats (h : Repeats space base len size cell) {off n : Nat} (hfit : off + n ≤ len) :
    load space mem (base + off) n = some (Mirror.load size (fun o => mem (cell o)) off n) := by
  induction n generalizing off with
  | zero => rfl
  | succ n ih =>
    have htail : load space mem (base + (off + 1)) n =
        some (Mirror.load size (fun o => mem (cell o)) (off + 1) n) := ih (by omega)
    rw [load, h off (by omega), Nat.add_assoc, htail, Nat.add_comm n 1, Mirror.load_append]
    rfl

end Copies

end AddressSpace
