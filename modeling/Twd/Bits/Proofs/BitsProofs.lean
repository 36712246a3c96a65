import Twd.Bits.Bits
import Twd.LastWrite.LastWrite
import Twd.Sieve.Sieve

/-!
# Proofs about bits in an array of characters

The array represents the set of the indices whose bits are set, and the macros do with it what they
say. The program strikes out what the sieve does.
-/

namespace Twd.Bits

variable {a a' : CharArray} {s : Set Nat} {max b i : Nat}

/-! ## A character -/

theorem getLsbD_bitmask {j : Nat} (hj : j < 8) : (bitmask b).getLsbD j = decide (b % 8 = j) := by
  rw [bitmask, charBit, BitVec.getLsbD_shiftLeft, BitVec.getLsbD_one]
  by_cases hbj : b % 8 = j
  · simp [hbj]
    omega
  · simp [hbj]
    omega

theorem getLsbD_bitmask_of_ge {j : Nat} (hj : 8 ≤ j) : (bitmask b).getLsbD j = false := by
  rw [bitmask, charBit, BitVec.getLsbD_shiftLeft, BitVec.getLsbD_one]
  simp
  omega

theorem getLsbD_char (x : BitVec 8) {j : Nat} (hj : j < 8) :
    (x.signExtend 32).getLsbD j = x.getLsbD j := by
  rw [BitVec.getLsbD_signExtend, if_pos hj, decide_eq_true (by omega), Bool.true_and]

theorem getLsbD_or_bitmask (x : BitVec 8) {j : Nat} (hj : j < 8) :
    ((x.signExtend 32 ||| bitmask b).setWidth 8).getLsbD j =
      (x.getLsbD j || decide (b % 8 = j)) := by
  rw [BitVec.getLsbD_setWidth, decide_eq_true hj, Bool.true_and, BitVec.getLsbD_or,
    getLsbD_char x hj, getLsbD_bitmask hj]

theorem getLsbD_and_not_bitmask (x : BitVec 8) {j : Nat} (hj : j < 8) :
    ((x.signExtend 32 &&& ~~~bitmask b).setWidth 8).getLsbD j =
      (x.getLsbD j && !decide (b % 8 = j)) := by
  rw [BitVec.getLsbD_setWidth, decide_eq_true hj, Bool.true_and, BitVec.getLsbD_and,
    getLsbD_char x hj, BitVec.getLsbD_not, getLsbD_bitmask hj, decide_eq_true (by omega),
    Bool.true_and]

theorem and_bitmask_ne_zero_iff (x : BitVec 8) :
    x.signExtend 32 &&& bitmask b ≠ 0 ↔ x.getLsbD (b % 8) = true := by
  have hlt : b % 8 < 8 := Nat.mod_lt _ (by decide)
  constructor
  · intro hne
    by_contra hclear
    refine hne (BitVec.eq_of_getLsbD_eq fun j _ => ?_)
    rw [BitVec.getLsbD_and]
    by_cases hj : j < 8
    · rw [getLsbD_char x hj, getLsbD_bitmask hj]
      by_cases hbj : b % 8 = j
      · rw [← hbj, Bool.eq_false_of_not_eq_true hclear, Bool.false_and]
        exact BitVec.getLsbD_zero.symm
      · simp [hbj]
    · rw [getLsbD_bitmask_of_ge (Nat.le_of_not_lt hj), Bool.and_false]
      simp
  · intro hset hzero
    have hbit := congrArg (fun y => y.getLsbD (b % 8)) hzero
    simp only [BitVec.getLsbD_and, getLsbD_char x hlt, getLsbD_bitmask hlt, hset] at hbit
    simp at hbit

/-! ## The array -/

/-- The array has a character for every index below `max`, and its bits are those of the set. -/
structure Represents (max : Nat) (a : CharArray) (s : Set Nat) : Prop where
  slots : a.slots = bitnslots max
  bits : ∀ b, b ∈ s ↔ (a.cells (bitslot b)).getLsbD (b % 8) = true

theorem bitslot_lt (hb : b < max) : bitslot b < bitnslots max := by
  unfold bitslot bitnslots charBit
  omega

theorem Represents.get (h : Represents max a s) (hb : b < max) :
    a.get (bitslot b) = some ((a.cells (bitslot b)).signExtend 32) :=
  if_pos (h.slots ▸ bitslot_lt hb)

theorem cleared_represents (max : Nat) : Represents max (cleared max) ∅ where
  slots := rfl
  bits b := by simp [cleared]

/-- The characters after one bit has been changed. -/
theorem put_bits (x : BitVec 32) (c : Nat) :
    ((a.put (bitslot b) x).cells (bitslot c)).getLsbD (c % 8) =
      if bitslot c = bitslot b then (x.setWidth 8).getLsbD (c % 8)
      else (a.cells (bitslot c)).getLsbD (c % 8) := by
  unfold CharArray.put
  by_cases hslot : bitslot c = bitslot b
  · rw [if_pos hslot]
    simp only [hslot, Function.update_self]
  · rw [if_neg hslot]
    simp only [Function.update_of_ne hslot]

theorem eq_iff_slot_mod (b c : Nat) : c = b ↔ bitslot c = bitslot b ∧ b % 8 = c % 8 := by
  unfold bitslot charBit
  omega

theorem bitset_represents (h : Represents max a s) (hb : b < max) :
    ∃ a', bitset a b = some a' ∧ Represents max a' (insert b s) := by
  have hmod : ∀ c : Nat, c % 8 < 8 := fun c => Nat.mod_lt _ (by decide)
  have hput : bitset a b = some (a.put (bitslot b)
      ((a.cells (bitslot b)).signExtend 32 ||| bitmask b)) := by
    simp only [bitset, h.get hb, Option.bind_eq_bind, Option.bind_some]
  refine ⟨_, hput, h.slots, fun c => ?_⟩
  rw [put_bits, Set.mem_insert_iff, h.bits c, eq_iff_slot_mod b c]
  by_cases hslot : bitslot c = bitslot b
  · rw [if_pos hslot, getLsbD_or_bitmask _ (hmod c), hslot, Bool.or_eq_true, decide_eq_true_eq]
    tauto
  · rw [if_neg hslot]
    tauto

theorem bitclear_represents (h : Represents max a s) (hb : b < max) :
    ∃ a', bitclear a b = some a' ∧ Represents max a' (s \ {b}) := by
  have hmod : ∀ c : Nat, c % 8 < 8 := fun c => Nat.mod_lt _ (by decide)
  have hput : bitclear a b = some (a.put (bitslot b)
      ((a.cells (bitslot b)).signExtend 32 &&& ~~~bitmask b)) := by
    simp only [bitclear, h.get hb, Option.bind_eq_bind, Option.bind_some]
  refine ⟨_, hput, h.slots, fun c => ?_⟩
  rw [put_bits, Set.mem_sdiff, Set.mem_singleton_iff, h.bits c, eq_iff_slot_mod b c]
  by_cases hslot : bitslot c = bitslot b
  · rw [if_pos hslot, getLsbD_and_not_bitmask _ (hmod c), hslot, Bool.and_eq_true,
      Bool.not_eq_true', decide_eq_false_iff_not]
    tauto
  · rw [if_neg hslot]
    tauto

theorem bittest_represents (h : Represents max a s) (hb : b < max) :
    ∃ v, bittest a b = some v ∧ (v ≠ 0 ↔ b ∈ s) := by
  have hget : bittest a b = some ((a.cells (bitslot b)).signExtend 32 &&& bitmask b) := by
    simp only [bittest, h.get hb, Option.bind_eq_bind, Option.bind_some]
  refine ⟨_, hget, ?_⟩
  rw [h.bits b]
  exact and_bitmask_ne_zero_iff _

/-! ## Sequences of uses -/

theorem mem_foldl_onSet (uses : List BitUse) (b : Nat) :
    b ∈ uses.foldl BitUse.onSet ∅ ↔ LastSets uses b := by
  refine (LastWrite.mem_foldl_iff (fun s u hu => ?_) (fun s u hu => ?_) uses ∅ b).mpr fun _ =>
    Set.notMem_empty b
  · rw [hu]
    rfl
  · cases u with
    | set b' => exact absurd rfl hu
    | clear b' => rfl

theorem exec_represents (a : CharArray) (s : Set Nat) (u : BitUse) (h : Represents max a s)
    (hu : u.index < max) : ∃ a', u.exec a = some a' ∧ Represents max a' (u.onSet s) := by
  cases u with
  | set b => exact bitset_represents h hu
  | clear b => exact bitclear_represents h hu

/-- **The macros make a set of bits**: after any uses of indices below `max` on an array for `max`
bits, a bit is found just when its last use has been `BITSET`. -/
theorem uses_act_as_set (max : Nat) (uses : List BitUse) (huses : ∀ u ∈ uses, u.index < max) :
    ∃ a, Machine.run BitUse.exec (cleared max) uses = some a ∧
      ∀ b < max, ∃ v, bittest a b = some v ∧ (v ≠ 0 ↔ LastSets uses b) := by
  obtain ⟨a, hrun, hrepr⟩ := Machine.run_simulation (fun a s u h hu => exec_represents a s u h hu)
    (cleared_represents max) huses
  refine ⟨a, hrun, fun b hb => ?_⟩
  obtain ⟨v, hv, hiff⟩ := bittest_represents hrepr hb
  exact ⟨v, hv, hiff.trans (mem_foldl_onSet uses b)⟩

theorem uses_act_as_set_ten :
    ∃ a, Machine.run BitUse.exec (cleared 10) [.set 9, .set 7, .clear 9] = some a ∧
      ∀ b < 10, ∃ v, bittest a b = some v ∧ (v ≠ 0 ↔ LastSets [.set 9, .set 7, .clear 9] b) :=
  uses_act_as_set 10 [.set 9, .set 7, .clear 9] (by decide)

/-! ## The program -/

theorem addInt_eq {x y : Nat} (h : x + y < 2 ^ 31) : addInt x y = some (x + y) := if_pos h

/-- The rounds of the inner loop strike out the multiples from `j` on; the first one that is not
below `max` is still an `int`. -/
theorem strike_represents (hi : 0 < i) (hint : max + i ≤ 2 ^ 31) (fuel : Nat) :
    ∀ (j : Nat) (a : CharArray) (s : Set Nat), Represents max a s → i ∣ j → max ≤ j + fuel →
      ∃ a', strike max i fuel j a = some a' ∧
        Represents max a' (s ∪ {k | i ∣ k ∧ j ≤ k ∧ k < max}) := by
  induction fuel with
  | zero =>
    intro j a s h _ hfuel
    have hj : ¬ j < max := by omega
    refine ⟨a, if_neg hj, ?_⟩
    have hempty : {k | i ∣ k ∧ j ≤ k ∧ k < max} = (∅ : Set Nat) := by
      ext k
      simp
      omega
    rwa [hempty, Set.union_empty]
  | succ fuel ih =>
    intro j a s h hdvd hfuel
    by_cases hj : j < max
    · obtain ⟨a1, ha1, h1⟩ := bitset_represents h hj
      obtain ⟨a2, ha2, h2⟩ := ih (j + i) a1 _ h1 (Nat.dvd_add hdvd dvd_rfl) (by omega)
      have hadd : addInt j i = some (j + i) := addInt_eq (by omega)
      have hstrike : strike max i (fuel + 1) j a = some a2 := by
        simp only [strike, if_pos hj, ha1, hadd, Option.bind_eq_bind, Option.bind_some, ha2]
      refine ⟨a2, hstrike, ?_⟩
      have hset : s ∪ {k | i ∣ k ∧ j ≤ k ∧ k < max} =
          insert j s ∪ {k | i ∣ k ∧ j + i ≤ k ∧ k < max} := by
        ext k
        simp only [Set.mem_union, Set.mem_ofPred_eq, Set.mem_insert_iff]
        constructor
        · rintro (hk | ⟨hik, hjk, hk⟩)
          · exact .inl (.inr hk)
          · by_cases heq : k = j
            · exact .inl (.inl heq)
            · have hle : j + i ≤ k := by
                have hsub := Nat.le_of_dvd (by omega) (Nat.dvd_sub hik hdvd)
                omega
              exact .inr ⟨hik, hle, hk⟩
        · rintro ((rfl | hk) | ⟨hik, hjk, hk⟩)
          · exact .inr ⟨hdvd, le_rfl, hj⟩
          · exact .inl hk
          · exact .inr ⟨hik, by omega, hk⟩
      rwa [hset]
    · refine ⟨a, by simp only [strike, if_neg hj], ?_⟩
      have hempty : {k | i ∣ k ∧ j ≤ k ∧ k < max} = (∅ : Set Nat) := by
        ext k
        simp
        omega
      rwa [hempty, Set.union_empty]

/-- From a sieve that has come to `i` on, the loop prints the primes that are left. -/
theorem printLoop_eq (hint : max ≤ 2 ^ 30) (remaining : Nat) :
    ∀ (i : Nat) (a : CharArray) (s : Set Nat), 2 ≤ i → (remaining = 0 ∨ i + remaining = max) →
      Represents max a s → Sieve.Sieved max i s →
      printLoop max remaining i a = some ((List.range' i remaining).filter Nat.Prime) := by
  induction remaining with
  | zero => exact fun _ _ _ _ _ _ _ => rfl
  | succ remaining ih =>
    intro i a s hi hmax h hsieve
    have hlt : i < max := by omega
    obtain ⟨bit, hbit, hiff⟩ := bittest_represents h hlt
    have hnext : addInt i 1 = some (i + 1) := addInt_eq (by omega)
    rw [List.range'_succ]
    by_cases hprime : i.Prime
    · have hzero : bit = 0 := by
        by_contra hne
        exact (hsieve.mem_iff hi hlt).mp (hiff.mp hne) hprime
      have hdouble : addInt i i = some (i + i) := addInt_eq (by omega)
      obtain ⟨a1, ha1, h1⟩ := strike_represents (by omega) (by omega) max (i + i) a s h
        (Nat.dvd_add dvd_rfl dvd_rfl) (by omega)
      have hset : {k | i ∣ k ∧ i + i ≤ k ∧ k < max} = Sieve.multiples max i := by
        ext k
        refine and_congr_right fun hik => and_congr_left fun _ => ⟨by omega, fun hk => ?_⟩
        have hsub := Nat.le_of_dvd (by omega) (Nat.dvd_sub hik dvd_rfl)
        omega
      rw [hset] at h1
      have hrest := ih (i + 1) a1 _ (by omega) (by omega) h1 (hsieve.strike hprime)
      rw [List.filter_cons_of_pos (by simpa using hprime)]
      simp only [printLoop, hbit, Option.bind_eq_bind, Option.bind_some, hzero, if_true, hdouble,
        ha1, hnext, hrest]
    · have hne : bit ≠ 0 := hiff.mpr ((hsieve.mem_iff hi hlt).mpr hprime)
      rw [List.filter_cons_of_neg (by simpa using hprime)]
      simp only [printLoop, hbit, Option.bind_eq_bind, Option.bind_some, if_neg hne, hnext]
      exact ih (i + 1) a s (by omega) (by omega) h (hsieve.skip hprime)

/-- **What the program prints**: the primes below `MAX`, in order, for a `MAX` of up to 2^30, where
`j` stays in reach of an `int`. -/
theorem main_prints_primes (max : Nat) (hmax : max ≤ 2 ^ 30) :
    main max = some ((List.range max).filter Nat.Prime) := by
  have hloop : printLoop max (max - 2) 2 (cleared max) =
      some ((List.range' 2 (max - 2)).filter Nat.Prime) :=
    printLoop_eq hmax (max - 2) 2 (cleared max) ∅ le_rfl (by omega) (cleared_represents max)
      (Sieve.sieved_two max)
  rw [main, hloop]
  congr 1
  rcases Nat.lt_or_ge max 2 with hlt | hge
  · have hno : ∀ k < max, ¬ k.Prime := fun k hk hp => by
      have := hp.two_le
      omega
    rw [Nat.sub_eq_zero_of_le (by omega), List.range'_zero, List.filter_nil]
    exact (List.filter_eq_nil_iff.mpr fun k hk => by simpa using hno k (List.mem_range.mp hk)).symm
  · obtain ⟨m, rfl⟩ : ∃ m, max = 2 + m := ⟨max - 2, by omega⟩
    rw [List.range_eq_range', Nat.add_sub_cancel_left, ← List.range'_append_1, List.filter_append]
    rfl

/-- With the `MAX` of the source. -/
theorem main_prints_primes_below :
    main 10000 = some ((List.range 10000).filter Nat.Prime) :=
  main_prints_primes 10000 (by decide)

end Twd.Bits
