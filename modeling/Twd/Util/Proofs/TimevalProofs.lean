import Mathlib.Algebra.Order.Ring.Int
import Mathlib.Algebra.Order.Group.Abs
import Mathlib.Tactic.Positivity
import Twd.Util.Timeval

/-!
# Proofs about times and numbers that wrap around

Each function on times is related to the operation on the microseconds that they denote, and each on
sequence numbers to that on integers near each other.
-/

namespace Twd.Util

variable {s1 s2 d now : TwdTime.Timeval}

/-! ## Values of type `long` and `int` -/

theorem checkLong_eq {x : Int} (h0 : -2 ^ 63 ≤ x) (hlt : x < 2 ^ 63) : checkLong x = some x :=
  if_pos ⟨h0, hlt⟩

theorem checkInt_eq {x : Int} (h : -2 ^ 31 ≤ x ∧ x < 2 ^ 31) : checkInt x = some x := if_pos h

theorem checkInt_eq_none {x : Int} (h : ¬ (-2 ^ 31 ≤ x ∧ x < 2 ^ 31)) : checkInt x = none :=
  if_neg h

theorem toInt_eq {x : Int} (h0 : 0 ≤ x) (hlt : x < 2 ^ 31) : toInt x = x := by
  rw [toInt, BitVec.toInt_ofInt]
  exact Int.bmod_eq_of_le (by omega) (by omega)

theorem toInt_emod (x : Int) : toInt x % 2 ^ 32 = x % 2 ^ 32 := by
  rw [toInt, BitVec.toInt_ofInt]
  exact Int.bmod_emod ..

theorem toInt_bounds (x : Int) : -2 ^ 31 ≤ toInt x ∧ toInt x < 2 ^ 31 := by
  have hlo := BitVec.le_toInt (BitVec.ofInt 32 x)
  have hhi := BitVec.toInt_lt (x := BitVec.ofInt 32 x)
  exact ⟨hlo, hhi⟩

theorem toNat_ofInt {w : Nat} {x : Int} (h0 : 0 ≤ x) (hlt : x < 2 ^ w) :
    ((BitVec.ofInt w x).toNat : Int) = x := by
  rw [BitVec.toNat_ofInt, Int.toNat_of_nonneg (Int.emod_nonneg _ (by positivity))]
  exact Int.emod_eq_of_lt h0 (by exact_mod_cast hlt)

/-! ## Differences and order -/

section Minus

variable (hsec : -2 ^ 62 < s1.tvSec - s2.tvSec ∧ s1.tvSec - s2.tvSec < 2 ^ 62)
  (h1 : -2 ^ 61 < s1.tvUsec ∧ s1.tvUsec < 2 ^ 61) (h2 : -2 ^ 61 < s2.tvUsec ∧ s2.tvUsec < 2 ^ 61)

include hsec h1 h2

theorem timevalMinus_of_le (hle : s2.tvUsec ≤ s1.tvUsec) :
    timevalMinus s1 s2 = some ⟨s1.tvSec - s2.tvSec, s1.tvUsec - s2.tvUsec⟩ := by
  have hsecs : checkLong (s1.tvSec - s2.tvSec) = some (s1.tvSec - s2.tvSec) :=
    checkLong_eq (by omega) (by omega)
  have husecs : checkLong (s1.tvUsec - s2.tvUsec) = some (s1.tvUsec - s2.tvUsec) :=
    checkLong_eq (by omega) (by omega)
  rw [timevalMinus, if_pos hle, hsecs, husecs]
  rfl

theorem timevalMinus_of_lt (hlt : s1.tvUsec < s2.tvUsec) :
    timevalMinus s1 s2 =
      some ⟨s1.tvSec - s2.tvSec - 1, s1.tvUsec + 1000000 - s2.tvUsec⟩ := by
  have hsecs : checkLong (s1.tvSec - s2.tvSec) = some (s1.tvSec - s2.tvSec) :=
    checkLong_eq (by omega) (by omega)
  have hborrowed : checkLong (s1.tvSec - s2.tvSec - 1) = some (s1.tvSec - s2.tvSec - 1) :=
    checkLong_eq (by omega) (by omega)
  have hmillion : checkLong (s1.tvUsec + 1000000) = some (s1.tvUsec + 1000000) :=
    checkLong_eq (by omega) (by omega)
  have husecs : checkLong (s1.tvUsec + 1000000 - s2.tvUsec) =
      some (s1.tvUsec + 1000000 - s2.tvUsec) := checkLong_eq (by omega) (by omega)
  rw [timevalMinus, if_neg (Int.not_le.mpr hlt)]
  simp only [hsecs, hborrowed, hmillion, husecs, Option.bind_eq_bind, Option.bind_some]

end Minus

/-- The difference of normalised times is normalised and exact. -/
theorem timevalMinus_spec (h1 : Normalised s1) (h2 : Normalised s2)
    (hsec : -2 ^ 62 < s1.tvSec - s2.tvSec ∧ s1.tvSec - s2.tvSec < 2 ^ 62) :
    ∃ diff, timevalMinus s1 s2 = some diff ∧ Normalised diff ∧ diff.time = s1.time - s2.time := by
  unfold Normalised at h1 h2
  rcases le_or_gt s2.tvUsec s1.tvUsec with hle | hlt
  · refine ⟨_, timevalMinus_of_le hsec (by omega) (by omega) hle, ?_, ?_⟩
    · unfold Normalised
      dsimp only
      omega
    · unfold TwdTime.Timeval.time
      dsimp only
      omega
  · refine ⟨_, timevalMinus_of_lt hsec (by omega) (by omega) hlt, ?_, ?_⟩
    · unfold Normalised
      dsimp only
      omega
    · unfold TwdTime.Timeval.time
      dsimp only
      omega

/-- The order on normalised times is that on the microseconds they denote. -/
theorem timevalCompare_eq (h1 : Normalised s1) (h2 : Normalised s2) :
    timevalCompare s1 s2 = (s1.time - s2.time).sign := by
  unfold Normalised at h1 h2
  unfold timevalCompare TwdTime.Timeval.time
  split_ifs
  · exact (Int.sign_eq_neg_one_of_neg (by omega)).symm
  · exact (Int.sign_eq_one_of_pos (by omega)).symm
  · exact (Int.sign_eq_neg_one_of_neg (by omega)).symm
  · exact (Int.sign_eq_one_of_pos (by omega)).symm
  · exact (Int.sign_eq_zero_iff_zero.mpr (by omega)).symm

/-! ## The other subtraction -/

/-- `*y` when `k` seconds have been moved from its microseconds to its seconds. -/
def shifted (y : TwdTime.Timeval) (k : Int) : TwdTime.Timeval :=
  ⟨y.tvSec + k, y.tvUsec - 1000000 * k⟩

/-- The seconds that the two branches move. -/
def moved (x y : TwdTime.Timeval) : Int :=
  if x.tvUsec < y.tvUsec then toInt ((y.tvUsec - x.tvUsec) / 1000000 + 1)
  else if 1000000 < x.tvUsec - y.tvUsec then -toInt ((x.tvUsec - y.tvUsec) / 1000000)
  else 0

section Subtract

variable {x y : TwdTime.Timeval}

theorem Moderate.bounds (h : Moderate x) : (-2 ^ 61 < x.tvSec ∧ x.tvSec < 2 ^ 61) ∧
    -2 ^ 61 < x.tvUsec ∧ x.tvUsec < 2 ^ 61 :=
  ⟨abs_lt.mp h.1, abs_lt.mp h.2⟩

theorem shifted_neg (y : TwdTime.Timeval) (k : Int) :
    shifted y (-k) = ⟨y.tvSec - k, y.tvUsec + 1000000 * k⟩ := by
  rw [shifted, Int.mul_neg, Int.sub_neg, ← Int.sub_eq_add_neg]

theorem shifted_zero (y : TwdTime.Timeval) : shifted y 0 = y := by
  rw [shifted, Int.mul_zero, Int.sub_zero, Int.add_zero]

theorem moved_of_lt (hlt : x.tvUsec < y.tvUsec) :
    moved x y = toInt ((y.tvUsec - x.tvUsec) / 1000000 + 1) := if_pos hlt

theorem moved_of_le (hge : y.tvUsec ≤ x.tvUsec) (hle : x.tvUsec - y.tvUsec ≤ 1000000) :
    moved x y = 0 := by
  rw [moved, if_neg (Int.not_lt.mpr hge), if_neg (Int.not_lt.mpr hle)]

theorem moved_of_gt (hgt : 1000000 < x.tvUsec - y.tvUsec) :
    moved x y = -toInt ((x.tvUsec - y.tvUsec) / 1000000) := by
  rw [moved, if_neg (by omega), if_pos hgt]

/-- The first branch borrows `nsec` seconds, if a million times that is an `int`. -/
theorem borrow_of_lt (hx : Moderate x) (hy : Moderate y) (hlt : x.tvUsec < y.tvUsec) :
    borrow x y = (checkInt (1000000 * moved x y)).map fun _ => shifted y (moved x y) := by
  obtain ⟨-, hxu⟩ := hx.bounds
  obtain ⟨hys, hyu⟩ := hy.bounds
  have husecs : checkLong (y.tvUsec - x.tvUsec) = some (y.tvUsec - x.tvUsec) :=
    checkLong_eq (by omega) (by omega)
  rw [borrow, if_pos hlt, husecs]
  simp only [Option.bind_eq_bind, Option.bind_some]
  rw [Int.tdiv_eq_ediv_of_nonneg (by omega), ← moved_of_lt hlt]
  by_cases hint : -2 ^ 31 ≤ 1000000 * moved x y ∧ 1000000 * moved x y < 2 ^ 31
  · have husec : checkLong (y.tvUsec - 1000000 * moved x y) =
        some (y.tvUsec - 1000000 * moved x y) := checkLong_eq (by omega) (by omega)
    have hsec : checkLong (y.tvSec + moved x y) = some (y.tvSec + moved x y) :=
      checkLong_eq (by omega) (by omega)
    rw [checkInt_eq hint]
    simp only [Option.bind_some, husec, hsec, Option.map_some, shifted]
  · rw [checkInt_eq_none hint]
    rfl

/-- The second branch gives `nsec` seconds back, if a million times that is an `int`. -/
theorem carry_of_gt (hx : Moderate x) (hy : Moderate y) (hgt : 1000000 < x.tvUsec - y.tvUsec) :
    carry x y = (checkInt (1000000 * -moved x y)).map fun _ => shifted y (moved x y) := by
  obtain ⟨-, hxu⟩ := hx.bounds
  obtain ⟨hys, hyu⟩ := hy.bounds
  have husecs : checkLong (x.tvUsec - y.tvUsec) = some (x.tvUsec - y.tvUsec) :=
    checkLong_eq (by omega) (by omega)
  rw [carry, husecs]
  simp only [Option.bind_eq_bind, Option.bind_some]
  rw [if_pos hgt, Int.tdiv_eq_ediv_of_nonneg (by omega), moved_of_gt hgt, Int.neg_neg, shifted_neg]
  set k := toInt ((x.tvUsec - y.tvUsec) / 1000000)
  by_cases hint : -2 ^ 31 ≤ 1000000 * k ∧ 1000000 * k < 2 ^ 31
  · have husec : checkLong (y.tvUsec + 1000000 * k) = some (y.tvUsec + 1000000 * k) :=
      checkLong_eq (by omega) (by omega)
    have hsec : checkLong (y.tvSec - k) = some (y.tvSec - k) := checkLong_eq (by omega) (by omega)
    rw [checkInt_eq hint]
    simp only [Option.bind_some, husec, hsec, Option.map_some]
  · rw [checkInt_eq_none hint]
    rfl

theorem carry_of_le (hle : x.tvUsec - y.tvUsec ≤ 1000000)
    (hlong : -2 ^ 63 ≤ x.tvUsec - y.tvUsec) : carry x y = some y := by
  rw [carry, checkLong_eq hlong (by omega)]
  exact if_neg (Int.not_lt.mpr hle)

/-- After a borrow the second branch is not taken. -/
theorem carry_of_borrowed (hx : Moderate x) (hy : Moderate y) (hlt : x.tvUsec < y.tvUsec)
    (hk : |moved x y| ≤ 2147) : carry x (shifted y (moved x y)) = some (shifted y (moved x y)) := by
  obtain ⟨-, hxu⟩ := hx.bounds
  obtain ⟨-, hyu⟩ := hy.bounds
  have hemod := toInt_emod ((y.tvUsec - x.tvUsec) / 1000000 + 1)
  rw [← moved_of_lt hlt] at hemod
  obtain ⟨hlo, hhi⟩ := abs_le.mp hk
  refine carry_of_le ?_ ?_
  · simp only [shifted]
    omega
  · simp only [shifted]
    omega

/-- The two branches together, which overflow when too many seconds are moved. -/
theorem branches_eq (hx : Moderate x) (hy : Moderate y) :
    (borrow x y).bind (carry x) =
      if |moved x y| ≤ 2147 then some (shifted y (moved x y)) else none := by
  obtain ⟨-, hxu⟩ := hx.bounds
  obtain ⟨-, hyu⟩ := hy.bounds
  rcases lt_or_ge x.tvUsec y.tvUsec with hlt | hge
  · rw [borrow_of_lt hx hy hlt]
    split_ifs with hk
    · obtain ⟨hlo, hhi⟩ := abs_le.mp hk
      rw [checkInt_eq (by omega), Option.map_some, Option.bind_some]
      exact carry_of_borrowed hx hy hlt hk
    · rw [abs_le] at hk
      rw [checkInt_eq_none (by omega)]
      rfl
  · have hborrow : borrow x y = some y := if_neg (Int.not_lt.mpr hge)
    rw [hborrow, Option.bind_some]
    rcases le_or_gt (x.tvUsec - y.tvUsec) 1000000 with hle | hgt
    · rw [carry_of_le hle (by omega), moved_of_le hge hle, shifted_zero]
      rfl
    · rw [carry_of_gt hx hy hgt]
      split_ifs with hk
      · obtain ⟨hlo, hhi⟩ := abs_le.mp hk
        rw [checkInt_eq (by omega), Option.map_some]
      · rw [abs_le] at hk
        rw [checkInt_eq_none (by omega)]
        rfl

/-- The call is told by the seconds that the two branches move. -/
theorem timevalSubtract_eq (hx : Moderate x) (hy : Moderate y) (hk : |moved x y| ≤ 2147) :
    timevalSubtract x y =
      some (⟨x.tvSec - (y.tvSec + moved x y), x.tvUsec - (y.tvUsec - 1000000 * moved x y)⟩,
        shifted y (moved x y), if x.tvSec < y.tvSec + moved x y then 1 else 0) := by
  have h := branches_eq hx hy
  rw [if_pos hk] at h
  obtain ⟨hxs, hxu⟩ := hx.bounds
  obtain ⟨hys, hyu⟩ := hy.bounds
  obtain ⟨hlo, hhi⟩ := abs_le.mp hk
  obtain ⟨y1, hborrow, hcarry⟩ := Option.bind_eq_some_iff.mp h
  have hsec : checkLong (x.tvSec - (y.tvSec + moved x y)) =
      some (x.tvSec - (y.tvSec + moved x y)) := checkLong_eq (by omega) (by omega)
  have husec : checkLong (x.tvUsec - (y.tvUsec - 1000000 * moved x y)) =
      some (x.tvUsec - (y.tvUsec - 1000000 * moved x y)) := checkLong_eq (by omega) (by omega)
  simp only [timevalSubtract, hborrow, hcarry, Option.bind_eq_bind, Option.bind_some, shifted, hsec,
    husec]

/-- Too many seconds are moved, and there is no result. -/
theorem timevalSubtract_eq_none (hx : Moderate x) (hy : Moderate y) (hk : ¬ |moved x y| ≤ 2147) :
    timevalSubtract x y = none := by
  have h := branches_eq hx hy
  rw [if_neg hk] at h
  cases hborrow : borrow x y with
  | none => simp [timevalSubtract, hborrow]
  | some y1 =>
    rw [hborrow, Option.bind_some] at h
    simp [timevalSubtract, hborrow, h]

/-- The two subtractions agree when as many seconds are moved as `timeval_minus` borrows. -/
theorem subtractsAlike_iff_moved (hx : Moderate x) (hy : Moderate y) (hk : |moved x y| ≤ 2147) :
    SubtractsAlike x y ↔ moved x y = if x.tvUsec < y.tvUsec then 1 else 0 := by
  have hsub := timevalSubtract_eq hx hy hk
  obtain ⟨hxs, hxu⟩ := hx.bounds
  obtain ⟨hys, hyu⟩ := hy.bounds
  have hsec : -2 ^ 62 < x.tvSec - y.tvSec ∧ x.tvSec - y.tvSec < 2 ^ 62 := by omega
  unfold SubtractsAlike
  simp only [hsub, Option.some.injEq, Prod.mk.injEq]
  constructor
  · rintro ⟨result, y', rc, ⟨rfl, -, -⟩, hminus, -⟩
    rcases lt_or_ge x.tvUsec y.tvUsec with hlt | hge
    · rw [timevalMinus_of_lt hsec hxu hyu hlt, Option.some.injEq, TwdTime.Timeval.mk.injEq] at hminus
      rw [if_pos hlt]
      omega
    · rw [timevalMinus_of_le hsec hxu hyu hge, Option.some.injEq, TwdTime.Timeval.mk.injEq] at hminus
      rw [if_neg (Int.not_lt.mpr hge)]
      omega
  · intro hone
    refine ⟨_, _, _, ⟨rfl, rfl, rfl⟩, ?_, ?_⟩
    · rcases lt_or_ge x.tvUsec y.tvUsec with hlt | hge
      · rw [timevalMinus_of_lt hsec hxu hyu hlt, hone, if_pos hlt, Option.some.injEq,
          TwdTime.Timeval.mk.injEq]
        omega
      · rw [timevalMinus_of_le hsec hxu hyu hge, hone, if_neg (Int.not_lt.mpr hge),
          Option.some.injEq, TwdTime.Timeval.mk.injEq]
        omega
    · rw [hone]
      unfold timevalCompare
      split_ifs <;> first | decide | omega

/-- The branches over exact integers move as many seconds, unless an `int` cuts the number. -/
theorem branches_exact (hlo : -2147000000 < x.tvUsec - y.tvUsec)
    (hhi : x.tvUsec - y.tvUsec < 2148000000) :
    TwdTime.carry x (TwdTime.borrow x y) = shifted y (moved x y) := by
  rcases lt_or_ge x.tvUsec y.tvUsec with hlt | hge
  · rw [moved_of_lt hlt, toInt_eq (by omega) (by omega), TwdTime.borrow_of_lt x y hlt]
    refine TwdTime.carry_of_le x _ ?_
    simp only
    omega
  · rw [TwdTime.borrow_of_le x y hge]
    rcases le_or_gt (x.tvUsec - y.tvUsec) 1000000 with hle | hgt
    · rw [moved_of_le hge hle, shifted_zero, TwdTime.carry_of_le x y hle]
    · rw [moved_of_gt hgt, toInt_eq (by omega) (by omega), shifted_neg,
        TwdTime.carry_of_gt x y hgt]

/-- The subtraction over exact integers is that of the program as long as a million times the seconds
that are moved is an `int`. -/
theorem timevalSubtract_eq_exact (hx : Moderate x) (hy : Moderate y)
    (hlo : -2147000000 < x.tvUsec - y.tvUsec) (hhi : x.tvUsec - y.tvUsec < 2148000000) :
    timevalSubtract x y = some (TwdTime.timevalSubtract x y) := by
  have hk : |moved x y| ≤ 2147 := by
    rw [abs_le]
    rcases lt_or_ge x.tvUsec y.tvUsec with hlt | hge
    · rw [moved_of_lt hlt, toInt_eq (by omega) (by omega)]
      omega
    · rcases le_or_gt (x.tvUsec - y.tvUsec) 1000000 with hle | hgt
      · rw [moved_of_le hge hle]
        omega
      · rw [moved_of_gt hgt, toInt_eq (by omega) (by omega)]
        omega
  rw [timevalSubtract_eq hx hy hk, TwdTime.timevalSubtract, branches_exact hlo hhi]
  rfl

/-- Just then are as many seconds moved as `timeval_minus` borrows. -/
theorem moved_eq_iff :
    (|moved x y| ≤ 2147 ∧ moved x y = if x.tvUsec < y.tvUsec then 1 else 0) ↔
      x.tvUsec - y.tvUsec = 1000000 ∨ |x.tvUsec - y.tvUsec| / 1000000 % 2 ^ 32 = 0 := by
  rw [abs_le]
  rcases lt_or_ge x.tvUsec y.tvUsec with hlt | hge
  · have hemod := toInt_emod ((y.tvUsec - x.tvUsec) / 1000000 + 1)
    have hbounds := toInt_bounds ((y.tvUsec - x.tvUsec) / 1000000 + 1)
    rw [abs_of_neg (by omega), moved_of_lt hlt, if_pos hlt]
    omega
  · rw [abs_of_nonneg (by omega), if_neg (Int.not_lt.mpr hge)]
    rcases le_or_gt (x.tvUsec - y.tvUsec) 1000000 with hle | hgt
    · rw [moved_of_le hge hle]
      omega
    · have hemod := toInt_emod ((x.tvUsec - y.tvUsec) / 1000000)
      have hbounds := toInt_bounds ((x.tvUsec - y.tvUsec) / 1000000)
      rw [moved_of_gt hgt]
      omega

end Subtract

/-- **When the two subtractions agree**: just if the microseconds differ by less than a second, or
those of the first are a whole second more, or the number of whole seconds between them is lost in
an `int`. -/
theorem timevalSubtract_alike_iff (x y : TwdTime.Timeval) (hx : Moderate x) (hy : Moderate y) :
    SubtractsAlike x y ↔ x.tvUsec - y.tvUsec = 1000000 ∨
      |x.tvUsec - y.tvUsec| / 1000000 % 2 ^ 32 = 0 := by
  rw [← moved_eq_iff]
  by_cases hk : |moved x y| ≤ 2147
  · rw [subtractsAlike_iff_moved hx hy hk, and_iff_right hk]
  · refine iff_of_false ?_ fun h => hk h.1
    rintro ⟨result, y', rc, hsub, -⟩
    rw [timevalSubtract_eq_none hx hy hk] at hsub
    cases hsub

/-- A microsecond is borrowed for. -/
theorem timevalSubtract_alike_iff_borrowed :
    SubtractsAlike ⟨7, 999999⟩ ⟨5, 1000000⟩ ↔ (999999 : Int) - 1000000 = 1000000 ∨
      |(999999 : Int) - 1000000| / 1000000 % 2 ^ 32 = 0 :=
  timevalSubtract_alike_iff ⟨7, 999999⟩ ⟨5, 1000000⟩ (by decide) (by decide)

/-! ## Milliseconds -/

/-- The milliseconds when there is a second or more between the times. -/
theorem timevalMinusMsec_of_lt (h1 : Normalised s1) (h2 : Normalised s2)
    (hlt : s2.tvSec < s1.tvSec) (hle : s1.tvSec - s2.tvSec ≤ 2000000) :
    ∃ left, timevalMinusMsec s1 s2 = some left ∧
      (left.toNat : Int) = (s1.tvSec - s2.tvSec) * 1000 + (s1.tvUsec - s2.tvUsec).tdiv 1000 := by
  obtain ⟨h10, h11⟩ := h1
  obtain ⟨h20, h21⟩ := h2
  have hsecs : (((BitVec.ofInt 32 (s1.tvSec - s2.tvSec) * 1000).toNat : Nat) : Int) =
      (s1.tvSec - s2.tvSec) * 1000 := by
    have hnat := toNat_ofInt (w := 32) (x := s1.tvSec - s2.tvSec) (by omega) (by omega)
    rw [BitVec.toNat_mul]
    have h1000 : (1000 : BitVec 32).toNat = 1000 := rfl
    rw [h1000, Nat.mod_eq_of_lt (by omega)]
    omega
  have hneg : ¬ s1.tvSec < s2.tvSec := by omega
  have hcap : ¬ s1.tvSec - s2.tvSec > 2000000 := by omega
  have hbound : -1000 < (s1.tvUsec - s2.tvUsec).tdiv 1000 ∧
      (s1.tvUsec - s2.tvUsec).tdiv 1000 < 1000 := by
    rcases le_total 0 (s1.tvUsec - s2.tvUsec) with hpos | hpos
    · rw [Int.tdiv_eq_ediv_of_nonneg hpos]
      omega
    · rw [← Int.neg_neg (s1.tvUsec - s2.tvUsec), Int.neg_tdiv, Int.tdiv_eq_ediv_of_nonneg (by omega)]
      omega
  have hsec : checkLong (s1.tvSec - s2.tvSec) = some (s1.tvSec - s2.tvSec) :=
    checkLong_eq (by omega) (by omega)
  have husec : checkLong (s1.tvUsec - s2.tvUsec) = some (s1.tvUsec - s2.tvUsec) :=
    checkLong_eq (by omega) (by omega)
  refine ⟨BitVec.ofInt 32 ((s1.tvSec - s2.tvSec) * 1000 + (s1.tvUsec - s2.tvUsec).tdiv 1000), ?_,
    toNat_ofInt (by omega) (by omega)⟩
  simp only [timevalMinusMsec, hneg, hsec, hcap, gt_iff_lt, hlt, if_false, if_true, hsecs, husec,
    toInt_eq h10 (show s1.tvUsec < 2 ^ 31 by omega), Option.bind_eq_bind, Option.bind_some]

/-- And when there is less than a second. -/
theorem timevalMinusMsec_of_eq (h1 : Normalised s1) (h2 : Normalised s2)
    (heq : s1.tvSec = s2.tvSec) :
    ∃ left, timevalMinusMsec s1 s2 = some left ∧
      (left.toNat : Int) = max 0 (s1.tvUsec - s2.tvUsec) / 1000 := by
  obtain ⟨h10, h11⟩ := h1
  obtain ⟨h20, h21⟩ := h2
  have hneg : ¬ s1.tvSec < s2.tvSec := by omega
  have hcap : ¬ s1.tvSec - s2.tvSec > 2000000 := by omega
  have hgt : ¬ s1.tvSec > s2.tvSec := by omega
  have hsec : checkLong (s1.tvSec - s2.tvSec) = some (s1.tvSec - s2.tvSec) :=
    checkLong_eq (by omega) (by omega)
  have husec : checkLong (s1.tvUsec - s2.tvUsec) = some (s1.tvUsec - s2.tvUsec) :=
    checkLong_eq (by omega) (by omega)
  simp only [timevalMinusMsec, hneg, hsec, hcap, hgt, if_false, husec, Option.bind_eq_bind,
    Option.bind_some]
  split_ifs with hle
  · refine ⟨0, rfl, ?_⟩
    rw [max_eq_left (by omega)]
    rfl
  · refine ⟨_, rfl, ?_⟩
    have hnat := toNat_ofInt (w := 32) (x := s1.tvUsec - s2.tvUsec) (by omega) (by omega)
    rw [max_eq_right (by omega), BitVec.toNat_udiv]
    have h1000 : (1000 : BitVec 32).toNat = 1000 := rfl
    rw [h1000, Int.natCast_ediv, hnat]
    rfl

/-- The deadline is made if its seconds fit a `long`. -/
theorem timevalAddMsec_spec (hnow : Normalised now) (hlong : -2 ^ 63 ≤ now.tvSec)
    {msecs : BitVec 32} (h0 : 0 ≤ msecs.toInt)
    (hfit : now.time + 1000 * msecs.toInt < 2 ^ 63 * 1000000) :
    ∃ d, timevalAddMsec now msecs = some d ∧ Normalised d ∧
      d.time = now.time + 1000 * msecs.toInt := by
  obtain ⟨hlo, hhi⟩ := hnow
  unfold TwdTime.Timeval.time at hfit
  have hsec : checkLong (now.tvSec + msecs.toInt / 1000) = some (now.tvSec + msecs.toInt / 1000) :=
    checkLong_eq (by omega) (by omega)
  have husec : checkLong (now.tvUsec + msecs.toInt % 1000 * 1000) =
      some (now.tvUsec + msecs.toInt % 1000 * 1000) := checkLong_eq (by omega) (by omega)
  have hint : toInt (now.tvUsec + msecs.toInt % 1000 * 1000) =
      now.tvUsec + msecs.toInt % 1000 * 1000 := toInt_eq (by omega) (by omega)
  unfold timevalAddMsec
  rw [Int.tmod_eq_emod_of_nonneg h0, Int.tdiv_eq_ediv_of_nonneg h0]
  simp only [hsec, husec, hint, Option.bind_eq_bind, Option.bind_some]
  unfold Normalised TwdTime.Timeval.time
  by_cases hcarry : now.tvUsec + msecs.toInt % 1000 * 1000 < 1000000
  · refine ⟨_, if_pos hcarry, ?_, ?_⟩ <;> dsimp only <;> omega
  · have hsucc : checkLong (now.tvSec + msecs.toInt / 1000 + 1) =
        some (now.tvSec + msecs.toInt / 1000 + 1) := checkLong_eq (by omega) (by omega)
    rw [if_neg hcarry, hsucc]
    refine ⟨_, rfl, ?_, ?_⟩ <;> dsimp only <;> omega

/-- The milliseconds between two times that are whole milliseconds apart. -/
theorem timevalMinusMsec_exact (hd : Normalised d) (hnow : Normalised now) {m : Int} (h0 : 0 ≤ m)
    (hle : m ≤ 2000000000) (htime : d.time = now.time + 1000 * m) :
    ∃ left, timevalMinusMsec d now = some left ∧ (left.toNat : Int) = m := by
  have hd' := hd
  have hnow' := hnow
  unfold Normalised at hd hnow
  unfold TwdTime.Timeval.time at htime
  rcases lt_trichotomy now.tvSec d.tvSec with hlt | heq | hgt
  · have hdiff : d.tvUsec - now.tvUsec = 1000 * (m - (d.tvSec - now.tvSec) * 1000) := by omega
    obtain ⟨left, hleft, hnat⟩ := timevalMinusMsec_of_lt hd' hnow' hlt (by omega)
    refine ⟨left, hleft, ?_⟩
    rw [hnat, hdiff, Int.mul_tdiv_cancel_left _ (by decide)]
    omega
  · obtain ⟨left, hleft, hnat⟩ := timevalMinusMsec_of_eq hd' hnow' heq.symm
    refine ⟨left, hleft, ?_⟩
    rw [hnat, max_eq_right (by omega)]
    omega
  · omega

/-- **A deadline in milliseconds**: `timeval_add_msec` makes a time that the other functions find so
many milliseconds ahead, as long as its seconds fit a `long`. -/
theorem timevalAddMsec_deadline (now : TwdTime.Timeval) (hnow : Normalised now)
    (hlong : -2 ^ 63 ≤ now.tvSec) (msecs : BitVec 32) (h0 : 0 ≤ msecs.toInt)
    (hle : msecs.toInt ≤ 2000000000)
    (hfit : now.time + 1000 * msecs.toInt < 2 ^ 63 * 1000000) :
    ∃ d, timevalAddMsec now msecs = some d ∧ Deadline now msecs.toInt d := by
  obtain ⟨d, hadd, hd, htime⟩ := timevalAddMsec_spec hnow hlong h0 hfit
  have hdiff : d.time - now.time = 1000 * msecs.toInt := by omega
  have hsec : -2 ^ 62 < d.tvSec - now.tvSec ∧ d.tvSec - now.tvSec < 2 ^ 62 := by
    unfold TwdTime.Timeval.time at hdiff
    unfold Normalised at hd hnow
    omega
  obtain ⟨diff, hminus, hnorm, hexact⟩ := timevalMinus_spec hd hnow hsec
  refine ⟨d, hadd, hd, htime, ?_, ⟨diff, hminus, hnorm, hexact.trans hdiff⟩,
    timevalMinusMsec_exact hd hnow h0 hle htime⟩
  have hsign : (1000 : Int).sign = 1 := rfl
  rw [timevalCompare_eq hd hnow, hdiff, Int.sign_mul, hsign, Int.one_mul]

theorem timevalAddMsec_deadline_second :
    ∃ d, timevalAddMsec ⟨7, 999999⟩ 1500 = some d ∧ Deadline ⟨7, 999999⟩ (1500#32).toInt d :=
  timevalAddMsec_deadline ⟨7, 999999⟩ (by decide) (by decide) 1500 (by decide) (by decide)
    (by decide)

/-! ## The earliest deadline -/

theorem earliest_nil : Earliest [] ⟨0, 0⟩ := ⟨.inl rfl, nofun, nofun⟩

/-- A deadline more. -/
theorem Earliest.timevalMin {l : List TwdTime.Timeval} {s : TwdTime.Timeval} (h : Earliest l d)
    (hl : ∀ t ∈ l, Normalised t) (hs : Normalised s) :
    Earliest (l ++ [s]) (timevalMin d s) := by
  by_cases hs0 : s.tvSec = 0
  · rw [Util.timevalMin, if_pos hs0]
    refine ⟨h.mem.imp_right fun ⟨hm, hne⟩ => ⟨List.mem_append_left _ hm, hne⟩, fun hd t ht => ?_,
      fun t ht hne => ?_⟩
    · rcases List.mem_append.mp ht with ht | ht
      · exact h.none hd t ht
      · rw [List.mem_singleton.mp ht, hs0]
    · rcases List.mem_append.mp ht with ht | ht
      · exact h.le t ht hne
      · exact absurd (List.mem_singleton.mp ht ▸ hs0) hne
  have hsne : s ≠ ⟨0, 0⟩ := fun heq => hs0 (heq ▸ rfl)
  rcases h.mem with rfl | ⟨hmem, hd0⟩
  · -- infinity
    rw [Util.timevalMin, if_neg hs0, if_pos (.inl rfl)]
    refine ⟨.inr ⟨by simp, hs0⟩, fun hd => absurd hd hsne, fun t ht hne => ?_⟩
    rcases List.mem_append.mp ht with ht | ht
    · exact absurd (h.none rfl t ht) hne
    · rw [List.mem_singleton.mp ht]
  have hdne : d ≠ ⟨0, 0⟩ := fun heq => hd0 (heq ▸ rfl)
  have hcompare := timevalCompare_eq (hl d hmem) hs
  by_cases hgt : timevalCompare d s > 0
  · have hlt : s.time < d.time := by
      have hsign : 0 < (d.time - s.time).sign := hcompare ▸ hgt
      have := Int.sign_pos_iff.mp hsign
      omega
    rw [Util.timevalMin, if_neg hs0, if_pos (.inr hgt)]
    refine ⟨.inr ⟨by simp, hs0⟩, fun hd => absurd hd hsne, fun t ht hne => ?_⟩
    rcases List.mem_append.mp ht with ht | ht
    · exact hlt.le.trans (h.le t ht hne)
    · rw [List.mem_singleton.mp ht]
  · have hle : d.time ≤ s.time := by
      by_contra hlt
      refine hgt (hcompare ▸ ?_)
      rw [Int.sign_eq_one_of_pos (by omega)]
      decide
    have hnot : ¬ (d.tvSec = 0 ∨ timevalCompare d s > 0) := not_or.mpr ⟨hd0, hgt⟩
    rw [Util.timevalMin, if_neg hs0, if_neg hnot]
    refine ⟨.inr ⟨List.mem_append_left _ hmem, hd0⟩, fun hd => absurd hd hdne, fun t ht hne => ?_⟩
    rcases List.mem_append.mp ht with ht | ht
    · exact h.le t ht hne
    · rw [List.mem_singleton.mp ht]
      exact hle

/-- **The earliest deadline**: `timeval_min`, called for one deadline after the other from infinity
on, finds the earliest of those that are not infinite. -/
theorem timevalMin_earliest (l : List TwdTime.Timeval) (hl : ∀ t ∈ l, Normalised t) :
    Earliest l (l.foldl timevalMin ⟨0, 0⟩) := by
  induction l using List.reverseRecOn with
  | nil => exact earliest_nil
  | append_singleton l s ih =>
    have hinit : ∀ t ∈ l, Normalised t := fun t ht => hl t (List.mem_append_left _ ht)
    rw [List.foldl_append]
    exact (ih hinit).timevalMin hinit (hl s (by simp))

theorem timevalMin_earliest_three :
    Earliest [⟨0, 0⟩, ⟨9, 0⟩, ⟨8, 999999⟩]
      ([⟨0, 0⟩, ⟨9, 0⟩, ⟨8, 999999⟩].foldl timevalMin ⟨0, 0⟩) :=
  timevalMin_earliest [⟨0, 0⟩, ⟨9, 0⟩, ⟨8, 999999⟩] (by decide)

/-! ## Sequence numbers -/

section Seqno

variable (s1 s2 : BitVec 16)

theorem toNat_and_ffff (x : BitVec 32) : (x &&& 0xFFFF#32).toNat = x.toNat % 65536 := by
  rw [BitVec.toNat_and]
  exact Nat.and_two_pow_sub_one_eq_mod x.toNat 16

theorem seqnoMinus_eq : seqnoMinus s1 s2 = s1 - s2 := by
  refine BitVec.eq_of_toNat_eq ?_
  have h1 := s1.isLt
  have h2 := s2.isLt
  rw [seqnoMinus, BitVec.toNat_setWidth, toNat_and_ffff, BitVec.toNat_sub, BitVec.toNat_sub,
    BitVec.toNat_setWidth_of_le (by decide), BitVec.toNat_setWidth_of_le (by decide)]
  omega

theorem and_8000_ne_zero_iff (x : BitVec 32) : x &&& 0x8000#32 ≠ 0 ↔ x.toNat / 32768 % 2 = 1 := by
  have hbit : x.toNat / 32768 % 2 = 1 ↔ x.getLsbD 15 = true := by
    rw [BitVec.getLsbD, Nat.testBit_eq_decide_div_mod_eq, decide_eq_true_eq]
  have hone : 0x8000#32 = BitVec.twoPow 32 15 := by decide
  rw [hbit, hone, BitVec.and_twoPow]
  cases x.getLsbD 15 <;> decide

/-- The sign of the difference in 16 bits, which is not the sign of the comparison at its middle. -/
theorem seqnoCompare_eq :
    seqnoCompare s1 s2 =
      if s1 - s2 = 0x8000#16 then 1 else (s1 - s2).toInt.sign := by
  have h1 := s1.isLt
  have h2 := s2.isLt
  have hsub : (s1 - s2).toNat = (65536 - s2.toNat + s1.toNat) % 65536 := BitVec.toNat_sub ..
  have hdiff : (s2.setWidth 32 - s1.setWidth 32).toNat =
      (4294967296 - s1.toNat + s2.toNat) % 4294967296 := by
    rw [BitVec.toNat_sub, BitVec.toNat_setWidth_of_le (by decide),
      BitVec.toNat_setWidth_of_le (by decide)]
  have hmid : s1 - s2 = 0x8000#16 ↔ (s1 - s2).toNat = 32768 := BitVec.toNat_inj.symm
  have hzero : s1 = s2 ↔ s1.toNat = s2.toNat := BitVec.toNat_inj.symm
  have hint : (s1 - s2).toInt =
      if 2 * (s1 - s2).toNat < 65536 then ((s1 - s2).toNat : Int)
      else (s1 - s2).toNat - 65536 := BitVec.toInt_eq_toNat_cond _
  simp only [seqnoCompare, and_8000_ne_zero_iff, hdiff, hmid, hzero, hint, hsub]
  split_ifs <;>
    first
    | rfl
    | omega
    | exact (Int.sign_eq_zero_iff_zero.mpr (by omega)).symm
    | exact (Int.sign_eq_one_of_pos (by omega)).symm
    | exact (Int.sign_eq_neg_one_of_neg (by omega)).symm

end Seqno

theorem seqnoPlus_seqno (b k : Int) : seqnoPlus (seqno b) (BitVec.ofInt 32 k) = seqno (b + k) := by
  refine BitVec.eq_of_toNat_eq ?_
  rw [seqnoPlus, BitVec.toNat_setWidth, toNat_and_ffff, BitVec.toNat_add,
    BitVec.toNat_setWidth_of_le (by decide), seqno, seqno, BitVec.toNat_ofInt, BitVec.toNat_ofInt,
    BitVec.toNat_ofInt]
  omega

/-- **Numbers that wrap around stand for integers** as long as these are less than half a round
apart, and no further; adding an integer is right however large it is. -/
theorem seqno_follows_integers (a b : Int) :
    ((seqnoCompare (seqno a) (seqno b) = (a - b).sign ∧
        (seqnoMinus (seqno a) (seqno b)).toInt = a - b) ↔ |a - b| < 32768) ∧
      ∀ k, seqnoPlus (seqno b) (BitVec.ofInt 32 k) = seqno (b + k) := by
  refine ⟨?_, seqnoPlus_seqno b⟩
  have hsub : seqno a - seqno b = BitVec.ofInt 16 (a - b) := by
    have hadd : seqno a = BitVec.ofInt 16 (a - b) + seqno b := by
      rw [seqno, seqno, ← BitVec.ofInt_add, Int.sub_add_cancel]
    rw [hadd, BitVec.add_sub_cancel]
  rw [seqnoCompare_eq, seqnoMinus_eq, hsub, abs_lt]
  constructor
  · rintro ⟨hcompare, hminus⟩
    have hlo := BitVec.le_toInt (BitVec.ofInt 16 (a - b))
    have hhi := BitVec.toInt_lt (x := BitVec.ofInt 16 (a - b))
    rw [hminus] at hlo hhi
    have hne : a - b ≠ -32768 := by
      intro heq
      rw [heq] at hcompare
      exact absurd hcompare (by decide)
    simp only [Nat.add_one_sub_one, Int.reducePow] at hlo hhi
    omega
  · rintro ⟨hlo, hhi⟩
    have hint : (BitVec.ofInt 16 (a - b)).toInt = a - b := by
      rw [BitVec.toInt_ofInt]
      exact Int.bmod_eq_of_le (by omega) (by omega)
    have hne : BitVec.ofInt 16 (a - b) ≠ 0x8000#16 := by
      intro heq
      rw [heq] at hint
      have : (0x8000#16).toInt = -32768 := by decide
      omega
    rw [if_neg hne, hint]
    exact ⟨rfl, rfl⟩

end Twd.Util
