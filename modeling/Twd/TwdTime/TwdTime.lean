import Mathlib.Data.Int.Basic

/-!
# Subtraction of times

Translation of `timeval_subtract` of `twd_time.h`, over exact integers, and when its result is
normalised.
-/

namespace Twd.TwdTime

/-- `timeval_t` -/
structure Timeval where
  tvSec : Int
  tvUsec : Int
  deriving DecidableEq, Repr

/-- The time denoted, in microseconds. -/
def Timeval.time (t : Timeval) : Int := t.tvSec * 1000000 + t.tvUsec

/-- The first branch of `timeval_subtract`: `*y` afterwards. -/
def borrow (x y : Timeval) : Timeval :=
  if x.tvUsec < y.tvUsec then
    let nsec := (y.tvUsec - x.tvUsec).tdiv 1000000 + 1
    ⟨y.tvSec + nsec, y.tvUsec - 1000000 * nsec⟩
  else y

/-- The second branch. -/
def carry (x y : Timeval) : Timeval :=
  if x.tvUsec - y.tvUsec > 1000000 then
    let nsec := (x.tvUsec - y.tvUsec).tdiv 1000000
    ⟨y.tvSec - nsec, y.tvUsec + 1000000 * nsec⟩
  else y

/-- `timeval_subtract`: `*result` and `*y` afterwards, and what it returns. -/
def timevalSubtract (x y : Timeval) : Timeval × Timeval × Int :=
  let y := carry x (borrow x y)
  (⟨x.tvSec - y.tvSec, x.tvUsec - y.tvUsec⟩, y, if x.tvSec < y.tvSec then 1 else 0)

/-- The difference is exact and normalised, the sign is returned, and the time that `y` denotes
stays. -/
structure SubtractsExactly (x y : Timeval) : Prop where
  difference : (timevalSubtract x y).1.time = x.time - y.time
  normalised : 0 ≤ (timevalSubtract x y).1.tvUsec ∧ (timevalSubtract x y).1.tvUsec < 1000000
  sign : (timevalSubtract x y).2.2 = 1 ↔ x.time < y.time
  unchanged : (timevalSubtract x y).2.1.time = y.time

/-- The microseconds are exactly one second more than those of `y`, or whole seconds less. -/
def WholeSeconds (x y : Timeval) : Prop :=
  x.tvUsec - y.tvUsec = 1000000 ∨ (x.tvUsec < y.tvUsec ∧ 1000000 ∣ y.tvUsec - x.tvUsec)

instance (x y : Timeval) : Decidable (WholeSeconds x y) := inferInstanceAs (Decidable (_ ∨ _))

/-! ## The two branches -/

section Branches

variable (x y : Timeval)

theorem borrow_of_lt (h : x.tvUsec < y.tvUsec) :
    borrow x y = ⟨y.tvSec + ((y.tvUsec - x.tvUsec) / 1000000 + 1),
      y.tvUsec - 1000000 * ((y.tvUsec - x.tvUsec) / 1000000 + 1)⟩ := by
  rw [borrow, if_pos h, Int.tdiv_eq_ediv_of_nonneg (by omega)]

theorem borrow_of_le (h : y.tvUsec ≤ x.tvUsec) : borrow x y = y := if_neg (Int.not_lt.mpr h)

theorem carry_of_gt (h : x.tvUsec - y.tvUsec > 1000000) :
    carry x y = ⟨y.tvSec - (x.tvUsec - y.tvUsec) / 1000000,
      y.tvUsec + 1000000 * ((x.tvUsec - y.tvUsec) / 1000000)⟩ := by
  rw [carry, if_pos h, Int.tdiv_eq_ediv_of_nonneg (by omega)]

theorem carry_of_le (h : x.tvUsec - y.tvUsec ≤ 1000000) : carry x y = y :=
  if_neg (Int.not_lt.mpr h)

theorem borrow_time : (borrow x y).time = y.time := by
  by_cases h : x.tvUsec < y.tvUsec
  · rw [borrow_of_lt x y h]
    simp only [Timeval.time]
    omega
  · rw [borrow_of_le x y (Int.not_lt.mp h)]

theorem carry_time : (carry x y).time = y.time := by
  by_cases h : x.tvUsec - y.tvUsec > 1000000
  · rw [carry_of_gt x y h]
    simp only [Timeval.time]
    omega
  · rw [carry_of_le x y (Int.not_lt.mp h)]

theorem borrow_usec_le : (borrow x y).tvUsec ≤ x.tvUsec := by
  by_cases h : x.tvUsec < y.tvUsec
  · rw [borrow_of_lt x y h]
    simp only
    omega
  · rw [borrow_of_le x y (Int.not_lt.mp h)]
    exact Int.not_lt.mp h

/-- The second branch leaves a second's worth or less, and exactly a second where it is not
taken. -/
theorem carry_usec (h : y.tvUsec ≤ x.tvUsec) :
    0 ≤ x.tvUsec - (carry x y).tvUsec ∧ x.tvUsec - (carry x y).tvUsec ≤ 1000000 ∧
      (x.tvUsec - (carry x y).tvUsec = 1000000 ↔ x.tvUsec - y.tvUsec = 1000000) := by
  by_cases hgt : x.tvUsec - y.tvUsec > 1000000
  · rw [carry_of_gt x y hgt]
    simp only
    omega
  · rw [carry_of_le x y (Int.not_lt.mp hgt)]
    omega

/-- The first branch leaves exactly a second where it takes whole seconds off. -/
theorem borrow_usec_eq_iff :
    x.tvUsec - (borrow x y).tvUsec = 1000000 ↔ WholeSeconds x y := by
  rw [WholeSeconds]
  by_cases h : x.tvUsec < y.tvUsec
  · rw [borrow_of_lt x y h]
    simp only
    omega
  · rw [borrow_of_le x y (Int.not_lt.mp h)]
    omega

end Branches

/-! ## The result -/

/-- The microseconds of the result are at most a whole second. -/
theorem timevalSubtract_usec (x y : Timeval) :
    0 ≤ (timevalSubtract x y).1.tvUsec ∧ (timevalSubtract x y).1.tvUsec ≤ 1000000 ∧
      ((timevalSubtract x y).1.tvUsec = 1000000 ↔ WholeSeconds x y) := by
  obtain ⟨h0, h1, heq⟩ := carry_usec x (borrow x y) (borrow_usec_le x y)
  exact ⟨h0, h1, heq.trans (borrow_usec_eq_iff x y)⟩

/-- **Exact subtraction**: `timeval_subtract` does what it is for unless a difference of whole
seconds in the microseconds is left there, where the second comparison is strict. -/
theorem timevalSubtract_exact_iff (x y : Timeval) :
    SubtractsExactly x y ↔ ¬ WholeSeconds x y := by
  obtain ⟨h0, h1, heq⟩ := timevalSubtract_usec x y
  have htime : (carry x (borrow x y)).time = y.time :=
    (carry_time x (borrow x y)).trans (borrow_time x y)
  constructor
  · intro h hwhole
    have husec := h.normalised.2
    rw [heq.mpr hwhole] at husec
    exact Int.lt_irrefl _ husec
  · intro hwhole
    have hlt : (timevalSubtract x y).1.tvUsec < 1000000 :=
      Int.lt_iff_le_and_ne.mpr ⟨h1, mt heq.mp hwhole⟩
    have hdiff : (timevalSubtract x y).1.time = x.time - y.time := by
      rw [← htime]
      simp only [timevalSubtract, Timeval.time]
      omega
    refine ⟨hdiff, ⟨h0, hlt⟩, ?_, htime⟩
    -- the sign of a normalised difference is that of its seconds
    have hsec : (timevalSubtract x y).2.2 = 1 ↔ (timevalSubtract x y).1.tvSec < 0 := by
      simp only [timevalSubtract]
      split_ifs <;> omega
    rw [hsec]
    rw [Timeval.time] at hdiff
    omega

/-- One second minus a million microseconds: the result is not normalised, and the two equal times
are said to be in order. -/
theorem timevalSubtract_not_exact : ¬ ∀ x y, SubtractsExactly x y := by
  intro h
  exact absurd (h ⟨1, 0⟩ ⟨0, 1000000⟩).normalised.2 (by decide)

end Twd.TwdTime
