import Mathlib.Data.Nat.Prime.Basic
import Mathlib.Data.Set.Insert

/-!
# The sieve of Eratosthenes

A set of numbers that are struck out grows, from the least number on, by the multiples of every
number that is not in it. The numbers that are not struck out when their turn comes are the primes.
-/

namespace Sieve

variable {n i : ℕ} {s : Set ℕ}

/-- The multiples of `i` below `n` behind `i`. -/
def multiples (n i : ℕ) : Set ℕ := {j | i ∣ j ∧ i < j ∧ j < n}

/-- The numbers below `n` that are struck out are the multiples of primes less than `i`. -/
def Sieved (n i : ℕ) (s : Set ℕ) : Prop :=
  ∀ j < n, j ∈ s ↔ ∃ p < i, p.Prime ∧ p ∣ j ∧ p < j

theorem sieved_two (n : ℕ) : Sieved n 2 ∅ := by
  intro j _
  refine ⟨fun h => absurd h (Set.notMem_empty j), ?_⟩
  rintro ⟨p, hp2, hp, -⟩
  exact absurd hp.two_le (Nat.not_le_of_lt hp2)

/-- A number is struck out when its turn comes if it is not a prime. -/
theorem Sieved.mem_iff (h : Sieved n i s) (hi : 2 ≤ i) (hin : i < n) : i ∈ s ↔ ¬ i.Prime := by
  rw [h i hin]
  constructor
  · rintro ⟨p, hpi, hp, hdvd, -⟩ hprime
    exact Nat.ne_of_lt hpi ((Nat.prime_dvd_prime_iff_eq hp hprime).mp hdvd)
  · intro hnot
    have hlt := (Nat.not_prime_iff_minFac_lt hi).mp hnot
    exact ⟨i.minFac, hlt, Nat.minFac_prime (by omega), i.minFac_dvd, hlt⟩

theorem Sieved.skip (h : Sieved n i s) (hnot : ¬ i.Prime) : Sieved n (i + 1) s := by
  intro j hj
  rw [h j hj]
  constructor
  · rintro ⟨p, hpi, hp⟩
    exact ⟨p, Nat.lt_succ_of_lt hpi, hp⟩
  · rintro ⟨p, hpi, hp⟩
    have hne : p ≠ i := fun heq => hnot (heq ▸ hp.1)
    exact ⟨p, by omega, hp⟩

theorem Sieved.strike (h : Sieved n i s) (hprime : i.Prime) :
    Sieved n (i + 1) (s ∪ multiples n i) := by
  intro j hj
  rw [Set.mem_union, h j hj]
  constructor
  · rintro (⟨p, hpi, hp⟩ | ⟨hdvd, hij, -⟩)
    · exact ⟨p, Nat.lt_succ_of_lt hpi, hp⟩
    · exact ⟨i, Nat.lt_succ_self i, hprime, hdvd, hij⟩
  · rintro ⟨p, hpi, hp, hdvd, hpj⟩
    by_cases heq : p = i
    · subst heq
      exact .inr ⟨hdvd, hpj, hj⟩
    · exact .inl ⟨p, by omega, hp, hdvd, hpj⟩

end Sieve
