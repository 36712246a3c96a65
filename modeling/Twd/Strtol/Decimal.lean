import Mathlib.Data.Nat.Digits.Defs

/-!
# Numbers as text

What `%d` and `%3d` print of numbers that are not negative.
-/

namespace Decimal

/-- `"%d"` -/
def text (n : Nat) : List UInt8 := (Nat.toDigits 10 n).map fun c => UInt8.ofNat c.toNat

/-- Blanks in front of a text that is shorter than `width`. -/
def padLeft (width : Nat) (s : List UInt8) : List UInt8 := s.leftpad width 32

theorem digit_of_mem_text {n : Nat} {b : UInt8} (hb : b ∈ text n) : 48 ≤ b ∧ b ≤ 57 := by
  obtain ⟨c, hc, rfl⟩ := List.mem_map.mp hb
  have hdigit := Nat.isDigit_of_mem_toDigits (by decide) (by decide) hc
  simp only [Char.isDigit, ge_iff_le, Bool.and_eq_true, decide_eq_true_eq, UInt32.le_iff_toNat_le]
    at hdigit
  have hlo : 48 ≤ c.toNat := hdigit.1
  have hhi : c.toNat ≤ 57 := hdigit.2
  simp only [UInt8.le_iff_toNat_le, UInt8.toNat_ofNat', UInt8.reduceToNat]
  omega

end Decimal
