import Mathlib.Data.Nat.ModEq
import Mathlib.Tactic.Ring

/-!
# Integers as bytes

The bytes of an unsigned integer of a given width in memory, the least significant first.
-/

namespace LittleEndian

/-- The `width` bytes of `n` modulo `256 ^ width`. -/
def encode : Nat → Nat → List UInt8
  | 0, _ => []
  | width + 1, n => UInt8.ofNat n :: encode width (n / 256)

/-- The integer that the bytes stand for. -/
def decode : List UInt8 → Nat
  | [] => 0
  | b :: bs => b.toNat + 256 * decode bs

@[simp] theorem length_encode (width n : Nat) : (encode width n).length = width := by
  induction width generalizing n with
  | zero => rfl
  | succ width ih => simp [encode, ih]

/-- Reading back gives the integer modulo what the width can hold. -/
theorem decode_encode (width n : Nat) : decode (encode width n) = n % 256 ^ width := by
  induction width generalizing n with
  | zero => simp [encode, decode, Nat.mod_one]
  | succ width ih =>
    have hb : (UInt8.ofNat n).toNat = n % 256 := by simp
    rw [encode, decode, ih, hb, pow_succ', Nat.mod_mul]

end LittleEndian
