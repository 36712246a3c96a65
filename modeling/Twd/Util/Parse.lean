import Mathlib.Algebra.GroupWithZero.Nat
import Twd.Strtol.Strtol

/-!
# Reading numbers

Translation of `parse_nat` and `parse_msec` of `util.c`. A string is the list of its bytes up to the
terminating zero.
-/

namespace Twd.Util

open Strtol

/-- The characters that are skipped. -/
def isBlank (c : UInt8) : Bool := c = 32 ∨ c = 9

def intMax : Nat := 0x7fffffff

def parseNat (string : List UInt8) : Int :=
  let (l, rest) := strtol 0 string
  if rest.dropWhile isBlank ≠ [] then -1
  else if l < 0 ∨ l > intMax then -1
  else l

/-- The constant is written in one of three ways, without a sign. -/
inductive Constant : List UInt8 → Nat → Prop
  | decimal {d : UInt8} {ds : List UInt8} (hd : d ≠ 48) (hds : ∀ c ∈ d :: ds, isDigit 10 c) :
    Constant (d :: ds) (ofDigits 10 (d :: ds))
  | octal {ds : List UInt8} (hds : ∀ c ∈ ds, isDigit 8 c) : Constant (48 :: ds) (ofDigits 8 ds)
  | hexadecimal {x d : UInt8} {ds : List UInt8} (hx : tolower x = 120)
    (hds : ∀ c ∈ d :: ds, isDigit 16 c) : Constant (48 :: x :: d :: ds) (ofDigits 16 (d :: ds))

/-- A sign, and whether it is negative. -/
inductive Sign : List UInt8 → Bool → Prop
  | absent : Sign [] false
  | plus : Sign [43] false
  | minus : Sign [45] true

/-- The string is a constant with a sign, with white space in front and blanks behind it. -/
inductive SignedConstant : List UInt8 → Bool → Nat → Prop
  | mk {pre sign w post : List UInt8} {neg : Bool} {n : Nat} (hpre : ∀ c ∈ pre, isspace c)
    (hsign : Sign sign neg) (hw : Constant w n) (hpost : ∀ c ∈ post, isBlank c) :
    SignedConstant (pre ++ (sign ++ (w ++ post))) neg n

/-- The numbers that an `int` can hold are returned for their constants, and zero for blanks alone;
anything else is rejected. -/
structure ParsesNat (string : List UInt8) : Prop where
  returned : ∀ n : Nat, parseNat string = n ↔ (n = 0 ∧ ∀ c ∈ string, isBlank c) ∨
    ∃ neg, SignedConstant string neg n ∧ (neg = true → n = 0) ∧ n ≤ intMax
  rejected : parseNat string < 0 → parseNat string = -1

/-! ## Seconds in decimal -/

/-- The number that decimal digits stand for. -/
def decimal (ds : List UInt8) : Nat := ds.foldl (fun n c => n * 10 + (c.toNat - 48)) 0

end Twd.Util
