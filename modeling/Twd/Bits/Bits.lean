import Mathlib.Data.Nat.Prime.Defs
import Mathlib.Data.Set.Insert
import Mathlib.Logic.Function.Basic
import Twd.Machine.Run

/-!
# Bits in an array of characters

Translation of the macros of `bits.h` and of the program in it, which prints numbers that it has not
struck out. The operands are promoted to `int` and the results stored as characters. `MAX` is a
parameter, and an `int` a natural number, as none of them gets negative. A use of a character behind
the array is `none`, and so is a sum that does not fit an `int`.
-/

namespace Twd.Bits

/-- `char a[slots]` -/
structure CharArray where
  cells : Nat → BitVec 8
  slots : Nat

/-- `CHAR_BIT` -/
def charBit : Nat := 8

def bitmask (b : Nat) : BitVec 32 := 1#32 <<< (b % charBit)

def bitslot (b : Nat) : Nat := b / charBit

/-- `nb` is at most `INT_MAX - 8`, or of a wider type than `int`. -/
def bitnslots (nb : Nat) : Nat := (nb + charBit - 1) / charBit

/-- `(a)[slot]`, as an `int`. -/
def CharArray.get (a : CharArray) (slot : Nat) : Option (BitVec 32) :=
  if slot < a.slots then some ((a.cells slot).signExtend 32) else none

/-- `(a)[slot] = x` -/
def CharArray.put (a : CharArray) (slot : Nat) (x : BitVec 32) : CharArray :=
  { a with cells := Function.update a.cells slot (x.setWidth 8) }

def bitset (a : CharArray) (b : Nat) : Option CharArray := do
  let x ← a.get (bitslot b)
  some (a.put (bitslot b) (x ||| bitmask b))

def bitclear (a : CharArray) (b : Nat) : Option CharArray := do
  let x ← a.get (bitslot b)
  some (a.put (bitslot b) (x &&& ~~~bitmask b))

def bittest (a : CharArray) (b : Nat) : Option (BitVec 32) := do
  let x ← a.get (bitslot b)
  some (x &&& bitmask b)

/-- `char bitarray[BITNSLOTS(max)]` after `memset`. -/
def cleared (max : Nat) : CharArray := { cells := fun _ => 0, slots := bitnslots max }

/-! ## The program -/

/-- The sum of two numbers of type `int`. -/
def addInt (a b : Nat) : Option Nat := if a + b < 2 ^ 31 then some (a + b) else none

/-- `for(; j < max; j += i) BITSET(bitarray, j)`, with at most `fuel` rounds. -/
def strike (max i : Nat) : (fuel j : Nat) → CharArray → Option CharArray
  | 0, j, a => if j < max then none else some a
  | fuel + 1, j, a =>
    if j < max then do
      let a ← bitset a j
      let j ← addInt j i
      strike max i fuel j a
    else some a

/-- The loop over `i`, with `remaining` numbers to go: the numbers it prints. -/
def printLoop (max : Nat) : (remaining i : Nat) → CharArray → Option (List Nat)
  | 0, _, _ => some []
  | remaining + 1, i, a => do
    let bit ← bittest a i
    if bit = 0 then do
      let j ← addInt i i
      let a ← strike max i max j a
      let next ← addInt i 1
      let rest ← printLoop max remaining next a
      some (i :: rest)
    else do
      let next ← addInt i 1
      printLoop max remaining next a

/-- The numbers that `main` prints. -/
def main (max : Nat) : Option (List Nat) := printLoop max (max - 2) 2 (cleared max)

/-! ## Sequences of uses -/

inductive BitUse
  | set (b : Nat)
  | clear (b : Nat)
  deriving DecidableEq, Repr

namespace BitUse

def index : BitUse → Nat
  | set b => b
  | clear b => b

def exec (a : CharArray) : BitUse → Option CharArray
  | set b => bitset a b
  | clear b => bitclear a b

/-- The meaning of a use on a set of indices. -/
def onSet (s : Set Nat) : BitUse → Set Nat
  | set b => insert b s
  | clear b => s \ {b}

end BitUse

/-- The last use of the index is `BITSET`. -/
def LastSets (uses : List BitUse) (b : Nat) : Prop :=
  (uses.filter fun u => u.index = b).getLast? = some (.set b)

end Twd.Bits
