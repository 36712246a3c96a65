import Mathlib.Data.Set.Insert
import Mathlib.Logic.Function.Basic
import Twd.Machine.Run
import Twd.Ringbuffer.Ringbuffer

/-!
# Sets of bits

Translation of `bitset.h`, which does not compile as it stands: `bindex` is read as `bitset_index`,
`data[..]` as `data->words[..]`, the `n` of `bitset_calloc` as `nbits`, and its call of
`bitset_clear` with the set only as `bitset_clear_all`. Words and `size_t` have 64 bits, `int` has
32. An operation is `none` where C leaves its behaviour undefined.
-/

namespace Twd

abbrev WordT := BitVec 64

/-- `WORD_SIZE` -/
def wordSize : Nat := 64

/-- `bitset_t`; the words from `nwords` on do not exist. -/
structure Bitset where
  words : Nat → WordT
  nwords : SizeT

/-- The word that a bit is in, as an `int`. -/
def bitsetIndex (b : SizeT) : Int := (BitVec.ofNat 32 (b.toNat / wordSize)).toInt

def bitsetBoffset (b : SizeT) : Nat := b.toNat % wordSize

/-- `1 << k` is defined where the result fits an `int`. With the extension of GCC the sign bit can
be reached as well. -/
def shiftOne (gnu : Bool) (k : Nat) : Option (BitVec 32) :=
  if k < 31 ∨ (gnu = true ∧ k = 31) then some (1#32 <<< k) else none

/-- `words[i]` -/
def Bitset.wordAt (data : Bitset) (i : Int) : Option Nat :=
  if 0 ≤ i ∧ i < data.nwords.toNat then some i.toNat else none

def bitsetSet (gnu : Bool) (data : Bitset) (b : SizeT) : Option Bitset := do
  let i ← data.wordAt (bitsetIndex b)
  let mask ← shiftOne gnu (bitsetBoffset b)
  some { data with words := Function.update data.words i (data.words i ||| mask.signExtend 64) }

def bitsetClear (gnu : Bool) (data : Bitset) (b : SizeT) : Option Bitset := do
  let i ← data.wordAt (bitsetIndex b)
  let mask ← shiftOne gnu (bitsetBoffset b)
  some { data with words := Function.update data.words i (data.words i &&& (~~~mask).signExtend 64) }

def bitsetGet (gnu : Bool) (data : Bitset) (b : SizeT) : Option (BitVec 32) := do
  let i ← data.wordAt (bitsetIndex b)
  let mask ← shiftOne gnu (bitsetBoffset b)
  some ((data.words i &&& mask.signExtend 64).setWidth 32)

/-- The body of `bitset_clear_all` is empty. -/
def bitsetClearAll (data : Bitset) : Bitset := data

/-- `bitset_calloc`, where `malloc` leaves `left` in the words. -/
def bitsetCalloc (left : Nat → WordT) (nbits : SizeT) : Bitset :=
  bitsetClearAll { words := left, nwords := nbits / 64 + 1 }

/-! ## Sequences of calls -/

inductive BitsetCall
  | set (b : SizeT)
  | clear (b : SizeT)
  deriving DecidableEq, Repr

namespace BitsetCall

def index : BitsetCall → SizeT
  | set b => b
  | clear b => b

def exec (gnu : Bool) (data : Bitset) : BitsetCall → Option Bitset
  | set b => bitsetSet gnu data b
  | clear b => bitsetClear gnu data b

/-- The meaning of a call on a set of indices. -/
def onSet (s : Set SizeT) : BitsetCall → Set SizeT
  | set b => insert b s
  | clear b => s \ {b}

end BitsetCall

/-- The last call on the index is `bitset_set`. -/
def LastSets (calls : List BitsetCall) (b : SizeT) : Prop :=
  (calls.filter fun c => c.index = b).getLast? = some (.set b)

/-- The calls and all lookups after them stay in the words, and the lookups tell which indices have
been set last. -/
structure ActsAsSet (gnu : Bool) (left : Nat → WordT) (nbits : SizeT) (calls : List BitsetCall) :
    Prop where
  inside : ∀ b < nbits, 0 ≤ bitsetIndex b ∧
    bitsetIndex b < (bitsetCalloc left nbits).nwords.toNat
  answers : ∃ data, Machine.run (BitsetCall.exec gnu) (bitsetCalloc left nbits) calls = some data ∧
    ∀ b < nbits, ∃ v, bitsetGet gnu data b = some v ∧ (v ≠ 0 ↔ LastSets calls b)

/-- For which indices the mask can be computed. -/
def maskLimit (gnu : Bool) : Nat := if gnu then 32 else 31

/-- The bits on which no call is made have been left zero. -/
def LeftZero (left : Nat → WordT) (nbits : SizeT) (calls : List BitsetCall) : Prop :=
  ∀ b < nbits, (∀ c ∈ calls, c.index ≠ b) → (left 0).getLsbD b.toNat = false

end Twd
