import Twd.Bytes.LittleEndian
import Twd.Ringbuffer.Queue

/-!
# The tests of a ring

Translation of `test_basic` and `test_rollover` of `test_ringbuffer.c`. What they print is left out,
and so are the last two checks of `test_basic`, of variables that nothing writes to.
-/

namespace Twd.TestRingbuffer

/-- The bytes of an `int`. -/
def int (n : Nat) : List UInt8 := LittleEndian.encode 4 n

/-- The bytes of a variable after some have been copied to its start. -/
def overwrite (c dest : List UInt8) : List UInt8 := dest ++ c.drop dest.length

/-- `test_basic`, where `c` holds some bytes at first. -/
def testBasic (tries : Nat) (c : List UInt8) (rbuf : Ringbuffer) (mem : Memory) :
    Option (Int × Ringbuffer × Memory) := do
  let a := int 1
  let b := int 2
  let (_, rbuf, mem) ← ringbufferWrite rbuf mem a 4
  let (_, rbuf, mem) ← ringbufferWrite rbuf mem b 4
  let (count, dest, rbuf) ← ringbufferRead tries rbuf mem 4
  let c := overwrite c dest
  if count ≠ 4 then some (-1, rbuf, mem)
  else if c ≠ a then some (-2, rbuf, mem)
  else
    let (count, dest, rbuf) ← ringbufferRead tries rbuf mem 4
    let c := overwrite c dest
    if count ≠ 4 then some (-1, rbuf, mem)
    else if c ≠ b then some (-2, rbuf, mem)
    else
      let (count, _, rbuf) ← ringbufferRead tries rbuf mem 4
      if count ≠ 0 then some (-3, rbuf, mem) else some (0, rbuf, mem)

/-- A loop that writes the same `int` a number of times, with `res` before it. -/
def fillLoop (a : List UInt8) : Nat → Nat → Ringbuffer → Memory →
    Option (Nat × Ringbuffer × Memory)
  | 0, res, rbuf, mem => some (res, rbuf, mem)
  | n + 1, res, rbuf, mem => do
    let (count, rbuf, mem) ← ringbufferWrite rbuf mem a 4
    fillLoop a n (if count ≠ 4 then res ||| 1 else res) rbuf mem

/-- A loop that reads an `int` as long as it is the expected one, with `left` to go until `i` is no
longer smaller than its bound: `i`, `c`, `count` and the ring afterwards. -/
def drainLoop (tries : Nat) (mem : Memory) (a : List UInt8) : (left i : Nat) → List UInt8 →
    Ringbuffer → Option (Nat × List UInt8 × Bool × Ringbuffer)
  | 0, i, c, rbuf => do
    let (n, dest, rbuf) ← ringbufferRead tries rbuf mem 4
    let c := overwrite c dest
    let count : Bool := n = 4
    some (if count ∧ c = a then i + 1 else i, c, count, rbuf)
  | left + 1, i, c, rbuf => do
    let (n, dest, rbuf) ← ringbufferRead tries rbuf mem 4
    let c := overwrite c dest
    let count : Bool := n = 4
    if count ∧ c = a then drainLoop tries mem a left (i + 1) c rbuf else some (i, c, count, rbuf)

/-- One half of `test_rollover`: the ring is filled with the bytes of an `int` and drained. -/
def rolloverHalf (tries : Nat) (a : List UInt8) (res : Nat) (c : List UInt8) (rbuf : Ringbuffer)
    (mem : Memory) : Option (Nat × List UInt8 × Ringbuffer × Memory) := do
  let (res, rbuf, mem) ← fillLoop a 1024 res rbuf mem
  let (i, c, count, rbuf) ← drainLoop tries mem a 1024 0 c rbuf
  some (if i = 1024 ∧ c = a ∧ count = false then res else res ||| 1, c, rbuf, mem)

def testRollover (tries : Nat) (rbuf : Ringbuffer) (mem : Memory) :
    Option (Nat × Ringbuffer × Memory) := do
  let (res, c, rbuf, mem) ← rolloverHalf tries (int 1) 0 (int 1) rbuf mem
  let (res, _, rbuf, mem) ← rolloverHalf tries (int 2) res c rbuf mem
  some (res, rbuf, mem)

end Twd.TestRingbuffer
