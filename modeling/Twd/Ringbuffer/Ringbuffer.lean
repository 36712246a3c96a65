import Twd.Mirror.Mirror

/-!
# The ring buffer

Translation of `ringbuffer.c`. A `ringbuffer__s` points to a memory file of `size` bytes that is
mapped twice in a row, so that `address[i]` and `address[i + size]` are the same byte. The cells of
the file are kept apart from the structure: a copy of the structure has indices of its own but
points to the same cells. The field `used` of the structure is neither read nor written by the code
and is left out.
-/

namespace Twd

/-- `size_t` of a 64-bit machine. -/
abbrev SizeT := BitVec 64

/-- The cells of the memory file; only those below the ring's size exist. -/
abbrev Memory := Nat → UInt8

/-- `ringbuffer__s`, without the cells that its `address` points to. -/
structure Ringbuffer where
  /-- The size of the memory file. -/
  size : SizeT
  /-- The offset of the next byte to read. -/
  ridx : SizeT
  /-- The offset of the next byte to write. -/
  widx : SizeT
  deriving DecidableEq, Repr

def minSizeT (a b : SizeT) : SizeT := if a < b then a else b

/-- `__sync_val_compare_and_swap`: the value found in a variable holding `cur`, and the value left
in it. -/
def atomicCompareAndSwap (cur old new : SizeT) : SizeT × SizeT :=
  if cur = old then (cur, new) else (cur, cur)

/-- The structure as `ringbuffer_init` leaves it when it returns 0. -/
def ringbufferInit (size : SizeT) : Ringbuffer := { size := size, ridx := 0, widx := 0 }

/-- `memcpy(&rbuf->address[off], src, len)`; `none` if that leaves the mapping. -/
def copyIn (rbuf : Ringbuffer) (mem : Memory) (off : SizeT) (bytes : List UInt8) : Option Memory :=
  if off.toNat + bytes.length ≤ 2 * rbuf.size.toNat then
    some (Mirror.store rbuf.size.toNat mem off.toNat bytes)
  else none

/-- `memcpy(dest, &rbuf->address[off], len)`; `none` if that leaves the mapping. -/
def copyOut (rbuf : Ringbuffer) (mem : Memory) (off len : SizeT) : Option (List UInt8) :=
  if off.toNat + len.toNat ≤ 2 * rbuf.size.toNat then
    some (Mirror.load rbuf.size.toNat mem off.toNat len.toNat)
  else none

def ringbufferUsed (rbuf : Ringbuffer) : SizeT := rbuf.widx - rbuf.ridx

def ringbufferAvail (rbuf : Ringbuffer) : SizeT := rbuf.size - (rbuf.widx - rbuf.ridx)

/-- `old_ringbuffer_used`. The variable `temp` is a signed `long`. -/
def oldRingbufferUsed (rbuf : Ringbuffer) : SizeT :=
  let size := rbuf.size
  let widx := rbuf.widx
  let ridx := rbuf.ridx
  let temp : SizeT :=
    match (if size < widx then 1 else 0) <<< 1 ||| (if size < ridx then 1 else 0) with
    | 0 | 3 => widx - ridx
    | 1 => widx - (ridx - size)
    | 2 => ridx - (widx - size)
    | _ => 0
  if temp.toInt < 0 then -temp else temp

/-- `ringbuffer_write`: the count it returns, the structure and the cells afterwards. `src` holds the
bytes from `src` on, at least `amount` of them. -/
def ringbufferWrite (rbuf : Ringbuffer) (mem : Memory) (src : List UInt8) (amount : SizeT) :
    Option (SizeT × Ringbuffer × Memory) :=
  if amount = 0 then none -- assert(amount > 0)
  else
    let len := minSizeT (rbuf.size - ringbufferUsed rbuf) amount
    if 0 < len then do
      let mem ← copyIn rbuf mem rbuf.widx (src.take len.toNat)
      some (len, { rbuf with widx := rbuf.widx + len }, mem)
    else some (len, rbuf, mem)

/-- The loop of `ringbuffer_read` that pulls `widx` back by `size`, with a bound on the number of
tries: the `widx` it leaves. -/
def wrapLoop (size : SizeT) : Nat → SizeT → Option SizeT
  | 0, _ => none
  | tries + 1, widx =>
    let temp := widx
    let temp2 := temp - size
    let (temp3, widx) := atomicCompareAndSwap widx temp temp2
    if temp3 ≠ temp then wrapLoop size tries widx else some widx

/-- `ringbuffer_read`: the count it returns, the bytes it copies to `dest`, and the structure
afterwards. -/
def ringbufferRead (tries : Nat) (rbuf : Ringbuffer) (mem : Memory) (amount : SizeT) :
    Option (SizeT × List UInt8 × Ringbuffer) :=
  if amount = 0 then none -- assert(amount > 0)
  else
    let size := rbuf.size
    let used := ringbufferUsed rbuf
    if 0 < used then do
      let len := minSizeT used amount
      let dest ← copyOut rbuf mem rbuf.ridx len
      let rbuf := { rbuf with ridx := rbuf.ridx + len }
      if size < rbuf.ridx then
        let widx ← wrapLoop size tries rbuf.widx
        some (len, dest, { rbuf with widx := widx, ridx := rbuf.ridx - size })
      else some (len, dest, rbuf)
    else some (0, [], rbuf)

/-- `ringbuffer_peek`: the count it returns and the bytes it copies to `dest`. -/
def ringbufferPeek (rbuf : Ringbuffer) (mem : Memory) (amount : SizeT) :
    Option (SizeT × List UInt8) :=
  if amount = 0 then none -- assert(amount > 0)
  else
    let used := ringbufferUsed rbuf
    if 0 < used then do
      let len := minSizeT used amount
      let dest ← copyOut rbuf mem rbuf.ridx len
      some (len, dest)
    else some (0, [])

/-- `ringbuffer_reset`: the status it returns (`EXIT_SUCCESS`) and the structure afterwards. -/
def ringbufferReset (rbuf : Ringbuffer) : Nat × Ringbuffer :=
  (0, { rbuf with ridx := 0, widx := 0 })

@[simp] theorem toNat_minSizeT (a b : SizeT) :
    (minSizeT a b).toNat = min a.toNat b.toNat := by
  unfold minSizeT
  split_ifs with h
  · exact (Nat.min_eq_left (BitVec.lt_def.mp h).le).symm
  · exact (Nat.min_eq_right (by rw [BitVec.lt_def] at h; omega)).symm

@[simp] theorem zero_minSizeT (b : SizeT) : minSizeT 0#64 b = 0#64 :=
  BitVec.eq_of_toNat_eq (by simp)

/-- Nothing else writes `widx` during a call that runs alone, so the first compare-and-swap
succeeds. -/
@[simp] theorem wrapLoop_succ (size widx : SizeT) (tries : Nat) :
    wrapLoop size (tries + 1) widx = some (widx - size) := by
  simp [wrapLoop, atomicCompareAndSwap]

end Twd
