import Twd.Machine.Run
import Twd.Ringbuffer.Ringbuffer

/-!
# One writing and one reading thread

The small steps of `ringbuffer_write` and `ringbuffer_read`, called again and again by two threads
that share a ring. A step is one load or store of an index, one `memcpy`, the atomic addition, or
one load or compare-and-swap of the wrap loop; the two loads of `widx - ridx` come in either order.
A copy that leaves the mapping does not stop the run: its bytes go to the cell of their offset.

`History` records what the code does not keep but the statements about runs are about.
-/

namespace Twd

/-- The two indices of a ring. -/
inductive Index
  | ridx
  | widx
  deriving DecidableEq, Repr

/-- Where the writing thread is in `ringbuffer_write(rbuf, src, amount)`. -/
inductive Writer
  | idle
  /-- No index has been loaded. -/
  | entry (src : List UInt8) (amount : SizeT)
  /-- `widx` has been loaded as `w`, `ridx` comes next. -/
  | gotWidx (src : List UInt8) (amount w : SizeT)
  /-- `ridx` has been loaded as `r`, `widx` comes next. -/
  | gotRidx (src : List UInt8) (amount r : SizeT)
  /-- `len > 0`, the load of `widx` for the address comes next. -/
  | address (src : List UInt8) (amount len : SizeT)
  /-- The copy to `&address[off]` comes next. -/
  | copy (src : List UInt8) (len off : SizeT)
  /-- The atomic addition comes next. -/
  | publish (src : List UInt8) (len off : SizeT)
  deriving DecidableEq, Repr

/-- Where the reading thread is in `ringbuffer_read(rbuf, dest, amount)`. -/
inductive Reader
  | idle
  /-- No index has been loaded. -/
  | entry (amount : SizeT)
  /-- `widx` has been loaded as `w`, `ridx` comes next. -/
  | gotWidx (amount w : SizeT)
  /-- `ridx` has been loaded as `r`, `widx` comes next. -/
  | gotRidx (amount r : SizeT)
  /-- `used > 0`, the load of `ridx` for the address comes next. -/
  | address (len : SizeT)
  /-- The copy from `&address[off]` comes next. -/
  | copy (len off : SizeT)
  /-- The load of `ridx += len` comes next. -/
  | bumpLoad (len : SizeT) (dest : List UInt8)
  /-- The store of `ridx += len` comes next. -/
  | bumpStore (len : SizeT) (dest : List UInt8) (r : SizeT)
  /-- The test `ridx > size` comes next. -/
  | check (dest : List UInt8)
  /-- The load of `widx` in the wrap loop comes next. -/
  | wrapLoad (dest : List UInt8)
  /-- The compare-and-swap of `widx` comes next. -/
  | wrapSwap (dest : List UInt8) (temp : SizeT)
  /-- The load of `ridx -= size` comes next. -/
  | subLoad (dest : List UInt8)
  /-- The store of `ridx -= size` comes next. -/
  | subStore (dest : List UInt8) (r : SizeT)
  deriving DecidableEq, Repr

/-- What has happened so far. -/
structure History where
  /-- The bytes that the writer has added, in order, each with the cell it was copied to. -/
  sent : List (Nat × UInt8)
  /-- How many bytes the reader has copied out of the ring. -/
  copied : Nat
  /-- How many bytes `ridx += len` has moved over. -/
  consumed : Nat
  /-- The bytes that finished calls of `ringbuffer_read` have returned, in order. -/
  got : List UInt8
  /-- How many compare-and-swaps have succeeded. -/
  swaps : Nat
  /-- How many times `ridx -= size` has been completed. -/
  subs : Nat
  /-- `swaps` when the writer last loaded `widx` for the free space. -/
  seenSwaps : Nat
  /-- `subs` when the writer last loaded `ridx` for the free space. -/
  seenSubs : Nat
  /-- The `ridx` that the writer loaded then. -/
  seenRidx : SizeT

/-- The two threads and the ring they share. -/
structure Threads where
  rbuf : Ringbuffer
  mem : Memory
  writer : Writer
  reader : Reader
  hist : History

/-- A choice of the scheduler: a thread calls a function, or takes its next step. The index is the
one that is loaded first when the thread is about to evaluate `widx - ridx`. -/
inductive Action
  | write (src : List UInt8) (amount : SizeT)
  | read (amount : SizeT)
  | writer (first : Index)
  | reader (first : Index)
  deriving DecidableEq, Repr

/-- A new ring that nobody has used. -/
def Threads.init (size : SizeT) (mem : Memory) : Threads where
  rbuf := ringbufferInit size
  mem := mem
  writer := .idle
  reader := .idle
  hist := ⟨[], 0, 0, [], 0, 0, 0, 0, 0⟩

/-- The writer once it knows `used`: `len = min_size_t(size - used, amount)` and the test
`len > 0`. -/
def Writer.decide (size : SizeT) (src : List UInt8) (amount used : SizeT) : Writer :=
  let len := minSizeT (size - used) amount
  if 0 < len then .address src amount len else .idle

/-- The reader once it knows `used`: the test `used > 0` and `len = min_size_t(used, amount)`. -/
def Reader.decide (amount used : SizeT) : Reader :=
  if 0 < used then .address (minSizeT used amount) else .idle

/-- The count that `ringbuffer_write` returns when the step at this program point is its last. -/
def Writer.count : Writer → SizeT
  | .publish _ len _ => len
  | .idle | .entry .. | .gotWidx .. | .gotRidx .. | .address .. | .copy .. => 0

/-- The bytes that `ringbuffer_read` has copied when the step at this program point is its last; it
returns their number. -/
def Reader.dest : Reader → List UInt8
  | .check dest | .subStore dest _ => dest
  | .idle | .entry _ | .gotWidx .. | .gotRidx .. | .address _ | .copy .. | .bumpLoad ..
  | .bumpStore .. | .wrapLoad _ | .wrapSwap .. | .subLoad _ => []

/-- The bytes that `len` bytes of `src` are as entries of the history, copied to offset `off`. -/
def sentBytes (size : SizeT) (src : List UInt8) (len off : SizeT) : List (Nat × UInt8) :=
  (src.take len.toNat).mapIdx fun i b => ((off.toNat + i) % size.toNat, b)

/-- The next step of the writing thread. -/
def writerStep (s : Threads) (first : Index) : Option Threads :=
  match s.writer with
  | .idle => none
  | .entry src amount =>
    match first with
    | .widx => some { s with
        writer := .gotWidx src amount s.rbuf.widx
        hist := { s.hist with seenSwaps := s.hist.swaps } }
    | .ridx => some { s with
        writer := .gotRidx src amount s.rbuf.ridx
        hist := { s.hist with seenSubs := s.hist.subs, seenRidx := s.rbuf.ridx } }
  | .gotWidx src amount w => some { s with
      writer := .decide s.rbuf.size src amount (w - s.rbuf.ridx)
      hist := { s.hist with seenSubs := s.hist.subs, seenRidx := s.rbuf.ridx } }
  | .gotRidx src amount r => some { s with
      writer := .decide s.rbuf.size src amount (s.rbuf.widx - r)
      hist := { s.hist with seenSwaps := s.hist.swaps } }
  | .address src _ len => some { s with writer := .copy src len s.rbuf.widx }
  | .copy src len off => some { s with
      mem := Mirror.store s.rbuf.size.toNat s.mem off.toNat (src.take len.toNat)
      writer := .publish src len off }
  | .publish src len off => some { s with
      rbuf := { s.rbuf with widx := s.rbuf.widx + len }
      writer := .idle
      hist := { s.hist with sent := s.hist.sent ++ sentBytes s.rbuf.size src len off } }

/-- The next step of the reading thread. -/
def readerStep (s : Threads) (first : Index) : Option Threads :=
  match s.reader with
  | .idle => none
  | .entry amount =>
    match first with
    | .widx => some { s with reader := .gotWidx amount s.rbuf.widx }
    | .ridx => some { s with reader := .gotRidx amount s.rbuf.ridx }
  | .gotWidx amount w => some { s with reader := .decide amount (w - s.rbuf.ridx) }
  | .gotRidx amount r => some { s with reader := .decide amount (s.rbuf.widx - r) }
  | .address len => some { s with reader := .copy len s.rbuf.ridx }
  | .copy len off => some { s with
      reader := .bumpLoad len (Mirror.load s.rbuf.size.toNat s.mem off.toNat len.toNat)
      hist := { s.hist with copied := s.hist.copied + len.toNat } }
  | .bumpLoad len dest => some { s with reader := .bumpStore len dest s.rbuf.ridx }
  | .bumpStore len dest r => some { s with
      rbuf := { s.rbuf with ridx := r + len }
      reader := .check dest
      hist := { s.hist with consumed := s.hist.consumed + len.toNat } }
  | .check dest =>
    if s.rbuf.size < s.rbuf.ridx then some { s with reader := .wrapLoad dest }
    else some { s with reader := .idle, hist := { s.hist with got := s.hist.got ++ dest } }
  | .wrapLoad dest => some { s with reader := .wrapSwap dest s.rbuf.widx }
  | .wrapSwap dest temp =>
    let (temp3, widx) := atomicCompareAndSwap s.rbuf.widx temp (temp - s.rbuf.size)
    if temp3 ≠ temp then some { s with reader := .wrapLoad dest }
    else some { s with
      rbuf := { s.rbuf with widx := widx }
      reader := .subLoad dest
      hist := { s.hist with swaps := s.hist.swaps + 1 } }
  | .subLoad dest => some { s with reader := .subStore dest s.rbuf.ridx }
  | .subStore dest r => some { s with
      rbuf := { s.rbuf with ridx := r - s.rbuf.size }
      reader := .idle
      hist := { s.hist with subs := s.hist.subs + 1, got := s.hist.got ++ dest } }

/-- One step of a run. A thread calls a function only when it is in none, with a positive amount,
and the writer with a source of at least that many bytes. -/
def Threads.step (s : Threads) : Action → Option Threads
  | .write src amount =>
    if s.writer = .idle ∧ 0 < amount ∧ amount.toNat ≤ src.length then
      some { s with writer := .entry src amount }
    else none
  | .read amount =>
    if s.reader = .idle ∧ 0 < amount then some { s with reader := .entry amount } else none
  | .writer first => writerStep s first
  | .reader first => readerStep s first

/-- What two threads that share a ring rely on. -/
structure Safe (s : Threads) : Prop where
  /-- The bytes returned by reads are a prefix of those added by writes. -/
  got_prefix : s.hist.got <+: s.hist.sent.map Prod.snd
  /-- The copy that the writer is about to make touches no cell of a byte that was written and not
  yet copied out. -/
  writer_unread : ∀ src len off, s.writer = .copy src len off →
    ∀ e ∈ s.hist.sent.drop s.hist.copied, ∀ i < len.toNat,
      e.1 ≠ (off.toNat + i) % s.rbuf.size.toNat
  /-- The copy that the writer is about to make stays in the mapping. -/
  writer_inside : ∀ src len off, s.writer = .copy src len off →
    off.toNat + len.toNat ≤ 2 * s.rbuf.size.toNat
  /-- The copy that the reader is about to make stays in the mapping. -/
  reader_inside : ∀ len off, s.reader = .copy len off →
    off.toNat + len.toNat ≤ 2 * s.rbuf.size.toNat

/-- No addition to `widx` is lost: modulo `2 ^ 64`, each index is the number of bytes added or
consumed less the ring size for every time it has been pulled back. -/
structure Accounted (size : SizeT) (s : Threads) : Prop where
  size_eq : s.rbuf.size = size
  widx : s.rbuf.widx =
    BitVec.ofNat 64 s.hist.sent.length - size * BitVec.ofNat 64 s.hist.swaps
  ridx : s.rbuf.ridx = BitVec.ofNat 64 s.hist.consumed - size * BitVec.ofNat 64 s.hist.subs
  subs_le : s.hist.subs ≤ s.hist.swaps
  swaps_le : s.hist.swaps ≤ s.hist.subs + 1
  /-- `widx` has been pulled back once more than `ridx` between the two halves of the wrap only. -/
  between : s.hist.swaps = s.hist.subs + 1 →
    ∃ dest, s.reader = .subLoad dest ∨ ∃ r, s.reader = .subStore dest r
  used : s.reader = .idle →
    ringbufferUsed s.rbuf = BitVec.ofNat 64 s.hist.sent.length - BitVec.ofNat 64 s.hist.consumed

/-- The reader has moved `ridx` past the end of the first mapping and has not pulled `widx` back
yet. -/
def Threads.PastEnd (s : Threads) : Prop :=
  s.rbuf.size < s.rbuf.ridx ∧ s.hist.swaps = s.hist.subs

/-- The number of bytes that can be added without overwriting one that is still to be read. -/
def Threads.room (s : Threads) : Nat :=
  s.rbuf.size.toNat - (s.hist.sent.length - s.hist.consumed)

/-- The condition on a step of the writer at its program point. When it has both loads of
`widx - ridx`, as many `widx -= size` lie behind the one as `ridx -= size` behind the other, or else
the amount fits anyway. When it loads `widx` for the address, the `ridx` it knows of was not past
the end, or no `ridx` past the end waits for `widx -= size`, or else the amount fits below the end
of the mapping. -/
def Threads.CoherentAt (s : Threads) : Writer → Prop
  | .gotWidx _ amount _ => s.hist.seenSwaps = s.hist.subs ∨ amount.toNat ≤ s.room
  | .gotRidx _ amount _ => s.hist.swaps = s.hist.seenSubs ∨ amount.toNat ≤ s.room
  | .address _ amount _ =>
    (s.hist.seenSwaps = s.hist.seenSubs ∧ s.hist.seenRidx ≤ s.rbuf.size) ∨ ¬ s.PastEnd ∨
      s.rbuf.widx.toNat + amount.toNat ≤ 2 * s.rbuf.size.toNat
  | .idle | .entry .. | .copy .. | .publish .. => True

/-- The condition on a step; the reader's steps are free. -/
def Threads.Coherent (s : Threads) : Action → Prop
  | .writer _ => s.CoherentAt s.writer
  | .write .. | .read .. | .reader _ => True

instance (s : Threads) : Decidable s.PastEnd := inferInstanceAs (Decidable (_ ∧ _))

instance Threads.decidableCoherentAt (s : Threads) : ∀ w, Decidable (s.CoherentAt w)
  | .gotWidx .. | .gotRidx .. => inferInstanceAs (Decidable (_ ∨ _))
  | .address .. => inferInstanceAs (Decidable ((_ ∧ _) ∨ _ ∨ _))
  | .idle | .entry .. | .copy .. | .publish .. => isTrue trivial

instance Threads.decidableCoherent (s : Threads) : ∀ a, Decidable (s.Coherent a)
  | .writer _ => s.decidableCoherentAt s.writer
  | .write .. | .read .. | .reader _ => isTrue trivial

end Twd
