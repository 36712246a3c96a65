import Twd.Bytes.LittleEndian
import Twd.Machine.Run
import Twd.Ringbuffer.Ringbuffer

/-!
# A stream of records through the ring

Translation of `thread_writer` and `thread_reader` of `test_simple.c`, which are also those of
`test_ringbuffer.c`: the writer puts `n` records of `r` bytes into the ring, the reader takes them
out and looks at their sequence numbers. A turn of a thread is one call of `ringbuffer_write` or
`ringbuffer_read` with the code up to the next call; a turn after which the thread calls
`sched_yield` and tries again is one of them. The source keeps what the calls return in an `int`;
here it stays a `size_t`, which is the same for records of less than `2 ^ 31` bytes, as those of the
source are with 12 and 16.
-/

namespace Twd

/-- The records `test_data_struct[0 .. n-1]` as the writer fills them in, and how the reader takes
the fields out of the bytes again. Where `r` bytes are too few for both fields, there are no such
records for a large `n`. -/
structure Records (r : SizeT) (n : Nat) where
  /-- The bytes of a record. -/
  bytes : Nat → List UInt8
  /-- The field `seqnum` of a record. -/
  seqnum : List UInt8 → BitVec 32
  /-- The field `flags` of a record. -/
  flags : List UInt8 → BitVec 32
  length_bytes : ∀ i < n, (bytes i).length = r.toNat
  seqnum_bytes : ∀ i < n, seqnum (bytes i) = BitVec.ofNat 32 i
  flags_bytes : ∀ i < n, flags (bytes i) = if i + 1 = n then 1 else 0

/-- Whether the reading thread still reads, has exited with `TRUNCATED READ`, or has returned. -/
inductive StreamReader
  | reading
  | truncated
  | done
  deriving DecidableEq, Repr

/-- The ring and the two threads between two turns. -/
structure Stream where
  rbuf : Ringbuffer
  mem : Memory
  /-- The record that the writer has to write next, `n` when it has returned. -/
  next : Nat
  reader : StreamReader
  /-- The records that the reader has received, in order. -/
  received : List (List UInt8)
  /-- The counter `seqnums` of the reader. -/
  seqnums : BitVec 32
  /-- The reader has reported a missing sequence number. -/
  missing : Bool

/-- Whose turn it is. -/
inductive Turn
  | writer
  | reader
  deriving DecidableEq, Repr

/-- A new ring before the threads have done anything. -/
def Stream.init (size : SizeT) (mem : Memory) : Stream where
  rbuf := ringbufferInit size
  mem := mem
  next := 0
  reader := .reading
  received := []
  seqnums := 0
  missing := false

variable {r : SizeT} {n : Nat}

/-- The record that `thread_writer` writes after `ringbuffer_write` has returned `count` for record
`i`: the last record is done when the count is not zero, the others when it is the record size. The
`int` that holds the count is exact below `2 ^ 31`. -/
def threadWriterNext (r : SizeT) (n i : Nat) (count : SizeT) : Nat :=
  if i + 1 < n then
    if count = r then i + 1 else i
  else
    if count = 0 then i else i + 1

/-- A turn of `thread_writer`. -/
def threadWriter (recs : Records r n) (s : Stream) : Option Stream :=
  if s.next < n ∧ s.reader ≠ .truncated then do
    let (count, rbuf, mem) ← ringbufferWrite s.rbuf s.mem (recs.bytes s.next) r
    some { s with rbuf := rbuf, mem := mem, next := threadWriterNext r n s.next count }
  else none

/-- A turn of `thread_reader`, whose `int count` is exact below `2 ^ 31`. -/
def threadReader (recs : Records r n) (tries : Nat) (s : Stream) : Option Stream :=
  if s.reader = .reading then do
    let (count, a, rbuf) ← ringbufferRead tries s.rbuf s.mem r
    if count = 0 then some { s with rbuf := rbuf }
    else if count ≠ r then some { s with rbuf := rbuf, reader := .truncated }
    else if recs.flags a = 1 then
      some { s with rbuf := rbuf, received := s.received ++ [a], reader := .done }
    else some { s with
      rbuf := rbuf
      received := s.received ++ [a]
      missing := s.missing || recs.seqnum a != s.seqnums
      seqnums := s.seqnums + 1 }
  else none

/-- One turn; after `TRUNCATED READ` the process has exited and nobody has a turn. -/
def Stream.step (recs : Records r n) (tries : Nat) (s : Stream) : Turn → Option Stream
  | .writer => threadWriter recs s
  | .reader => threadReader recs tries s

/-- The reader has exactly the records written so far, less those still in the ring: each whole,
once and in order. -/
structure Lossless (recs : Records r n) (s : Stream) : Prop where
  not_truncated : s.reader ≠ .truncated
  not_missing : s.missing = false
  received : s.received = (List.range s.received.length).map recs.bytes
  in_order : s.received.flatten ++ Mirror.load s.rbuf.size.toNat s.mem s.rbuf.ridx.toNat
    (ringbufferUsed s.rbuf).toNat = (List.range s.next).flatMap recs.bytes

/-- `struct wire_acks` of `protocol.h`: sequence number, time and flags, four bytes each. The writer
leaves the time as it is, zero. -/
def wireAcks (seqnum flags : Nat) : List UInt8 :=
  LittleEndian.encode 4 seqnum ++ LittleEndian.encode 4 0 ++ LittleEndian.encode 4 flags

/-- The records of `test_simple.c`. -/
def wireAcksRecords (n : Nat) : Records 12 n where
  bytes i := wireAcks i (if i + 1 = n then 1 else 0)
  seqnum a := BitVec.ofNat 32 (LittleEndian.decode (a.take 4))
  flags a := BitVec.ofNat 32 (LittleEndian.decode (a.drop 8))
  length_bytes := by simp [wireAcks]
  seqnum_bytes i _ := by
    have htake : (wireAcks i (if i + 1 = n then 1 else 0)).take 4 = LittleEndian.encode 4 i := by
      simp [wireAcks]
    rw [htake, LittleEndian.decode_encode]
    exact BitVec.eq_of_toNat_eq (by simp)
  flags_bytes i _ := by
    have hdrop : ∀ f, (wireAcks i f).drop 8 = LittleEndian.encode 4 f := by
      simp [wireAcks, List.drop_append]
    rw [hdrop, LittleEndian.decode_encode]
    split_ifs <;> rfl

end Twd
