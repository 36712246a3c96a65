import Twd.Ringbuffer.Records
import Twd.Ringbuffer.Threads

/-!
# The stream of records, step by step

`thread_writer` and `thread_reader` of `test_simple.c` and `test_ringbuffer.c` once more, now with
the single steps of their ring buffer calls in any order. What a thread does with the count of a
call it does with the last step of that call.
-/

namespace Twd

/-- The ring, the calls that the two threads are in, and what the threads keep between their
calls. -/
structure StreamThreads where
  threads : Threads
  /-- The record that the writer has to write next, `n` when it has returned. -/
  next : Nat
  reader : StreamReader
  /-- The records that the reader has received, in order. -/
  received : List (List UInt8)
  /-- The counter `seqnums` of the reader. -/
  seqnums : BitVec 32
  /-- The reader has reported a missing sequence number. -/
  missing : Bool

/-- The thread that takes a step. The index is the one that is loaded first when the thread is about
to evaluate `widx - ridx`. -/
inductive Tick
  | writer (first : Index)
  | reader (first : Index)
  deriving DecidableEq, Repr

/-- A new ring before the threads have done anything. -/
def StreamThreads.init (size : SizeT) (mem : Memory) : StreamThreads where
  threads := Threads.init size mem
  next := 0
  reader := .reading
  received := []
  seqnums := 0
  missing := false

variable {r : SizeT} {n : Nat}

/-- A step of `thread_writer`: it calls `ringbuffer_write` with its record, or goes on in the call it
is in. -/
def threadWriterStep (recs : Records r n) (s : StreamThreads) (first : Index) :
    Option StreamThreads :=
  if s.next < n ∧ s.reader ≠ .truncated then
    if s.threads.writer = .idle then do
      let t ← s.threads.step (.write (recs.bytes s.next) r)
      some { s with threads := t }
    else do
      let t ← s.threads.step (.writer first)
      if t.writer = .idle then
        some { s with
          threads := t
          next := threadWriterNext r n s.next s.threads.writer.count }
      else some { s with threads := t }
  else none

/-- What `thread_reader` does when `ringbuffer_read` has copied `a`. Its `int count` is the length of
`a` as long as that is below `2 ^ 31`. -/
def threadReaderNext (recs : Records r n) (s : StreamThreads) (a : List UInt8) : StreamThreads :=
  if a.length = 0 then s
  else if a.length ≠ r.toNat then { s with reader := .truncated }
  else if recs.flags a = 1 then { s with received := s.received ++ [a], reader := .done }
  else { s with
    received := s.received ++ [a]
    missing := s.missing || recs.seqnum a != s.seqnums
    seqnums := s.seqnums + 1 }

/-- A step of `thread_reader`: it calls `ringbuffer_read`, or goes on in the call it is in. -/
def threadReaderStep (recs : Records r n) (s : StreamThreads) (first : Index) :
    Option StreamThreads :=
  if s.reader = .reading then
    if s.threads.reader = .idle then do
      let t ← s.threads.step (.read r)
      some { s with threads := t }
    else do
      let t ← s.threads.step (.reader first)
      if t.reader = .idle then
        some (threadReaderNext recs { s with threads := t } s.threads.reader.dest)
      else some { s with threads := t }
  else none

/-- One step; after `TRUNCATED READ` the process has exited and nobody takes one. -/
def StreamThreads.step (recs : Records r n) (s : StreamThreads) : Tick → Option StreamThreads
  | .writer first => threadWriterStep recs s first
  | .reader first => threadReaderStep recs s first

/-- The condition of `Threads.Coherent` on a step. -/
def StreamThreads.Coherent (s : StreamThreads) : Tick → Prop
  | .writer _ => s.threads.CoherentAt s.threads.writer
  | .reader _ => True

instance StreamThreads.decidableCoherent (s : StreamThreads) : ∀ a, Decidable (s.Coherent a)
  | .writer _ => s.threads.decidableCoherentAt s.threads.writer
  | .reader _ => isTrue trivial

/-- What has gone through the ring is the records, each whole, once and in order. -/
structure StreamThreads.Lossless (recs : Records r n) (s : StreamThreads) : Prop where
  not_truncated : s.reader ≠ .truncated
  not_missing : s.missing = false
  /-- The records that the reader has received are the first ones. -/
  received : s.received = (List.range s.received.length).map recs.bytes
  /-- The bytes that have been added are those of the records that the writer is done with. -/
  sent : s.threads.hist.sent.map Prod.snd = (List.range s.next).flatMap recs.bytes
  /-- The bytes that have been returned are those of the records received. -/
  got : s.threads.hist.got = s.received.flatten
  /-- The reader returns with the last record only. -/
  done : s.reader = .done → s.received.length = n

/-- `struct acks` of `test_ringbuffer.c`: the time in eight bytes, sequence number and flags in four
each. The writer leaves the time as it is, zero. -/
def acks (seqnum flags : Nat) : List UInt8 :=
  LittleEndian.encode 8 0 ++ LittleEndian.encode 4 seqnum ++ LittleEndian.encode 4 flags

/-- The records of `test_ringbuffer.c`. -/
def acksRecords (n : Nat) : Records 16 n where
  bytes i := acks i (if i + 1 = n then 1 else 0)
  seqnum a := BitVec.ofNat 32 (LittleEndian.decode ((a.drop 8).take 4))
  flags a := BitVec.ofNat 32 (LittleEndian.decode (a.drop 12))
  length_bytes := by simp [acks]
  seqnum_bytes i _ := by
    have hseqnum : ((acks i (if i + 1 = n then 1 else 0)).drop 8).take 4 =
        LittleEndian.encode 4 i := by
      simp [acks]
    rw [hseqnum, LittleEndian.decode_encode]
    exact BitVec.eq_of_toNat_eq (by simp)
  flags_bytes i _ := by
    have hflags : ∀ f, (acks i f).drop 12 = LittleEndian.encode 4 f := by
      simp [acks, List.drop_append]
    rw [hflags, LittleEndian.decode_encode]
    split_ifs <;> rfl

end Twd
