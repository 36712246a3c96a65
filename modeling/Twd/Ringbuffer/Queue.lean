import Twd.Fifo.BoundedQueue
import Twd.Machine.Run
import Twd.Ringbuffer.Ringbuffer

/-!
# Sequences of ring buffer calls and their queue semantics

`Call.exec` performs a call on the ring as the code does. `Call.onQueue` is the meaning of the same
call on a bounded queue of bytes.
-/

namespace Twd

/-- A call on a ring that has been initialised. -/
inductive Call
  | write (src : List UInt8) (amount : SizeT)
  | read (amount : SizeT)
  | peek (amount : SizeT)
  | reset
  | used
  | avail
  deriving DecidableEq, Repr

/-- What a call hands back to its caller. -/
inductive Result
  | count (n : Nat)
  | bytes (n : Nat) (dest : List UInt8)
  | status (rc : Nat)
  deriving DecidableEq, Repr

/-- What the callers promise: amounts are positive, and `src` points to at least `amount` bytes. -/
def Call.Valid : Call → Prop
  | .write src amount => 0 < amount ∧ amount.toNat ≤ src.length
  | .read amount => 0 < amount
  | .peek amount => 0 < amount
  | .reset => True
  | .used => True
  | .avail => True

/-- A ring, its cells, and the results of the calls so far. -/
structure RingState where
  rbuf : Ringbuffer
  mem : Memory
  results : List Result

/-- Performs one call; `tries` bounds the wrap loop of a read. -/
def Call.exec (tries : Nat) (s : RingState) : Call → Option RingState
  | .write src amount => do
    let (len, rbuf, mem) ← ringbufferWrite s.rbuf s.mem src amount
    some ⟨rbuf, mem, s.results ++ [.count len.toNat]⟩
  | .read amount => do
    let (len, dest, rbuf) ← ringbufferRead tries s.rbuf s.mem amount
    some ⟨rbuf, s.mem, s.results ++ [.bytes len.toNat dest]⟩
  | .peek amount => do
    let (len, dest) ← ringbufferPeek s.rbuf s.mem amount
    some ⟨s.rbuf, s.mem, s.results ++ [.bytes len.toNat dest]⟩
  | .reset =>
    let (rc, rbuf) := ringbufferReset s.rbuf
    some ⟨rbuf, s.mem, s.results ++ [.status rc]⟩
  | .used => some ⟨s.rbuf, s.mem, s.results ++ [.count (ringbufferUsed s.rbuf).toNat]⟩
  | .avail => some ⟨s.rbuf, s.mem, s.results ++ [.count (ringbufferAvail s.rbuf).toNat]⟩

/-- A new ring over cells of any content. -/
def RingState.init (size : SizeT) (mem : Memory) : RingState := ⟨ringbufferInit size, mem, []⟩

/-- A bounded queue of bytes and the results of the calls so far. -/
structure QueueState (cap : Nat) where
  queue : BoundedQueue UInt8 cap
  results : List Result

/-- The meaning of one call on a queue. -/
def Call.onQueue {cap : Nat} (s : QueueState cap) : Call → QueueState cap
  | .write src amount =>
    let (n, queue) := s.queue.write src amount.toNat
    ⟨queue, s.results ++ [.count n]⟩
  | .read amount =>
    let (dest, queue) := s.queue.read amount.toNat
    ⟨queue, s.results ++ [.bytes dest.length dest]⟩
  | .peek amount =>
    let dest := s.queue.peek amount.toNat
    ⟨s.queue, s.results ++ [.bytes dest.length dest]⟩
  | .reset => ⟨.empty, s.results ++ [.status 0]⟩
  | .used => ⟨s.queue, s.results ++ [.count s.queue.used]⟩
  | .avail => ⟨s.queue, s.results ++ [.count s.queue.avail]⟩

/-- The results that a sequence of calls has on a queue of capacity `cap` that is empty at first. -/
def queueResults (cap : Nat) (calls : List Call) : List Result :=
  (calls.foldl Call.onQueue (⟨.empty, []⟩ : QueueState cap)).results

end Twd
