import Mathlib.Algebra.GroupWithZero.Nat
import Mathlib.Data.Fin.Basic
import Twd.Infbuffer.TestInfbuffer

/-!
# The program that tests the array

Translation of `main` of `test_infbuffer.c` once its arguments have been read and the array has been
allocated. Every writer runs `thread_writer` and every reader `thread_reader`; the scheduler picks
the thread that takes the next access to shared memory, and a thread that has not been created yet
is one that has not been picked.
-/

namespace Twd.TestInfbuffer

/-- A thread that `main` has created. -/
inductive Thread (writers readers : Nat)
  | writer (i : Fin writers)
  | reader (i : Fin readers)
  deriving DecidableEq, Repr

/-- Whether `thread_reader` is in its loop, or how it has left it. -/
inductive ReaderStatus
  | looping
  | returned
  | aborted (a : Assertion)
  deriving DecidableEq, Repr

/-- The local state of `thread_reader`, with `info->seqnos`. -/
structure ReaderState where
  seqnos : Nat → Nat
  status : ReaderStatus

/-- The array and the local state of every thread. -/
structure State (writers readers : Nat) where
  inf : InfThreads (Thread writers readers) Payload
  /-- The loop variable `seqno` of each `thread_writer`. -/
  seqno : Fin writers → Nat
  readers : Fin readers → ReaderState

/-- `wdata[i].maxseq` -/
def writerMaxseq (items writers : Nat) : Nat := items / writers

/-- `rdata[i].maxseq`, a `size_t`. -/
def readerMaxseq (items writers : Nat) : Nat := (items / writers + (2 ^ 64 - 1)) % 2 ^ 64

/-- The item that `thread_writer` fills in when its loop variable is `seqno`. -/
def payload (id seqno : Nat) : Payload := { magic := magic, id := id, seqno := seqno + 1 }

/-- The rest of the loop of `thread_reader` after `infbuffer_rem` has left `p`. -/
def afterRem (writers maxseq : Nat) (r : ReaderState) : Option Payload → ReaderState
  | none => { r with status := .returned } -- if (load == NULL) break
  | some load =>
    if load.magic ≠ magic then { r with status := .aborted .magic }
    else if ¬ load.id < writers then { r with status := .aborted .id }
    else if ¬ load.seqno > r.seqnos load.id then { r with status := .aborted .seqno }
    else
      { seqnos := Function.update r.seqnos load.id load.seqno
        status := if load.seqno < maxseq then .looping else .returned }

variable {writers readers : Nat}

/-- After `infbuffer_init` and the calls of `pthread_create`. -/
def State.init (writers readers : Nat) : State writers readers where
  inf := .init _ _
  seqno _ := 0
  readers _ := { seqnos := fun _ => 0, status := .looping }

/-- The next step of `thread_writer`; none if it has returned. -/
def threadWriterNext (items : Nat) (s : State writers readers) (i : Fin writers) :
    Option (State writers readers) :=
  match s.inf.phase (.writer i) with
  | .idle =>
    if s.seqno i < writerMaxseq items writers then do
      let inf ← infbufferAdd s.inf (.writer i) (payload i (s.seqno i))
      some { s with inf := inf, seqno := Function.update s.seqno i (s.seqno i + 1) }
    else none
  | _ => do
    let inf ← infbufferNext s.inf (.writer i)
    some { s with inf := inf }

/-- The next step of `thread_reader`; none if it has returned. -/
def threadReaderNext (items : Nat) (s : State writers readers) (i : Fin readers) :
    Option (State writers readers) :=
  match s.inf.phase (.reader i) with
  | .idle =>
    if (s.readers i).status = .looping then do
      let inf ← infbufferRem s.inf (.reader i)
      some { s with inf := inf }
    else none
  | .load idx => do
    let inf ← infbufferNext s.inf (.reader i)
    let r := afterRem writers (readerMaxseq items writers) (s.readers i) (s.inf.buf.data idx)
    some { s with inf := inf, readers := Function.update s.readers i r }
  | _ => do
    let inf ← infbufferNext s.inf (.reader i)
    some { s with inf := inf }

/-- One step of one thread. -/
def next (items : Nat) (s : State writers readers) :
    Thread writers readers → Option (State writers readers)
  | .writer i => threadWriterNext items s i
  | .reader i => threadReaderNext items s i

/-- `pthread_join` of every thread succeeds: none has anything left to do. -/
def Joined (items : Nat) (s : State writers readers) : Prop := ∀ t, next items s t = none

/-- Nothing changes any more: every thread that has not returned yields again and again. -/
def Stuck (items : Nat) (s : State writers readers) : Prop :=
  ∀ t s', next items s t = some s' → ∃ idx, s.inf.phase t = .wait idx ∧ s.inf.buf.widx ≤ idx

/-- Whether the next step of a thread is anything but `sched_yield` in `infbuffer_rem`. -/
def work (s : State writers readers) (t : Thread writers readers) : Nat :=
  match s.inf.phase t with
  | .wait idx => if idx ≥ s.inf.buf.widx then 0 else 1
  | _ => 1

/-- No thread has used a slot outside the array of `items` slots, and no assertion has failed. -/
structure Sound (items : Nat) (s : State writers readers) : Prop where
  store_lt : ∀ p ∈ s.inf.stores, p.1 < items
  load_lt : ∀ l ∈ s.inf.loads, l.idx < items
  not_aborted : ∀ i a, (s.readers i).status ≠ .aborted a

end Twd.TestInfbuffer
