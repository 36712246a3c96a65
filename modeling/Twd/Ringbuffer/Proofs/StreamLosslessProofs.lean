import Twd.Ringbuffer.Proofs.AloneProofs
import Twd.Ringbuffer.Proofs.StreamThreadsProofs
import Twd.Ringbuffer.Proofs.ThreadsProgressProofs

/-!
# When the stream of records is lossless, step by step

A thread that goes on alone ends its call with what the same call made at once returns. So every
turn of `Stream` is a coherent run of single steps, and the turns that end with `TRUNCATED READ` are
such a run too.
-/

namespace Twd

variable {r size : SizeT} {n : Nat} {recs : Records r n}

/-- All of the state but the calls that the threads are in. -/
def StreamThreads.stream (s : StreamThreads) : Stream where
  rbuf := s.threads.rbuf
  mem := s.threads.mem
  next := s.next
  reader := s.reader
  received := s.received
  seqnums := s.seqnums
  missing := s.missing

/-- No thread is in a call, and the steps have led to the same as the turns. -/
structure BetweenTurns (s : StreamThreads) (t : Stream) : Prop where
  inv : ThreadsInv s.threads
  writer : s.threads.writer = .idle
  reader : s.threads.reader = .idle
  stream : s.stream = t

/-! ## A turn of the writer -/

/-- The writer is in the call of a turn that ends in `t`. -/
structure WriterTurn (recs : Records r n) (t : Stream) (s : StreamThreads) : Prop where
  inv : ThreadsInv s.threads
  reader : s.threads.reader = .idle
  runs : s.next < n ∧ s.reader ≠ .truncated
  coherent : s.threads.CoherentAt s.threads.writer
  leaves : ∃ len, WriterLeaves s.threads t.rbuf t.mem len ∧
    t = { s.stream with rbuf := t.rbuf, mem := t.mem, next := threadWriterNext r n s.next len }

/-- While the reader is in no call, `ridx` is not past the end. -/
theorem not_pastEnd {t : Threads} (h : AtRest t) : ¬ t.PastEnd :=
  fun hpast => absurd (BitVec.lt_def.mp hpast.1) (Nat.not_lt.mpr h.ridx_le)

/-- While the reader is in no call, every step of the writer is coherent. -/
theorem coherentAt_alone {t t' : Threads} {first : Index} (h : AtRest t)
    (hs : writerStep t first = some t') : t'.CoherentAt t'.writer := by
  have hdecide : ∀ (src : List UInt8) (amount used : SizeT) (hist : History),
      ({ t with writer := .decide t.rbuf.size src amount used, hist := hist } :
        Threads).CoherentAt (.decide t.rbuf.size src amount used) := by
    intro src amount used hist
    rcases Writer.decide_cases t.rbuf.size src amount used with hd | ⟨len, hd, -⟩
    · rw [hd]
      trivial
    · rw [hd]
      exact .inr (.inl fun hpast => not_pastEnd h ⟨hpast.1, h.laps⟩)
  unfold writerStep at hs
  cases hw : t.writer with
  | idle => simp [hw] at hs
  | entry src amount =>
    rw [hw] at hs
    cases first with
    | widx =>
      cases hs
      exact .inl h.laps
    | ridx =>
      cases hs
      exact .inl h.laps
  | gotWidx src amount w =>
    rw [hw] at hs
    cases hs
    exact hdecide src amount _ _
  | gotRidx src amount ridx =>
    rw [hw] at hs
    cases hs
    exact hdecide src amount _ _
  | address src amount len | copy src len off | publish src len off =>
    rw [hw] at hs
    cases hs
    trivial

/-- The next step of the writer ends the turn or brings its end nearer. -/
theorem writerTurn_step {t : Stream} {s : StreamThreads} (h : WriterTurn recs t s) :
    ∃ a s', s.step recs a = some s' ∧ s.Coherent a ∧
      (BetweenTurns s' t ∨
        WriterTurn recs t s' ∧ s'.threads.writer.left < s.threads.writer.left) := by
  obtain ⟨len, hleaves, hstream⟩ := h.leaves
  have hbusy := hleaves.ne_idle
  have hrest : AtRest s.threads := by
    have hinv := h.inv.reader
    rwa [ReaderInv, h.reader] at hinv
  obtain ⟨u, hu⟩ := writerStep_isSome hbusy .widx
  have hinv := threadsInv_step s.threads (.writer .widx) u h.inv h.coherent hu
  have hreader := (writerStep_frame hu).reader.trans h.reader
  cases writerStep_leaves hleaves hu with
  | goesOn hleaves' =>
    have hgo := hleaves'.ne_idle
    refine ⟨.writer .widx, { s with threads := u }, ?_, h.coherent, .inr ⟨⟨hinv, hreader, h.runs,
      coherentAt_alone hrest hu, len, hleaves', hstream⟩, writerStep_left hu⟩⟩
    simp [StreamThreads.step, threadWriterStep, h.runs, hbusy, Threads.step, hu, hgo]
  | returns hret hcount hrbuf hmem =>
    refine ⟨.writer .widx, { s with threads := u, next := threadWriterNext r n s.next len }, ?_,
      h.coherent, .inl ⟨hinv, hret, hreader, ?_⟩⟩
    · simp [StreamThreads.step, threadWriterStep, h.runs, hbusy, Threads.step, hu, hret, hcount]
    · rw [hstream, ← hrbuf, ← hmem]
      rfl

theorem threadWriter_expands {s : StreamThreads} {t t' : Stream} (hr : 0 < r)
    (h : BetweenTurns s t) (hs : threadWriter recs t = some t') :
    ∃ as s', Machine.run (StreamThreads.step recs) s as = some s' ∧
      Machine.Meets (StreamThreads.step recs) StreamThreads.Coherent s as ∧
      BetweenTurns s' t' := by
  obtain ⟨hinv, hw, hreader, rfl⟩ := h
  unfold threadWriter at hs
  split_ifs at hs with hruns
  obtain ⟨⟨len, rbuf, mem⟩, hcall, hs⟩ := Option.bind_eq_some_iff.mp hs
  cases hs
  have hlen := recs.length_bytes s.next hruns.1
  have hcalled : s.threads.step (.write (recs.bytes s.next) r) =
      some { s.threads with writer := .entry (recs.bytes s.next) r } :=
    if_pos ⟨hw, hr, hlen.ge⟩
  have hfirst : s.step recs (.writer .widx) = some { s with
      threads := { s.threads with writer := .entry (recs.bytes s.next) r } } := by
    have hruns' : s.next < n ∧ s.reader ≠ .truncated := hruns
    simp [StreamThreads.step, threadWriterStep, hruns', hw, hcalled]
  have hok : s.Coherent (.writer .widx) := by
    rw [StreamThreads.Coherent, hw]
    trivial
  have hinv' := threadsInv_step s.threads (.write (recs.bytes s.next) r) _ hinv trivial hcalled
  exact Machine.exists_run_cons hfirst hok (Machine.exists_run_of_variant
    (fun _ => writerTurn_step)
    ⟨hinv', hreader, hruns, trivial, len, ⟨hlen.ge, hcall⟩, rfl⟩)

/-! ## A turn of the reader -/

theorem ringbufferRead_length {tries : Nat} {rbuf rbuf' : Ringbuffer} {mem : Memory}
    {amount len : SizeT} {dest : List UInt8}
    (h : ringbufferRead (tries + 1) rbuf mem amount = some (len, dest, rbuf')) :
    dest.length = len.toNat := by
  rcases ringbufferRead_decide h with ⟨-, -, rfl, rfl⟩ | ⟨-, hcopy, -⟩
  · rfl
  · rw [copyOut_eq_some hcopy, Mirror.load_length]

/-- A reader that is alone does not fail to compare and swap. -/
theorem ReaderLeaves.fails {tries : Nat} {t : Threads} {rbuf : Ringbuffer} {dest : List UInt8}
    (h : ReaderLeaves tries t rbuf dest) : t.reader.fails t.rbuf.widx = 0 := by
  unfold ReaderLeaves at h
  cases hr : t.reader with
  | wrapSwap d temp =>
    rw [hr] at h
    exact if_pos h.2.1.symm
  | _ => rfl

/-- What `thread_reader` does with the bytes does not depend on the calls. -/
theorem stream_threadReaderNext {s s' : StreamThreads} (h : s.stream = s'.stream)
    (a : List UInt8) :
    (threadReaderNext recs s a).stream = (threadReaderNext recs s' a).stream := by
  simp only [StreamThreads.stream, Stream.mk.injEq] at h
  obtain ⟨hrbuf, hmem, hnext, hreader, hreceived, hseqnums, hmissing⟩ := h
  unfold threadReaderNext
  split_ifs <;> simp [StreamThreads.stream, *]

/-- The state after a call of `ringbuffer_read` that leaves `rbuf` has been made at once. -/
def StreamThreads.withRing (s : StreamThreads) (rbuf : Ringbuffer) : StreamThreads :=
  { s with threads := { s.threads with rbuf := rbuf } }

/-- A turn of `thread_reader` in the words of its last step. -/
theorem threadReader_stream {s : StreamThreads} {t : Stream} {tries : Nat}
    (h : threadReader recs (tries + 1) s.stream = some t) :
    s.reader = .reading ∧ ∃ len dest,
      ringbufferRead (tries + 1) s.threads.rbuf s.threads.mem r = some (len, dest, t.rbuf) ∧
      t = (threadReaderNext recs (s.withRing t.rbuf) dest).stream := by
  unfold threadReader at h
  split_ifs at h with hreading
  obtain ⟨⟨len, dest, rbuf⟩, hcall, h⟩ := Option.bind_eq_some_iff.mp h
  have hlen := ringbufferRead_length hcall
  have hzero : dest.length = 0 ↔ len = 0 := by
    rw [hlen]
    exact ⟨fun h0 => BitVec.eq_of_toNat_eq h0, fun h0 => by rw [h0]; rfl⟩
  have hwhole : dest.length = r.toNat ↔ len = r := by
    rw [hlen]
    exact ⟨fun hr => BitVec.eq_of_toNat_eq hr, fun hr => by rw [hr]⟩
  refine ⟨hreading, len, dest, ?_⟩
  unfold threadReaderNext
  simp only [hzero, hwhole, ne_eq]
  simp only [ne_eq] at h
  split_ifs at h ⊢ <;> cases h <;> exact ⟨hcall, rfl⟩

/-- The reader is in the call of a turn that ends in `t`. -/
structure ReaderTurn (recs : Records r n) (tries : Nat) (t : Stream) (s : StreamThreads) :
    Prop where
  inv : ThreadsInv s.threads
  writer : s.threads.writer = .idle
  reading : s.reader = .reading
  leaves : ∃ dest, ReaderLeaves tries s.threads t.rbuf dest ∧
    t = (threadReaderNext recs (s.withRing t.rbuf) dest).stream

/-- The next step of the reader ends the turn or brings its end nearer. -/
theorem readerTurn_step {tries : Nat} {t : Stream} {s : StreamThreads}
    (h : ReaderTurn recs tries t s) :
    ∃ a s', s.step recs a = some s' ∧ s.Coherent a ∧
      (BetweenTurns s' t ∨
        ReaderTurn recs tries t s' ∧ s'.threads.reader.left < s.threads.reader.left) := by
  obtain ⟨dest, hleaves, hstream⟩ := h.leaves
  have hbusy := hleaves.ne_idle
  obtain ⟨u, hu⟩ := readerStep_isSome hbusy .widx
  have hinv := threadsInv_step s.threads (.reader .widx) u h.inv trivial hu
  have hframe := readerStep_frame hu
  have hwriter := hframe.writer.trans h.writer
  cases readerStep_leaves hleaves hu with
  | goesOn hleaves' =>
    have hgo := hleaves'.ne_idle
    have hleft := readerStep_left hu
    rw [hleaves.fails] at hleft
    have hsame : (s.withRing t.rbuf).stream =
        (StreamThreads.withRing { s with threads := u } t.rbuf).stream := by
      simp [StreamThreads.withRing, StreamThreads.stream, hframe.mem]
    refine ⟨.reader .widx, { s with threads := u }, ?_, trivial, .inr ⟨⟨hinv, hwriter, h.reading,
      dest, hleaves', hstream.trans (stream_threadReaderNext hsame dest)⟩, hleft⟩⟩
    simp [StreamThreads.step, threadReaderStep, h.reading, hbusy, Threads.step, hu, hgo]
  | returns hret hdest hrbuf =>
    have hsame : ({ s with threads := u } : StreamThreads).stream =
        (s.withRing t.rbuf).stream := by
      simp [StreamThreads.withRing, StreamThreads.stream, hframe.mem, hrbuf]
    obtain ⟨hthreads, -⟩ := threadReaderNext_threads recs { s with threads := u } dest
    refine ⟨.reader .widx, threadReaderNext recs { s with threads := u } dest, ?_, trivial,
      .inl ⟨hthreads ▸ hinv, by rw [hthreads]; exact hwriter, by rw [hthreads]; exact hret,
        (stream_threadReaderNext hsame dest).trans hstream.symm⟩⟩
    simp [StreamThreads.step, threadReaderStep, h.reading, hbusy, Threads.step, hu, hret, hdest]

theorem threadReader_expands {tries : Nat} {s : StreamThreads} {t t' : Stream} (hr : 0 < r)
    (h : BetweenTurns s t) (hs : threadReader recs (tries + 1) t = some t') :
    ∃ as s', Machine.run (StreamThreads.step recs) s as = some s' ∧
      Machine.Meets (StreamThreads.step recs) StreamThreads.Coherent s as ∧
      BetweenTurns s' t' := by
  obtain ⟨hinv, hw, hreader, rfl⟩ := h
  obtain ⟨hreading, len, dest, hcall, hstream⟩ := threadReader_stream hs
  have hcalled : s.threads.step (.read r) = some { s.threads with reader := .entry r } :=
    if_pos ⟨hreader, hr⟩
  have hfirst : s.step recs (.reader .widx) = some { s with
      threads := { s.threads with reader := .entry r } } := by
    simp [StreamThreads.step, threadReaderStep, hreading, hreader, hcalled]
  have hinv' := threadsInv_step s.threads (.read r) _ hinv trivial hcalled
  have hsame : (s.withRing t'.rbuf).stream = (StreamThreads.withRing
      { s with threads := { s.threads with reader := .entry r } } t'.rbuf).stream := rfl
  exact Machine.exists_run_cons hfirst trivial (Machine.exists_run_of_variant
    (fun _ => readerTurn_step) ⟨hinv', hw, hreading, dest, ⟨len, hcall⟩,
      hstream.trans (stream_threadReaderNext hsame dest)⟩)

/-! ## Runs -/

/-- A turn is a coherent run of single steps. -/
theorem turn_expands (hr : 0 < r) (tries : Nat) (s : StreamThreads) (t : Stream) (turn : Turn)
    (t' : Stream) (h : BetweenTurns s t) (hs : Stream.step recs (tries + 1) t turn = some t') :
    ∃ as s', Machine.run (StreamThreads.step recs) s as = some s' ∧
      Machine.Meets (StreamThreads.step recs) StreamThreads.Coherent s as ∧
      BetweenTurns s' t' := by
  cases turn with
  | writer => exact threadWriter_expands hr h hs
  | reader => exact threadReader_expands hr h hs

/-- **When the stream is lossless, step by step**: in every coherent run of the single steps of the
two threads the records have gone through the ring whole, once and in order, if and only if the
record size divides the ring size or all records fit the ring together. The ring takes less than a
third of the address space, so that no free space computed from loads of different laps comes
around to a part of a record. -/
theorem streamThreads_lossless_iff (recs : Records r n) (size : SizeT) (hr : 0 < r) (hrs : r ≤ size)
    (h3 : 3 * size.toNat < 2 ^ 64) (hn : 0 < n) (mem : Memory) :
    (∀ as s, Machine.Meets (StreamThreads.step recs) StreamThreads.Coherent
        (StreamThreads.init size mem) as →
      Machine.run (StreamThreads.step recs) (StreamThreads.init size mem) as = some s →
      s.Lossless recs) ↔ r.toNat ∣ size.toNat ∨ n * r.toNat ≤ size.toNat := by
  have hr' : 0 < r.toNat := BitVec.lt_def.mp hr
  have hrs' : r.toNat ≤ size.toNat := BitVec.le_def.mp hrs
  have hpos : 0 < size.toNat := by omega
  have hlt : 2 * size.toNat < 2 ^ 64 := by omega
  constructor
  · intro h
    by_contra hroom
    rw [not_or, Nat.not_le] at hroom
    obtain ⟨t, ht, htrunc⟩ := fillThenDrain_truncated recs hr hlt hpos hroom.1 hroom.2 mem 0
    have h0 : BetweenTurns (StreamThreads.init size mem) (Stream.init size mem) :=
      ⟨threadsInv_init size mem hpos hlt, rfl, rfl, rfl⟩
    obtain ⟨as, s, hs, hmeets, hend⟩ := Machine.run_expands (turn_expands hr 0) h0 ht
    have hreader : s.reader = t.reader := congrArg Stream.reader hend.stream
    exact (h as s hmeets hs).not_truncated (hreader.trans htrunc)
  · intro hroom as s hmeets hs
    have hinv := Machine.run_invariant_of_meets (streamStep_inv hr hrs h3 hroom)
      (StreamInv.init recs hpos hlt hn mem) hmeets hs
    exact hinv.lossless

/-- The records of `test_ringbuffer.c` divide its ring of 4096 bytes, so all 262144 of them go
through. -/
theorem streamThreads_lossless_iff_acks :
    (∀ as s, Machine.Meets (StreamThreads.step (acksRecords 262144)) StreamThreads.Coherent
        (StreamThreads.init 4096 fun _ => 0) as →
      Machine.run (StreamThreads.step (acksRecords 262144)) (StreamThreads.init 4096 fun _ => 0)
        as = some s → s.Lossless (acksRecords 262144)) ↔
      16 ∣ 4096 ∨ 262144 * 16 ≤ 4096 :=
  streamThreads_lossless_iff (acksRecords 262144) 4096 (by decide) (by decide) (by decide)
    (by decide) (fun _ => 0)

end Twd
