import Twd.Ringbuffer.Records
import Twd.Ringbuffer.Proofs.QueueProofs

/-!
# When the stream of records is lossless

The writer's retry loop starts a record over after a partial write, so the bytes of the attempt stay
in the ring in front of it. No attempt is partial exactly when the record size divides the ring
size, or when the ring is never full.
-/

namespace Twd

variable {r : SizeT} {n : Nat} {recs : Records r n}

/-- The reader has received the first `m` records, and the ring holds the next `d`, followed by the
bytes `extra` of partial writes. -/
structure Carries (recs : Records r n) (size : SizeT) (s : Stream) (m d : Nat)
    (extra : List UInt8) : Prop where
  holds : Holds s.rbuf s.mem ((List.range' m d).flatMap recs.bytes ++ extra)
  size : s.rbuf.size = size
  le : m + d ≤ n
  received : s.received = (List.range m).map recs.bytes
  reader : s.reader = if m = n then .done else .reading
  seqnums : m < n → s.seqnums = BitVec.ofNat 32 m
  missing : s.missing = false

theorem length_flatMap_bytes (recs : Records r n) (m d : Nat) (h : m + d ≤ n) :
    ((List.range' m d).flatMap recs.bytes).length = d * r.toNat := by
  induction d generalizing m with
  | zero => simp
  | succ d ih =>
    rw [List.range'_succ, List.flatMap_cons, List.length_append, recs.length_bytes m (by omega),
      ih (m + 1) (by omega)]
    ring

theorem flatMap_bytes_concat (recs : Records r n) (m d : Nat) :
    (List.range' m (d + 1)).flatMap recs.bytes =
      (List.range' m d).flatMap recs.bytes ++ recs.bytes (m + d) := by
  rw [List.range'_concat, List.flatMap_append]
  simp

namespace Carries

variable {size : SizeT} {s : Stream} {m d : Nat} {extra : List UInt8}

theorem init (recs : Records r n) (hpos : 0 < size.toNat) (hlt : 2 * size.toNat < 2 ^ 64)
    (hn : 0 < n) (mem : Memory) : Carries recs size (Stream.init size mem) 0 0 [] where
  holds := Holds.init size mem hpos hlt
  size := rfl
  le := hn.le
  received := rfl
  reader := by simp [Stream.init, hn.ne]
  seqnums _ := rfl
  missing := rfl

theorem not_truncated (h : Carries recs size s m d extra) : s.reader ≠ .truncated := by
  rw [h.reader]
  split_ifs <;> simp

/-- What the reader has and what the ring holds, together. -/
theorem lossless (h : Carries recs size s m d []) (hnext : s.next = m + d) :
    Lossless recs s := by
  have hlen : s.received.length = m := by simp [h.received]
  refine ⟨h.not_truncated, h.missing, by rw [hlen]; exact h.received, ?_⟩
  rw [h.holds.used_toNat, h.holds.cells, h.received, hnext, List.append_nil,
    List.range_eq_range', List.range_eq_range', ← List.flatMap_def, ← List.flatMap_append,
    ← List.range'_append]
  simp

/-- A turn of the writer puts the first `len` bytes of its record into the ring. -/
theorem writer (h : Carries recs size s m d []) (hr : 0 < r) (hnext : s.next = m + d)
    (hlt : m + d < n) :
    ∃ s' len, threadWriter recs s = some s' ∧
      len.toNat = min (size.toNat - d * r.toNat) r.toNat ∧
      s'.next = threadWriterNext r n s.next len ∧
      Carries recs size s' m d ((recs.bytes (m + d)).take len.toNat) := by
  have hlen := recs.length_bytes (m + d) hlt
  obtain ⟨len, rbuf, mem, hw, hcount, hsize, hholds⟩ :=
    ringbufferWrite_spec h.holds hr hlen.ge
  rw [List.append_nil, h.size, length_flatMap_bytes recs m d h.le] at hcount
  refine ⟨{ s with rbuf := rbuf, mem := mem, next := threadWriterNext r n s.next len }, len,
    ?_, hcount, rfl, ?_⟩
  · rw [threadWriter, if_pos ⟨hnext ▸ hlt, h.not_truncated⟩, hnext, hw]
    rfl
  · rw [List.append_nil] at hholds
    exact ⟨hholds, hsize.trans h.size, h.le, h.received, h.reader, h.seqnums, h.missing⟩

/-- A whole record in the ring is one record more there. -/
theorem push (h : Carries recs size s m d (recs.bytes (m + d))) (hlt : m + d < n) :
    Carries recs size s m (d + 1) [] := by
  refine ⟨?_, h.size, hlt, h.received, h.reader, h.seqnums, h.missing⟩
  rw [flatMap_bytes_concat, List.append_nil]
  exact h.holds

theorem writer_whole (h : Carries recs size s m d []) (hr : 0 < r) (hnext : s.next = m + d)
    (hlt : m + d < n) (hroom : (d + 1) * r.toNat ≤ size.toNat) :
    ∃ s', threadWriter recs s = some s' ∧ s'.next = m + (d + 1) ∧
      Carries recs size s' m (d + 1) [] := by
  obtain ⟨s', len, hs', hcount, hnext', h'⟩ := h.writer hr hnext hlt
  have hmul : (d + 1) * r.toNat = d * r.toNat + r.toNat := by ring
  have hlen : len = r := BitVec.eq_of_toNat_eq (by omega)
  have hr0 : r ≠ 0#64 := (BitVec.pos_iff_ne_zero r).mp hr
  subst hlen
  refine ⟨s', hs', ?_, push ?_ hlt⟩
  · rw [hnext', hnext, threadWriterNext]
    simp [hr0]
    omega
  · rwa [List.take_of_length_le (recs.length_bytes (m + d) hlt).le] at h'

theorem writer_full (h : Carries recs size s m d []) (hr : 0 < r) (hnext : s.next = m + d)
    (hlt : m + d < n) (hfull : size.toNat ≤ d * r.toNat) :
    ∃ s', threadWriter recs s = some s' ∧ s'.next = m + d ∧ Carries recs size s' m d [] := by
  obtain ⟨s', len, hs', hcount, hnext', h'⟩ := h.writer hr hnext hlt
  have hlen : len = 0#64 := BitVec.eq_of_toNat_eq (by simp; omega)
  have hr0 : ¬ 0#64 = r := ((BitVec.pos_iff_ne_zero r).mp hr).symm
  subst hlen
  refine ⟨s', hs', ?_, by simpa using h'⟩
  rw [hnext', hnext, threadWriterNext]
  simp [hr0]

theorem reader_whole (h : Carries recs size s m (d + 1) extra) (hr : 0 < r) (tries : Nat) :
    ∃ s', threadReader recs (tries + 1) s = some s' ∧ s'.next = s.next ∧
      Carries recs size s' (m + 1) d extra := by
  have hle := h.le
  have hm : m < n := by omega
  have hr0 : r ≠ 0#64 := (BitVec.pos_iff_ne_zero r).mp hr
  have hlenm := recs.length_bytes m hm
  have hitems : (List.range' m (d + 1)).flatMap recs.bytes ++ extra =
      recs.bytes m ++ ((List.range' (m + 1) d).flatMap recs.bytes ++ extra) := by
    rw [List.range'_succ, List.flatMap_cons, List.append_assoc]
  have hholds := h.holds
  rw [hitems] at hholds
  obtain ⟨len, rbuf, hread, hcount, hsize, hholds⟩ := ringbufferRead_spec hholds hr tries
  have hlen : len = r := BitVec.eq_of_toNat_eq (by simp at hcount; omega)
  subst hlen
  rw [← hlenm, List.take_left] at hread
  rw [← hlenm, List.drop_left] at hholds
  have hreading : s.reader = .reading := by rw [h.reader, if_neg (by omega)]
  have hreceived : s.received ++ [recs.bytes m] = (List.range (m + 1)).map recs.bytes := by
    rw [h.received, List.range_succ, List.map_append]
    rfl
  have hflags := recs.flags_bytes m hm
  have hseq := recs.seqnum_bytes m hm
  by_cases hlast : m + 1 = n
  · refine ⟨{ s with rbuf := rbuf, received := s.received ++ [recs.bytes m], reader := .done },
      ?_, rfl, hholds, hsize.trans h.size, by omega, hreceived, by simp [hlast], by omega,
      h.missing⟩
    simp [threadReader, hreading, hread, hr0, hflags, hlast]
  · refine ⟨{ s with
        rbuf := rbuf
        received := s.received ++ [recs.bytes m]
        missing := s.missing || recs.seqnum (recs.bytes m) != s.seqnums
        seqnums := s.seqnums + 1 },
      ?_, rfl, hholds, hsize.trans h.size, by omega, hreceived, by simp [hlast, hreading], ?_, ?_⟩
    · simp [threadReader, hreading, hread, hr0, hflags, hlast]
    · intro _
      simp only [h.seqnums hm]
      exact (BitVec.ofNat_add m 1).symm
    · simp [h.missing, hseq, h.seqnums hm]

theorem reader_empty (h : Carries recs size s m 0 []) (hr : 0 < r) (hm : m < n) (tries : Nat) :
    ∃ s', threadReader recs (tries + 1) s = some s' ∧ s'.next = s.next ∧
      Carries recs size s' m 0 [] := by
  have hholds : Holds s.rbuf s.mem [] := h.holds
  obtain ⟨len, rbuf, hread, hcount, hsize, hholds⟩ := ringbufferRead_spec hholds hr tries
  have hlen : len = 0#64 := BitVec.eq_of_toNat_eq (by simpa using hcount)
  have hreading : s.reader = .reading := by rw [h.reader, if_neg hm.ne]
  subst hlen
  refine ⟨{ s with rbuf := rbuf }, by simp [threadReader, hreading, hread], rfl, ?_⟩
  exact ⟨by simpa using hholds, hsize.trans h.size, h.le, h.received, h.reader, h.seqnums,
    h.missing⟩

/-- A turn of the reader that finds the bytes of a partial write only. -/
theorem reader_partial (h : Carries recs size s m 0 extra) (hr : 0 < r) (hm : m < n)
    (hpos : 0 < extra.length) (hlt : extra.length < r.toNat) (tries : Nat) :
    ∃ s', threadReader recs (tries + 1) s = some s' ∧ s'.reader = .truncated := by
  have hholds : Holds s.rbuf s.mem extra := h.holds
  obtain ⟨len, rbuf, hread, hcount, hsize, hholds⟩ := ringbufferRead_spec hholds hr tries
  have hreading : s.reader = .reading := by rw [h.reader, if_neg hm.ne]
  have hlen0 : len ≠ 0#64 := by
    rintro rfl
    simp at hcount
    omega
  have hlenr : len ≠ r := by
    rintro rfl
    omega
  exact ⟨{ s with rbuf := rbuf, reader := .truncated },
    by simp [threadReader, hreading, hread, hlen0, hlenr], rfl⟩

end Carries

/-- What every state of a lossless run satisfies. -/
def Whole (recs : Records r n) (size : SizeT) (s : Stream) : Prop :=
  ∃ m d, Carries recs size s m d [] ∧ s.next = m + d

/-- Either of the two conditions keeps the free space from being a part of a record. -/
theorem room_or_full {S r n d : Nat} (hroom : r ∣ S ∨ n * r ≤ S) (hd : d < n) :
    (d + 1) * r ≤ S ∨ S ≤ d * r := by
  rcases hroom with ⟨k, rfl⟩ | hfit
  · rcases Nat.lt_or_ge d k with hlt | hge
    · exact .inl (by rw [Nat.mul_comm r]; exact Nat.mul_le_mul_right r hlt)
    · exact .inr (by rw [Nat.mul_comm r]; exact Nat.mul_le_mul_right r hge)
  · exact .inl (le_trans (Nat.mul_le_mul_right r hd) hfit)

theorem step_whole {size : SizeT} (hr : 0 < r)
    (hroom : r.toNat ∣ size.toNat ∨ n * r.toNat ≤ size.toNat) (tries : Nat) (s : Stream) (t : Turn)
    (s' : Stream) (h : Whole recs size s) (hs : Stream.step recs (tries + 1) s t = some s') :
    Whole recs size s' := by
  obtain ⟨m, d, h, hnext⟩ := h
  cases t with
  | writer =>
    have hlt : m + d < n := by
      by_contra hge
      simp [Stream.step, threadWriter, hnext, hge] at hs
    rcases room_or_full hroom (d := d) (by omega) with hroom | hfull
    · obtain ⟨s'', hs'', hnext', h'⟩ := h.writer_whole hr hnext hlt hroom
      cases hs.symm.trans hs''
      exact ⟨m, d + 1, h', hnext'⟩
    · obtain ⟨s'', hs'', hnext', h'⟩ := h.writer_full hr hnext hlt hfull
      cases hs.symm.trans hs''
      exact ⟨m, d, h', hnext'⟩
  | reader =>
    have hle := h.le
    have hlt : m < n := by
      by_contra hge
      have hm : m = n := by omega
      simp [Stream.step, threadReader, h.reader, hm] at hs
    cases d with
    | zero =>
      obtain ⟨s'', hs'', hnext', h'⟩ := h.reader_empty hr hlt tries
      cases hs.symm.trans hs''
      exact ⟨m, 0, h', hnext'.trans hnext⟩
    | succ d =>
      obtain ⟨s'', hs'', hnext', h'⟩ := h.reader_whole hr tries
      cases hs.symm.trans hs''
      exact ⟨m + 1, d, h', by omega⟩

/-- The writer alone, as long as there is room. -/
theorem run_writer {size : SizeT} (hr : 0 < r) (tries : Nat) (k : Nat) :
    ∀ {s : Stream} {m d : Nat}, Carries recs size s m d [] → s.next = m + d → m + d + k ≤ n →
      (d + k) * r.toNat ≤ size.toNat →
      ∃ s', Machine.run (Stream.step recs tries) s (List.replicate k .writer) = some s' ∧
        s'.next = m + (d + k) ∧ Carries recs size s' m (d + k) [] := by
  induction k with
  | zero =>
    intro s m d h hnext _ _
    exact ⟨s, rfl, hnext, h⟩
  | succ k ih =>
    intro s m d h hnext hle hroom
    have hfirst : (d + 1) * r.toNat ≤ size.toNat :=
      le_trans (Nat.mul_le_mul_right _ (by omega)) hroom
    obtain ⟨s1, hs1, hnext1, h1⟩ := h.writer_whole hr hnext (by omega) hfirst
    obtain ⟨s2, hs2, hnext2, h2⟩ := ih h1 (by omega) (by omega)
      (by rwa [show d + 1 + k = d + (k + 1) by omega])
    refine ⟨s2, ?_, by omega, by rwa [show d + (k + 1) = d + 1 + k by omega]⟩
    rw [List.replicate_succ, Machine.run_cons]
    simp only [Stream.step, hs1, Option.bind_some]
    exact hs2

/-- The reader alone, as long as there are whole records. -/
theorem run_reader {size : SizeT} (hr : 0 < r) (tries : Nat) {extra : List UInt8} (k : Nat) :
    ∀ {s : Stream} {m : Nat}, Carries recs size s m k extra →
      ∃ s', Machine.run (Stream.step recs (tries + 1)) s (List.replicate k .reader) = some s' ∧
        Carries recs size s' (m + k) 0 extra := by
  induction k with
  | zero =>
    intro s m h
    exact ⟨s, rfl, h⟩
  | succ k ih =>
    intro s m h
    obtain ⟨s1, hs1, -, h1⟩ := h.reader_whole hr tries
    obtain ⟨s2, hs2, h2⟩ := ih h1
    refine ⟨s2, ?_, by rwa [show m + (k + 1) = m + 1 + k by omega]⟩
    rw [List.replicate_succ, Machine.run_cons]
    simp only [Stream.step, hs1, Option.bind_some]
    exact hs2

/-- The turns after which the reader exits: the writer fills the ring, its last write there being
partial, and then the reader empties it. -/
def fillThenDrain (size r : SizeT) : List Turn :=
  List.replicate (size.toNat / r.toNat) .writer ++
    (.writer :: (List.replicate (size.toNat / r.toNat) .reader ++ [.reader]))

theorem fillThenDrain_truncated (recs : Records r n) {size : SizeT} (hr : 0 < r)
    (hlt : 2 * size.toNat < 2 ^ 64) (hpos : 0 < size.toNat) (hdvd : ¬ r.toNat ∣ size.toNat)
    (hfit : size.toNat < n * r.toNat) (mem : Memory) (tries : Nat) :
    ∃ s, Machine.run (Stream.step recs (tries + 1)) (Stream.init size mem)
      (fillThenDrain size r) = some s ∧ s.reader = .truncated := by
  have hr' : 0 < r.toNat := BitVec.lt_def.mp hr
  set q := size.toNat / r.toNat with hq
  have hdiv : r.toNat * q + size.toNat % r.toNat = size.toNat := Nat.div_add_mod ..
  have hcomm : r.toNat * q = q * r.toNat := Nat.mul_comm ..
  have hmod : size.toNat % r.toNat < r.toNat := Nat.mod_lt _ hr'
  have hmod0 : 0 < size.toNat % r.toNat :=
    Nat.pos_of_ne_zero fun h => hdvd (Nat.dvd_of_mod_eq_zero h)
  have hqn : q < n := by
    by_contra hge
    have := Nat.mul_le_mul_right r.toNat (Nat.le_of_not_lt hge)
    omega
  -- the records that fit
  obtain ⟨s1, hs1, hnext1, h1⟩ := run_writer hr (tries + 1) q
    (Carries.init recs hpos hlt (Nat.zero_lt_of_lt hqn) mem) rfl (by omega)
    (by rw [Nat.zero_add]; omega)
  rw [Nat.zero_add] at hnext1 h1
  -- the partial write
  obtain ⟨s2, len, hs2, hcount, -, h2⟩ := h1.writer hr hnext1 (by omega)
  have hlen : ((recs.bytes (0 + q)).take len.toNat).length = size.toNat % r.toNat := by
    rw [List.length_take, recs.length_bytes _ (by omega)]
    omega
  -- the reader
  obtain ⟨s3, hs3, h3⟩ := run_reader hr tries q h2
  obtain ⟨s4, hs4, htrunc⟩ := h3.reader_partial hr (by omega) (by omega) (by omega) tries
  refine ⟨s4, Machine.run_trans hs1 ?_, htrunc⟩
  rw [Machine.run_cons]
  simp only [Stream.step, hs2, Option.bind_some]
  refine Machine.run_trans hs3 ?_
  simp [Stream.step, hs4]

theorem threadWriter_enabled (recs : Records r n) {s : Stream} {items : List UInt8} (hr : 0 < r)
    (h : Holds s.rbuf s.mem items) (hlt : s.next < n) (ht : s.reader ≠ .truncated) :
    ∃ s' items', threadWriter recs s = some s' ∧ Holds s'.rbuf s'.mem items' := by
  obtain ⟨len, rbuf, mem, hw, -, -, hholds⟩ :=
    ringbufferWrite_spec h hr (recs.length_bytes _ hlt).ge
  rw [threadWriter, if_pos ⟨hlt, ht⟩, hw]
  exact ⟨_, _, rfl, hholds⟩

theorem threadReader_enabled (recs : Records r n) {s : Stream} {items : List UInt8} (hr : 0 < r)
    (h : Holds s.rbuf s.mem items) (hreading : s.reader = .reading) (tries : Nat) :
    ∃ s' items', threadReader recs (tries + 1) s = some s' ∧ Holds s'.rbuf s'.mem items' := by
  obtain ⟨len, rbuf, hread, -, -, hholds⟩ := ringbufferRead_spec h hr tries
  simp only [threadReader, hreading, if_true, hread, Option.bind_eq_bind, Option.bind_some]
  split_ifs <;> exact ⟨_, _, rfl, hholds⟩

theorem step_holds (hr : 0 < r) (tries : Nat) (s : Stream) (t : Turn) (s' : Stream)
    (h : ∃ items, Holds s.rbuf s.mem items)
    (hs : Stream.step recs (tries + 1) s t = some s') : ∃ items, Holds s'.rbuf s'.mem items := by
  obtain ⟨items, h⟩ := h
  cases t with
  | writer =>
    have hturn : s.next < n ∧ s.reader ≠ .truncated := by
      by_contra hno
      simp [Stream.step, threadWriter, hno] at hs
    obtain ⟨s'', items', hs'', h'⟩ := threadWriter_enabled recs hr h hturn.1 hturn.2
    cases hs.symm.trans hs''
    exact ⟨items', h'⟩
  | reader =>
    have hturn : s.reader = .reading := by
      by_contra hno
      simp [Stream.step, threadReader, hno] at hs
    obtain ⟨s'', items', hs'', h'⟩ := threadReader_enabled recs hr h hturn tries
    cases hs.symm.trans hs''
    exact ⟨items', h'⟩

/-- Whatever happens to the records, no turn of a thread that still runs leaves the mapping or
loops. -/
theorem stream_never_stuck (recs : Records r n) (size : SizeT) (hr : 0 < r) (hrs : r ≤ size)
    (hlt : 2 * size.toNat < 2 ^ 64) (mem : Memory) (tries : Nat) (turns : List Turn) (s : Stream)
    (hs : Machine.run (Stream.step recs (tries + 1)) (Stream.init size mem) turns = some s) :
    (s.next < n → s.reader ≠ .truncated → (Stream.step recs (tries + 1) s .writer).isSome) ∧
      (s.reader = .reading → (Stream.step recs (tries + 1) s .reader).isSome) := by
  have hr' : 0 < r.toNat := BitVec.lt_def.mp hr
  have hrs' : r.toNat ≤ size.toNat := BitVec.le_def.mp hrs
  have h0 : ∃ items, Holds (Stream.init size mem).rbuf (Stream.init size mem).mem items :=
    ⟨[], Holds.init size mem (by omega) hlt⟩
  obtain ⟨items, h⟩ := Machine.run_invariant (step_holds hr tries) h0 hs
  constructor
  · intro hn ht
    obtain ⟨s', -, hs', -⟩ := threadWriter_enabled recs hr h hn ht
    simp [Stream.step, hs']
  · intro hreading
    obtain ⟨s', -, hs', -⟩ := threadReader_enabled recs hr h hreading tries
    simp [Stream.step, hs']

/-- **When the stream is lossless**: in every order of turns the reader has received exactly the
records written so far, if and only if the record size divides the ring size or all records fit the
ring together. -/
theorem stream_lossless_iff (recs : Records r n) (size : SizeT) (hr : 0 < r) (hrs : r ≤ size)
    (hlt : 2 * size.toNat < 2 ^ 64) (hn : 0 < n) (mem : Memory) (tries : Nat) :
    (∀ turns s, Machine.run (Stream.step recs (tries + 1)) (Stream.init size mem) turns = some s →
      Lossless recs s) ↔ r.toNat ∣ size.toNat ∨ n * r.toNat ≤ size.toNat := by
  have hr' : 0 < r.toNat := BitVec.lt_def.mp hr
  have hrs' : r.toNat ≤ size.toNat := BitVec.le_def.mp hrs
  have hpos : 0 < size.toNat := by omega
  constructor
  · intro h
    by_contra hroom
    rw [not_or, Nat.not_le] at hroom
    obtain ⟨s, hs, htrunc⟩ := fillThenDrain_truncated recs hr hlt hpos hroom.1 hroom.2
      mem tries
    exact (h _ s hs).not_truncated htrunc
  · intro hroom turns s hs
    have h0 : Whole recs size (Stream.init size mem) :=
      ⟨0, 0, Carries.init recs hpos hlt hn mem, rfl⟩
    obtain ⟨m, d, h, hnext⟩ := Machine.run_invariant (step_whole hr hroom tries) h0 hs
    exact h.lossless hnext

/-- 341 of the 12-byte records of `test_simple.c` fit the ring of 4096 bytes. -/
theorem stream_lossless_iff_wire_acks :
    (∀ turns s, Machine.run (Stream.step (wireAcksRecords 341) 1) (Stream.init 4096 fun _ => 0)
      turns = some s → Lossless (wireAcksRecords 341) s) ↔ 12 ∣ 4096 ∨ 341 * 12 ≤ 4096 :=
  stream_lossless_iff (wireAcksRecords 341) 4096 (by decide) (by decide) (by decide) (by decide)
    (fun _ => 0) 0

/-- A thousand of them do not, and the 342nd is written in part. -/
theorem stream_not_lossless :
    ¬ ∀ turns s, Machine.run (Stream.step (wireAcksRecords 1000) 1) (Stream.init 4096 fun _ => 0)
      turns = some s → Lossless (wireAcksRecords 1000) s := by
  intro h
  obtain ⟨s, hs, htrunc⟩ := fillThenDrain_truncated (wireAcksRecords 1000)
    (show 0 < (12 : SizeT) by decide) (show 2 * (4096 : SizeT).toNat < 2 ^ 64 by decide)
    (by decide) (by decide) (by decide) (fun _ => 0) 0
  exact (h _ s hs).not_truncated htrunc

end Twd
