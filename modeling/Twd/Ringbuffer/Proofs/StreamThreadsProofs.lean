import Twd.Ringbuffer.StreamThreads
import Twd.Ringbuffer.Proofs.RecordsProofs
import Twd.Ringbuffer.Proofs.ThreadsSafetyProofs
import Twd.Ringbuffer.Proofs.WholeProofs

/-!
# The stream of records, step by step: no record is taken apart

Every count that a call returns is the size of a record or zero, whatever the order of the steps:
the writer because of what it can have loaded, the reader because nothing but whole records has been
added. With the invariant of coherent runs the records then arrive whole, once and in order.
-/

namespace Twd

variable {r size : SizeT} {n : Nat} {recs : Records r n}

/-- What the writer's call for record `next` has in hand. -/
def WriterWhole (recs : Records r n) (next : Nat) (size : SizeT) : Writer → Prop
  | .idle => True
  | .entry src amount => src = recs.bytes next ∧ amount = r
  | .gotWidx src amount _ => src = recs.bytes next ∧ amount = r
  | .gotRidx src amount ridx => src = recs.bytes next ∧ amount = r ∧
      ridx.toNat ≤ 2 * size.toNat ∧ (r.toNat ∣ size.toNat → r.toNat ∣ ridx.toNat)
  | .address src amount len => src = recs.bytes next ∧ amount = r ∧ len = r
  | .copy src len _ => src = recs.bytes next ∧ len = r
  | .publish src len _ => src = recs.bytes next ∧ len = r

/-- What the reader's call has in hand. -/
def ReaderWhole (r size : SizeT) (swaps : Nat) : Reader → Prop
  | .idle => True
  | .entry amount => amount = r
  | .gotWidx amount w => amount = r ∧ r.toNat ∣ w.toNat + size.toNat * swaps
  | .gotRidx amount _ => amount = r
  | .address len => len = r
  | .copy len _ => len = r
  | .bumpLoad len dest => len = r ∧ dest.length = r.toNat
  | .bumpStore len dest _ => len = r ∧ dest.length = r.toNat
  | .check dest | .wrapLoad dest | .wrapSwap dest _ | .subLoad dest | .subStore dest _ =>
      dest.length = r.toNat

/-! ## The counts -/

/-- The free space that the writer computes from any two loads is nothing or room for a record. -/
theorem minSizeT_free {w ridx : SizeT} (hrs : r ≤ size) (h3 : 3 * size.toNat < 2 ^ 64)
    (hridx : ridx.toNat ≤ 2 * size.toNat)
    (h : (r.toNat ∣ size.toNat ∧ r.toNat ∣ w.toNat ∧ r.toNat ∣ ridx.toNat) ∨
      w.toNat + r.toNat ≤ size.toNat) :
    minSizeT (size - (w - ridx)) r = 0 ∨ minSizeT (size - (w - ridx)) r = r := by
  have hrs' : r.toNat ≤ size.toNat := BitVec.le_def.mp hrs
  have hmin : min (size - (w - ridx)).toNat r.toNat = 0 ∨
      min (size - (w - ridx)).toNat r.toNat = r.toNat := by
    by_cases hle : ridx.toNat ≤ w.toNat
    · by_cases hin : w.toNat ≤ ridx.toNat + size.toNat
      · rw [toNat_free hle hin]
        rcases h with ⟨hsize, hw, hr⟩ | hroom
        · exact min_eq_zero_or (Nat.dvd_sub hsize (Nat.dvd_sub hw hr))
        · exact .inr (Nat.min_eq_right (by omega))
      · -- `used` is more than `size`, so the difference wraps to a large number
        refine .inr (Nat.min_eq_right ?_)
        bv_omega
    · -- `used` wraps, and `size` less `used` wraps back
      refine .inr (Nat.min_eq_right ?_)
      bv_omega
  rcases hmin with h0 | hr
  · exact .inl (BitVec.eq_of_toNat_eq (by rw [toNat_minSizeT, h0]; rfl))
  · exact .inr (BitVec.eq_of_toNat_eq (by rw [toNat_minSizeT, hr]))

theorem Writer.decide_whole {src : List UInt8} {used : SizeT} (hr : 0 < r)
    (h : minSizeT (size - used) r = 0 ∨ minSizeT (size - used) r = r) :
    Writer.decide size src r used = .idle ∨ Writer.decide size src r used = .address src r r := by
  simp only [Writer.decide]
  rcases h with h | h
  · rw [h]
    exact .inl (if_neg (by simp))
  · rw [h]
    exact .inr (if_pos hr)

theorem Reader.decide_whole {used : SizeT} (h : r.toNat ∣ used.toNat) :
    Reader.decide r used = .idle ∨ Reader.decide r used = .address r := by
  unfold Reader.decide
  split_ifs with hused
  · have hle : r.toNat ≤ used.toNat := Nat.le_of_dvd (BitVec.lt_def.mp hused) h
    have hlen : minSizeT used r = r :=
      BitVec.eq_of_toNat_eq (by rw [toNat_minSizeT, Nat.min_eq_right hle])
    exact .inr (by rw [hlen])
  · exact .inl rfl

/-! ## The writer -/

/-- What a step of the writer's call for record `next` has done to the bytes added: nothing yet,
nothing at all, or the whole record. -/
structure WriterStepped (recs : Records r n) (next : Nat) (t t' : Threads) : Prop where
  whole : WriterWhole recs next t'.rbuf.size t'.writer
  added : (t'.writer ≠ .idle ∧ t'.hist.sent = t.hist.sent) ∨
    (t'.writer = .idle ∧ t.writer.count = 0 ∧ t'.hist.sent = t.hist.sent) ∨
    (t'.writer = .idle ∧ t.writer.count = r ∧
      t'.hist.sent.map Prod.snd = t.hist.sent.map Prod.snd ++ recs.bytes next)

/-- The writer has the last load of `widx - ridx`. -/
theorem writerStepped_decide {t : Threads} {next : Nat} {w ridx : SizeT} {hist : History}
    (hr : 0 < r) (hrs : r ≤ t.rbuf.size) (h3 : 3 * t.rbuf.size.toNat < 2 ^ 64)
    (hcount : t.writer.count = 0) (hsent : hist.sent = t.hist.sent)
    (hridx : ridx.toNat ≤ 2 * t.rbuf.size.toNat)
    (hfree : (r.toNat ∣ t.rbuf.size.toNat ∧ r.toNat ∣ w.toNat ∧ r.toNat ∣ ridx.toNat) ∨
      w.toNat + r.toNat ≤ t.rbuf.size.toNat) :
    WriterStepped recs next t { t with
      writer := .decide t.rbuf.size (recs.bytes next) r (w - ridx)
      hist := hist } := by
  have hfit := minSizeT_free hrs h3 hridx hfree
  have hcases : Writer.decide t.rbuf.size (recs.bytes next) r (w - ridx) = .idle ∨
      Writer.decide t.rbuf.size (recs.bytes next) r (w - ridx) =
        .address (recs.bytes next) r r := Writer.decide_whole hr hfit
  rcases hcases with hd | hd
  · rw [hd]
    exact ⟨trivial, .inr (.inl ⟨rfl, hcount, hsent⟩)⟩
  · rw [hd]
    exact ⟨⟨rfl, rfl, rfl⟩, .inl ⟨by simp, hsent⟩⟩

/-- A `widx` is a multiple of the record size, or else the ring never fills. -/
theorem free_of_sent {next sent laps : Nat} {w ridx : SizeT} (hnext : next < n)
    (hroom : r.toNat ∣ size.toNat ∨ n * r.toNat ≤ size.toNat) (hsent : sent = next * r.toNat)
    (hw : w.toNat + size.toNat * laps = sent)
    (hridx : r.toNat ∣ size.toNat → r.toNat ∣ ridx.toNat) :
    (r.toNat ∣ size.toNat ∧ r.toNat ∣ w.toNat ∧ r.toNat ∣ ridx.toNat) ∨
      w.toNat + r.toNat ≤ size.toNat := by
  rcases hroom with hdvd | hfit
  · have hsum : r.toNat ∣ w.toNat + size.toNat * laps := by
      rw [hw, hsent]
      exact Nat.dvd_mul_left _ _
    exact .inl ⟨hdvd, (Nat.dvd_add_left (Dvd.dvd.mul_right hdvd laps)).mp hsum, hridx hdvd⟩
  · have hmul := Nat.mul_le_mul_right r.toNat (Nat.succ_le_of_lt hnext)
    rw [Nat.succ_mul] at hmul
    exact .inr (by omega)

/-- `ridx` is a multiple of the record size if the ring size is. -/
theorem dvd_ridx {t : Threads} (h : ThreadsInv t) (hconsumed : r.toNat ∣ t.hist.consumed)
    (hdvd : r.toNat ∣ t.rbuf.size.toNat) : r.toNat ∣ t.rbuf.ridx.toNat := by
  have hsum : r.toNat ∣ t.rbuf.ridx.toNat + t.rbuf.size.toNat * t.hist.subs := by
    rw [h.core.ridx_eq]
    exact hconsumed
  exact (Nat.dvd_add_left (Dvd.dvd.mul_right hdvd _)).mp hsum

/-- A step of the writer's call. -/
theorem writerStep_whole {t t' : Threads} {first : Index} {next : Nat} (h : ThreadsInv t)
    (hr : 0 < r) (hrs : r ≤ t.rbuf.size) (h3 : 3 * t.rbuf.size.toNat < 2 ^ 64) (hnext : next < n)
    (hroom : r.toNat ∣ t.rbuf.size.toNat ∨ n * r.toNat ≤ t.rbuf.size.toNat)
    (hsent : t.hist.sent.length = next * r.toNat) (hconsumed : r.toNat ∣ t.hist.consumed)
    (hwhole : WriterWhole recs next t.rbuf.size t.writer) (hs : writerStep t first = some t') :
    WriterStepped recs next t t' := by
  have hinv := h.writer
  have hridx := dvd_ridx h hconsumed
  have hridx2 := h.reader.laps.1
  unfold writerStep at hs
  unfold WriterInv at hinv
  cases hw : t.writer with
  | idle => simp [hw] at hs
  | entry src amount =>
    rw [hw] at hs hwhole
    cases first with
    | widx =>
      cases hs
      exact ⟨hwhole, .inl ⟨by simp, rfl⟩⟩
    | ridx =>
      cases hs
      exact ⟨⟨hwhole.1, hwhole.2, hridx2, hridx⟩, .inl ⟨by simp, rfl⟩⟩
  | gotWidx src amount w =>
    rw [hw] at hs hwhole hinv
    obtain ⟨rfl, rfl⟩ := hwhole
    cases hs
    exact writerStepped_decide hr hrs h3 (by rw [hw]; rfl) rfl hridx2
      (free_of_sent hnext hroom hsent hinv.2 hridx)
  | gotRidx src amount ridx =>
    rw [hw] at hs hwhole
    obtain ⟨rfl, rfl, hold2, hold⟩ := hwhole
    cases hs
    exact writerStepped_decide hr hrs h3 (by rw [hw]; rfl) rfl hold2
      (free_of_sent hnext hroom hsent h.core.widx_eq hold)
  | address src amount len =>
    rw [hw] at hs hwhole
    cases hs
    exact ⟨⟨hwhole.1, hwhole.2.2⟩, .inl ⟨by simp, rfl⟩⟩
  | copy src len off =>
    rw [hw] at hs hwhole
    cases hs
    exact ⟨hwhole, .inl ⟨by simp, rfl⟩⟩
  | publish src len off =>
    rw [hw] at hs hwhole
    obtain ⟨rfl, rfl⟩ := hwhole
    cases hs
    refine ⟨trivial, .inr (.inr ⟨rfl, by rw [hw]; rfl, ?_⟩)⟩
    rw [List.map_append, sentBytes_snd, List.take_of_length_le (recs.length_bytes next hnext).le]

/-! ## The reader -/

/-- What a step of the reader's call has done to the bytes returned: nothing yet, nothing at all, or
a whole record. -/
structure ReaderStepped (r : SizeT) (t t' : Threads) : Prop where
  whole : ReaderWhole r t'.rbuf.size t'.hist.swaps t'.reader
  consumed : r.toNat ∣ t'.hist.consumed
  got : (t'.reader ≠ .idle ∧ t'.hist.got = t.hist.got) ∨
    (t'.reader = .idle ∧ t.reader.dest = [] ∧ t'.hist.got = t.hist.got) ∨
    (t'.reader = .idle ∧ t.reader.dest.length = r.toNat ∧
      t'.hist.got = t.hist.got ++ t.reader.dest)

/-- The reader has the last load of `widx - ridx`. -/
theorem readerStepped_decide {t : Threads} {used : SizeT} (hconsumed : r.toNat ∣ t.hist.consumed)
    (hdest : t.reader.dest = []) (hused : r.toNat ∣ used.toNat) :
    ReaderStepped r t { t with reader := .decide r used } := by
  rcases Reader.decide_whole hused with hd | hd
  · rw [hd]
    exact ⟨trivial, hconsumed, .inr (.inl ⟨rfl, hdest, rfl⟩)⟩
  · rw [hd]
    exact ⟨rfl, hconsumed, .inl ⟨by simp, rfl⟩⟩

/-- Whole records have been added, so the reader computes whole records. -/
theorem dvd_used {t : Threads} (h : ThreadsInv t) (hrest : AtRest t)
    (hconsumed : r.toNat ∣ t.hist.consumed) {w : SizeT}
    (hle : t.hist.consumed ≤ w.toNat + t.rbuf.size.toNat * t.hist.swaps)
    (hw : r.toNat ∣ w.toNat + t.rbuf.size.toNat * t.hist.swaps) :
    r.toNat ∣ (w - t.rbuf.ridx).toNat := by
  have hridx := h.core.ridx_eq
  rw [hrest.laps] at hle hw
  have hsub : (w - t.rbuf.ridx).toNat = w.toNat - t.rbuf.ridx.toNat :=
    BitVec.toNat_sub_of_le (by rw [BitVec.le_def]; omega)
  have hused : (w - t.rbuf.ridx).toNat =
      w.toNat + t.rbuf.size.toNat * t.hist.subs - t.hist.consumed := by omega
  rw [hused]
  exact Nat.dvd_sub hw hconsumed

/-- A step of the reader's call. -/
theorem readerStep_whole {t t' : Threads} {first : Index} (h : ThreadsInv t)
    (hsent : r.toNat ∣ t.hist.sent.length) (hconsumed : r.toNat ∣ t.hist.consumed)
    (hwhole : ReaderWhole r t.rbuf.size t.hist.swaps t.reader)
    (hs : readerStep t first = some t') : ReaderStepped r t t' := by
  have hinv := h.reader
  have hwidx := h.core.widx_eq
  have hle := h.core.consumed_le
  unfold readerStep at hs
  unfold ReaderInv at hinv
  cases hr : t.reader with
  | idle => simp [hr] at hs
  | entry amount =>
    rw [hr] at hs hwhole
    cases first with
    | widx =>
      cases hs
      exact ⟨⟨hwhole, hwidx ▸ hsent⟩, hconsumed, .inl ⟨by simp, rfl⟩⟩
    | ridx =>
      cases hs
      exact ⟨hwhole, hconsumed, .inl ⟨by simp, rfl⟩⟩
  | gotWidx amount w =>
    rw [hr] at hs hwhole hinv
    obtain ⟨rfl, hw⟩ := hwhole
    cases hs
    exact readerStepped_decide hconsumed (by rw [hr]; rfl)
      (dvd_used h hinv.1 hconsumed hinv.2.1 hw)
  | gotRidx amount ridx =>
    rw [hr] at hs hwhole hinv
    obtain ⟨hrest, rfl⟩ := hinv
    obtain rfl : amount = r := hwhole
    cases hs
    exact readerStepped_decide hconsumed (by rw [hr]; rfl)
      (dvd_used h hrest hconsumed (hwidx ▸ hle) (hwidx ▸ hsent))
  | address len | bumpLoad len dest =>
    rw [hr] at hs hwhole
    cases hs
    exact ⟨hwhole, hconsumed, .inl ⟨by simp, rfl⟩⟩
  | copy len off =>
    rw [hr] at hs hwhole
    obtain rfl : len = r := hwhole
    cases hs
    exact ⟨⟨rfl, Mirror.load_length _ _⟩, hconsumed, .inl ⟨by simp, rfl⟩⟩
  | bumpStore len dest ridx =>
    rw [hr] at hs hwhole
    obtain ⟨rfl, hdest⟩ := hwhole
    cases hs
    exact ⟨hdest, Nat.dvd_add hconsumed (Nat.dvd_refl _), .inl ⟨by simp, rfl⟩⟩
  | check dest =>
    rw [hr] at hs hwhole
    simp only at hs
    split_ifs at hs
    · cases hs
      exact ⟨hwhole, hconsumed, .inl ⟨by simp, rfl⟩⟩
    · cases hs
      exact ⟨trivial, hconsumed, .inr (.inr ⟨rfl, by rw [hr]; exact hwhole, by rw [hr]; rfl⟩)⟩
  | wrapLoad dest | subLoad dest =>
    rw [hr] at hs hwhole
    cases hs
    exact ⟨hwhole, hconsumed, .inl ⟨by simp, rfl⟩⟩
  | wrapSwap dest temp =>
    rw [hr] at hs hwhole
    simp only at hs
    split_ifs at hs
    · cases hs
      exact ⟨hwhole, hconsumed, .inl ⟨by simp, rfl⟩⟩
    · cases hs
      exact ⟨hwhole, hconsumed, .inl ⟨by simp, rfl⟩⟩
  | subStore dest ridx =>
    rw [hr] at hs hwhole
    cases hs
    exact ⟨trivial, hconsumed, .inr (.inr ⟨rfl, by rw [hr]; exact hwhole, by rw [hr]; rfl⟩)⟩

/-! ## Runs -/

/-- The reader has received the first `m` records. -/
structure HasReceived (recs : Records r n) (s : StreamThreads) (m : Nat) : Prop where
  le : m ≤ n
  received : s.received = (List.range m).map recs.bytes
  got : s.threads.hist.got = (List.range m).flatMap recs.bytes
  reader : s.reader = if m = n then .done else .reading
  seqnums : m < n → s.seqnums = BitVec.ofNat 32 m
  missing : s.missing = false

/-- The invariant of a coherent run. -/
structure StreamInv (recs : Records r n) (size : SizeT) (s : StreamThreads) : Prop where
  threads : ThreadsInv s.threads
  size_eq : s.threads.rbuf.size = size
  next_le : s.next ≤ n
  sent : s.threads.hist.sent.map Prod.snd = (List.range s.next).flatMap recs.bytes
  consumed : r.toNat ∣ s.threads.hist.consumed
  writer : WriterWhole recs s.next size s.threads.writer
  reader : ReaderWhole r size s.threads.hist.swaps s.threads.reader
  hasReceived : ∃ m, HasReceived recs s m

theorem length_flatMap_range (recs : Records r n) {m : Nat} (h : m ≤ n) :
    ((List.range m).flatMap recs.bytes).length = m * r.toNat := by
  rw [List.range_eq_range', length_flatMap_bytes recs 0 m (by omega)]

theorem flatMap_range_succ (recs : Records r n) (m : Nat) :
    (List.range (m + 1)).flatMap recs.bytes =
      (List.range m).flatMap recs.bytes ++ recs.bytes m := by
  rw [List.range_succ, List.flatMap_append]
  simp

/-- After `m` records, the next `r` bytes of a stream of records are the next record. -/
theorem next_record {m k : Nat} {dest : List UInt8} (hr : 0 < r) (hm : m ≤ n) (hk : k ≤ n)
    (hdest : dest.length = r.toNat)
    (h : (List.range m).flatMap recs.bytes ++ dest <+: (List.range k).flatMap recs.bytes) :
    m < k ∧ dest = recs.bytes m := by
  have hr' : 0 < r.toNat := BitVec.lt_def.mp hr
  have hlen := h.length_le
  rw [List.length_append, length_flatMap_range recs hm, length_flatMap_range recs hk, hdest,
    ← Nat.succ_mul] at hlen
  have hlt : m < k := Nat.le_of_mul_le_mul_right hlen hr'
  refine ⟨hlt, ?_⟩
  have hfirst : (List.range (m + 1)).flatMap recs.bytes <+: (List.range k).flatMap recs.bytes := by
    obtain ⟨d, rfl⟩ := Nat.exists_eq_add_of_le hlt
    rw [List.range_add (n := m + 1) (m := d), List.flatMap_append]
    exact List.prefix_append ..
  rw [flatMap_range_succ] at hfirst
  have hsame : ((List.range m).flatMap recs.bytes ++ dest).length =
      ((List.range m).flatMap recs.bytes ++ recs.bytes m).length := by
    rw [List.length_append, List.length_append, hdest, recs.length_bytes m (by omega)]
  exact List.append_cancel_left ((List.prefix_of_prefix_length_le h hfirst hsame.le).eq_of_length
    hsame)

theorem StreamInv.init (recs : Records r n) (hpos : 0 < size.toNat) (hlt : 2 * size.toNat < 2 ^ 64)
    (hn : 0 < n) (mem : Memory) : StreamInv recs size (StreamThreads.init size mem) where
  threads := threadsInv_init size mem hpos hlt
  size_eq := rfl
  next_le := Nat.zero_le n
  sent := rfl
  consumed := Nat.dvd_zero _
  writer := trivial
  reader := trivial
  hasReceived := ⟨0, Nat.zero_le n, rfl, rfl, by simp [StreamThreads.init, hn.ne], fun _ => rfl, rfl⟩

namespace StreamInv

variable {s : StreamThreads}

theorem length_sent (h : StreamInv recs size s) :
    s.threads.hist.sent.length = s.next * r.toNat := by
  rw [← List.length_map Prod.snd, h.sent, length_flatMap_range recs h.next_le]

/-- A step of the writer changes nothing but `threads` and `next`. -/
theorem of_writer (h : StreamInv recs size s) {t : Threads} {next : Nat} (ht : ThreadsInv t)
    (hf : WriterFrame s.threads t) (hnext : next ≤ n)
    (hsent : t.hist.sent.map Prod.snd = (List.range next).flatMap recs.bytes)
    (hwhole : WriterWhole recs next size t.writer) :
    StreamInv recs size { s with threads := t, next := next } := by
  obtain ⟨m, hm⟩ := h.hasReceived
  refine ⟨ht, hf.size.trans h.size_eq, hnext, hsent, hf.consumed ▸ h.consumed, hwhole, ?_, m, hm.le,
    hm.received, hf.got.trans hm.got, hm.reader, hm.seqnums, hm.missing⟩
  simp only [hf.reader, hf.swaps]
  exact h.reader

theorem not_truncated (h : StreamInv recs size s) : s.reader ≠ .truncated := by
  obtain ⟨m, hm⟩ := h.hasReceived
  rw [hm.reader]
  split_ifs <;> simp

end StreamInv

/-- A call that has added nothing is made again. -/
theorem threadWriterNext_zero (hr : 0 < r) (i : Nat) : threadWriterNext r n i 0 = i := by
  have hr0 : ¬ 0#64 = r := ((BitVec.pos_iff_ne_zero r).mp hr).symm
  simp [threadWriterNext, hr0]

/-- A record that has been added whole is done. -/
theorem threadWriterNext_whole (hr : 0 < r) (i : Nat) : threadWriterNext r n i r = i + 1 := by
  have hr0 : r ≠ 0#64 := (BitVec.pos_iff_ne_zero r).mp hr
  simp [threadWriterNext, hr0]

/-- A step of `thread_writer`. -/
theorem threadWriterStep_inv {s s' : StreamThreads} {first : Index} (hr : 0 < r) (hrs : r ≤ size)
    (h3 : 3 * size.toNat < 2 ^ 64) (hroom : r.toNat ∣ size.toNat ∨ n * r.toNat ≤ size.toNat)
    (h : StreamInv recs size s) (hok : s.threads.CoherentAt s.threads.writer)
    (hs : threadWriterStep recs s first = some s') : StreamInv recs size s' := by
  have hsize := h.size_eq
  unfold threadWriterStep at hs
  split_ifs at hs with hturn hidle
  · obtain ⟨t, ht, hs⟩ := Option.bind_eq_some_iff.mp hs
    cases hs
    have hinv := threadsInv_step s.threads (.write (recs.bytes s.next) r) t h.threads trivial ht
    rw [Threads.step] at ht
    split_ifs at ht
    cases ht
    exact h.of_writer hinv ⟨rfl, rfl, rfl, rfl, rfl, rfl, rfl, rfl, [], by simp⟩ h.next_le h.sent
      ⟨rfl, rfl⟩
  · obtain ⟨t, ht, hs⟩ := Option.bind_eq_some_iff.mp hs
    have hinv := threadsInv_step s.threads (.writer first) t h.threads hok ht
    have hframe := writerStep_frame ht
    obtain ⟨hwhole, hadded⟩ := writerStep_whole h.threads hr (hsize ▸ hrs) (hsize ▸ h3) hturn.1
      (hsize ▸ hroom) h.length_sent h.consumed (hsize ▸ h.writer) ht
    rw [hframe.size, hsize] at hwhole
    rcases hadded with ⟨hrun, hsent⟩ | ⟨hret, hcount, hsent⟩ | ⟨hret, hcount, hsent⟩
    · rw [if_neg hrun] at hs
      cases hs
      exact h.of_writer hinv hframe h.next_le (by rw [hsent, h.sent]) hwhole
    · rw [if_pos hret, hcount, threadWriterNext_zero hr] at hs
      cases hs
      exact h.of_writer hinv hframe h.next_le (by rw [hsent, h.sent]) hwhole
    · rw [if_pos hret, hcount, threadWriterNext_whole hr] at hs
      cases hs
      refine h.of_writer hinv hframe hturn.1 ?_ (by rw [hret]; trivial)
      rw [hsent, h.sent, flatMap_range_succ]

/-- A step of the reader leaves the writer and what has been added as they are. -/
theorem StreamInv.of_reader {s s' : StreamThreads} (h : StreamInv recs size s)
    (ht : ThreadsInv s'.threads) (hf : ReaderFrame s.threads s'.threads)
    (hnext : s'.next = s.next) (hconsumed : r.toNat ∣ s'.threads.hist.consumed)
    (hwhole : ReaderWhole r size s'.threads.hist.swaps s'.threads.reader) {m : Nat}
    (hm : HasReceived recs s' m) : StreamInv recs size s' := by
  refine ⟨ht, hf.size.trans h.size_eq, hnext ▸ h.next_le, ?_, hconsumed, ?_, hwhole, m, hm⟩
  · rw [hf.sent, hnext]
    exact h.sent
  · rw [hf.writer, hnext]
    exact h.writer

/-- What `thread_reader` does with the next record. -/
theorem HasReceived.record {s : StreamThreads} {t : Threads} {m : Nat} (h : HasReceived recs s m)
    (hr : 0 < r) (hm : m < n) (hgot : t.hist.got = (List.range (m + 1)).flatMap recs.bytes) :
    HasReceived recs (threadReaderNext recs { s with threads := t } (recs.bytes m)) (m + 1) := by
  have hlen := recs.length_bytes m hm
  have hr0 : r.toNat ≠ 0 := (BitVec.lt_def.mp hr).ne'
  have hreading : s.reader = .reading := by rw [h.reader, if_neg hm.ne]
  have hreceived : s.received ++ [recs.bytes m] = (List.range (m + 1)).map recs.bytes := by
    rw [h.received, List.range_succ, List.map_append]
    rfl
  have hflags := recs.flags_bytes m hm
  unfold threadReaderNext
  rw [if_neg (hlen ▸ hr0), if_neg (not_not.mpr hlen), hflags]
  by_cases hlast : m + 1 = n
  · rw [if_pos hlast, if_pos rfl]
    exact ⟨hm, hreceived, hgot, by rw [if_pos hlast], by omega, h.missing⟩
  · rw [if_neg hlast, if_neg (by decide)]
    refine ⟨hm, hreceived, hgot, by simp only [hreading, if_neg hlast], ?_, ?_⟩
    · intro _
      simp only [h.seqnums hm]
      exact (BitVec.ofNat_add m 1).symm
    · simp [h.missing, recs.seqnum_bytes m hm, h.seqnums hm]

theorem threadReaderNext_threads (recs : Records r n) (s : StreamThreads) (a : List UInt8) :
    (threadReaderNext recs s a).threads = s.threads ∧ (threadReaderNext recs s a).next = s.next := by
  unfold threadReaderNext
  split_ifs <;> exact ⟨rfl, rfl⟩

/-- A step of `thread_reader`. -/
theorem threadReaderStep_inv {s s' : StreamThreads} {first : Index} (hr : 0 < r)
    (h : StreamInv recs size s) (hs : threadReaderStep recs s first = some s') :
    StreamInv recs size s' := by
  have hsize := h.size_eq
  obtain ⟨m, hm⟩ := h.hasReceived
  unfold threadReaderStep at hs
  split_ifs at hs with hreading hidle
  · obtain ⟨t, ht, hs⟩ := Option.bind_eq_some_iff.mp hs
    cases hs
    have hinv := threadsInv_step s.threads (.read r) t h.threads trivial ht
    rw [Threads.step] at ht
    split_ifs at ht
    cases ht
    exact h.of_reader hinv ⟨rfl, rfl, rfl, rfl, rfl, rfl, rfl, le_rfl, le_rfl⟩ rfl h.consumed rfl
      ⟨hm.le, hm.received, hm.got, hm.reader, hm.seqnums, hm.missing⟩
  · obtain ⟨t, ht, hs⟩ := Option.bind_eq_some_iff.mp hs
    have hinv := threadsInv_step s.threads (.reader first) t h.threads trivial ht
    have hframe := readerStep_frame ht
    have hsent : r.toNat ∣ s.threads.hist.sent.length := by
      rw [h.length_sent]
      exact Nat.dvd_mul_left _ _
    obtain ⟨hwhole, hconsumed, hgot⟩ := readerStep_whole h.threads hsent h.consumed
      (hsize ▸ h.reader) ht
    rw [hframe.size, hsize] at hwhole
    rcases hgot with ⟨hrun, hgot⟩ | ⟨hret, hdest, hgot⟩ | ⟨hret, hdest, hgot⟩
    · rw [if_neg hrun] at hs
      cases hs
      exact h.of_reader hinv hframe rfl hconsumed hwhole
        ⟨hm.le, hm.received, hgot.trans hm.got, hm.reader, hm.seqnums, hm.missing⟩
    · rw [if_pos hret, hdest] at hs
      cases hs
      exact h.of_reader hinv hframe rfl hconsumed hwhole
        ⟨hm.le, hm.received, hgot.trans hm.got, hm.reader, hm.seqnums, hm.missing⟩
    · rw [if_pos hret] at hs
      cases hs
      have hpre : (List.range m).flatMap recs.bytes ++ s.threads.reader.dest <+:
          (List.range s.next).flatMap recs.bytes := by
        have hall := hinv.reader.got_copied.1
        rwa [hgot, hm.got, hframe.sent, h.sent] at hall
      obtain ⟨hlt, hrecord⟩ := next_record hr hm.le h.next_le hdest hpre
      rw [hrecord] at hgot ⊢
      obtain ⟨hthreads, hnext⟩ :=
        threadReaderNext_threads recs { s with threads := t } (recs.bytes m)
      refine h.of_reader (m := m + 1) ?_ ?_ hnext ?_ ?_ (hm.record hr (hlt.trans_le h.next_le) ?_)
      · rw [hthreads]
        exact hinv
      · rw [hthreads]
        exact hframe
      · rw [hthreads]
        exact hconsumed
      · rw [hthreads]
        exact hwhole
      · rw [hgot, hm.got, flatMap_range_succ]

theorem streamStep_inv (hr : 0 < r) (hrs : r ≤ size) (h3 : 3 * size.toNat < 2 ^ 64)
    (hroom : r.toNat ∣ size.toNat ∨ n * r.toNat ≤ size.toNat) (s : StreamThreads) (a : Tick)
    (s' : StreamThreads) (h : StreamInv recs size s) (hok : s.Coherent a)
    (hs : s.step recs a = some s') : StreamInv recs size s' := by
  cases a with
  | writer first => exact threadWriterStep_inv hr hrs h3 hroom h hok hs
  | reader first => exact threadReaderStep_inv hr h hs

theorem StreamInv.lossless {s : StreamThreads} (h : StreamInv recs size s) : s.Lossless recs := by
  obtain ⟨m, hm⟩ := h.hasReceived
  have hlen : s.received.length = m := by simp [hm.received]
  refine ⟨h.not_truncated, hm.missing, hlen.symm ▸ hm.received, h.sent, ?_, ?_⟩
  · rw [hm.got, hm.received, List.flatMap_def]
  · intro hdone
    rw [hm.reader] at hdone
    rw [hlen]
    exact not_not.mp fun hne => by simp [hne] at hdone

end Twd
