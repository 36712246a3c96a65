import Twd.Ringbuffer.Threads

/-!
# The two threads: the invariant of coherent runs

`Core` relates the ring to the bytes that have been added and consumed, `ReaderInv` and `WriterInv`
say what each thread knows at its program point. A step of one thread keeps what the other knows
(`ReaderInv.frame`, `WriterInv.frame`); what it does to its own knowledge is one case for each
program point.
-/

namespace Twd

/-- The ring and its history. Byte number `i` of those added is in the cell `i % size` from the
moment it is added until it is consumed, and each index is the number of bytes added or consumed
less the laps it has been pulled back by. -/
structure Core (rbuf : Ringbuffer) (mem : Memory) (sent : List (Nat × UInt8))
    (consumed swaps subs : Nat) : Prop where
  size_pos : 0 < rbuf.size.toNat
  size_lt : 2 * rbuf.size.toNat < 2 ^ 64
  widx_eq : rbuf.widx.toNat + rbuf.size.toNat * swaps = sent.length
  ridx_eq : rbuf.ridx.toNat + rbuf.size.toNat * subs = consumed
  consumed_le : consumed ≤ sent.length
  sent_le : sent.length ≤ consumed + rbuf.size.toNat
  cells : sent.map Prod.fst = (List.range sent.length).map (· % rbuf.size.toNat)
  loads : Mirror.load rbuf.size.toNat mem consumed (sent.length - consumed) =
    (sent.map Prod.snd).drop consumed

/-- The reader has nothing in hand. -/
structure AtRest (s : Threads) : Prop where
  laps : s.hist.swaps = s.hist.subs
  ridx_le : s.rbuf.ridx.toNat ≤ s.rbuf.size.toNat
  copied : s.hist.copied = s.hist.consumed
  got : s.hist.got = (s.hist.sent.map Prod.snd).take s.hist.consumed

/-- The reader has copied `dest` and has not moved `ridx` yet. -/
structure Copied (s : Threads) (len : SizeT) (dest : List UInt8) : Prop where
  laps : s.hist.swaps = s.hist.subs
  ridx_le : s.rbuf.ridx.toNat ≤ s.rbuf.size.toNat
  fits : s.hist.consumed + len.toNat ≤ s.hist.sent.length
  copied : s.hist.copied = s.hist.consumed + len.toNat
  got : s.hist.got = (s.hist.sent.map Prod.snd).take s.hist.consumed
  got_append : s.hist.got ++ dest =
    (s.hist.sent.map Prod.snd).take (s.hist.consumed + len.toNat)

/-- The reader has moved `ridx` and has not returned `dest` yet. -/
structure Pending (s : Threads) (dest : List UInt8) : Prop where
  ridx_le : s.rbuf.ridx.toNat ≤ 2 * s.rbuf.size.toNat
  copied : s.hist.copied = s.hist.consumed
  got_append : s.hist.got ++ dest = (s.hist.sent.map Prod.snd).take s.hist.consumed

/-- What the reader knows at its program point. -/
def ReaderInv (s : Threads) : Prop :=
  match s.reader with
  | .idle => AtRest s
  | .entry _ => AtRest s
  | .gotWidx _ w => AtRest s ∧
      s.hist.consumed ≤ w.toNat + s.rbuf.size.toNat * s.hist.swaps ∧
      w.toNat + s.rbuf.size.toNat * s.hist.swaps ≤ s.hist.sent.length
  | .gotRidx _ r => AtRest s ∧ r = s.rbuf.ridx
  | .address len => AtRest s ∧ s.hist.consumed + len.toNat ≤ s.hist.sent.length
  | .copy len off => AtRest s ∧ s.hist.consumed + len.toNat ≤ s.hist.sent.length ∧
      off = s.rbuf.ridx
  | .bumpLoad len dest => Copied s len dest
  | .bumpStore len dest r => Copied s len dest ∧ r = s.rbuf.ridx
  | .check dest => Pending s dest ∧ s.hist.swaps = s.hist.subs
  | .wrapLoad dest => Pending s dest ∧ s.hist.swaps = s.hist.subs ∧
      s.rbuf.size.toNat < s.rbuf.ridx.toNat
  | .wrapSwap dest _ => Pending s dest ∧ s.hist.swaps = s.hist.subs ∧
      s.rbuf.size.toNat < s.rbuf.ridx.toNat
  | .subLoad dest => Pending s dest ∧ s.hist.swaps = s.hist.subs + 1 ∧
      s.rbuf.size.toNat < s.rbuf.ridx.toNat
  | .subStore dest r => Pending s dest ∧ s.hist.swaps = s.hist.subs + 1 ∧
      s.rbuf.size.toNat < s.rbuf.ridx.toNat ∧ r = s.rbuf.ridx

/-- The copy to `off` overwrites nothing that is still to be read and stays in the mapping; `off` is
the `widx` of the current lap or of an earlier one. -/
structure Fits (s : Threads) (src : List UInt8) (len off : SizeT) : Prop where
  src : len.toNat ≤ src.length
  room : s.hist.sent.length + len.toNat ≤ s.hist.consumed + s.rbuf.size.toNat
  inside : off.toNat + len.toNat ≤ 2 * s.rbuf.size.toNat
  lap : ∃ k ≤ s.hist.swaps, off.toNat + s.rbuf.size.toNat * k = s.hist.sent.length

/-- What the writer knows at its program point. -/
def WriterInv (s : Threads) : Prop :=
  match s.writer with
  | .idle => True
  | .entry src amount => amount.toNat ≤ src.length
  | .gotWidx src amount w => amount.toNat ≤ src.length ∧
      w.toNat + s.rbuf.size.toNat * s.hist.seenSwaps = s.hist.sent.length
  | .gotRidx src amount r => amount.toNat ≤ src.length ∧ r = s.hist.seenRidx ∧
      s.hist.seenSubs ≤ s.hist.swaps ∧
      r.toNat + s.rbuf.size.toNat * s.hist.seenSubs ≤ s.hist.consumed ∧
      s.hist.sent.length ≤ r.toNat + s.rbuf.size.toNat * s.hist.seenSubs + s.rbuf.size.toNat
  | .address src amount len => amount.toNat ≤ src.length ∧ len.toNat ≤ amount.toNat ∧
      s.hist.sent.length + len.toNat ≤ s.hist.consumed + s.rbuf.size.toNat ∧
      s.hist.seenSubs ≤ s.hist.swaps ∧
      (s.hist.seenSwaps = s.hist.seenSubs → s.hist.sent.length + len.toNat ≤
        s.hist.seenRidx.toNat + s.rbuf.size.toNat * s.hist.seenSubs + s.rbuf.size.toNat)
  | .copy src len off => Fits s src len off
  | .publish src len off => Fits s src len off ∧
      Mirror.load s.rbuf.size.toNat s.mem s.hist.sent.length len.toNat = src.take len.toNat

/-- The invariant of a run in which every step of the writer is coherent. -/
structure ThreadsInv (s : Threads) : Prop where
  core : Core s.rbuf s.mem s.hist.sent s.hist.consumed s.hist.swaps s.hist.subs
  reader : ReaderInv s
  writer : WriterInv s

/-! ## What a step of one thread leaves to the other -/

/-- What a step of the writer does not change, and the bytes it adds. -/
structure WriterFrame (s s' : Threads) : Prop where
  reader : s'.reader = s.reader
  size : s'.rbuf.size = s.rbuf.size
  ridx : s'.rbuf.ridx = s.rbuf.ridx
  copied : s'.hist.copied = s.hist.copied
  consumed : s'.hist.consumed = s.hist.consumed
  got : s'.hist.got = s.hist.got
  swaps : s'.hist.swaps = s.hist.swaps
  subs : s'.hist.subs = s.hist.subs
  sent : ∃ l, s'.hist.sent = s.hist.sent ++ l

theorem writerStep_frame {s s' : Threads} {first : Index} (h : writerStep s first = some s') :
    WriterFrame s s' := by
  unfold writerStep at h
  split at h
  · cases h
  · cases first <;> cases h <;> exact ⟨rfl, rfl, rfl, rfl, rfl, rfl, rfl, rfl, [], by simp⟩
  · cases h; exact ⟨rfl, rfl, rfl, rfl, rfl, rfl, rfl, rfl, [], by simp⟩
  · cases h; exact ⟨rfl, rfl, rfl, rfl, rfl, rfl, rfl, rfl, [], by simp⟩
  · cases h; exact ⟨rfl, rfl, rfl, rfl, rfl, rfl, rfl, rfl, [], by simp⟩
  · cases h; exact ⟨rfl, rfl, rfl, rfl, rfl, rfl, rfl, rfl, [], by simp⟩
  · cases h; exact ⟨rfl, rfl, rfl, rfl, rfl, rfl, rfl, rfl, _, rfl⟩

/-- What a step of the reader does not change, and the counters it only raises. -/
structure ReaderFrame (s s' : Threads) : Prop where
  writer : s'.writer = s.writer
  size : s'.rbuf.size = s.rbuf.size
  mem : s'.mem = s.mem
  sent : s'.hist.sent = s.hist.sent
  seenSwaps : s'.hist.seenSwaps = s.hist.seenSwaps
  seenSubs : s'.hist.seenSubs = s.hist.seenSubs
  seenRidx : s'.hist.seenRidx = s.hist.seenRidx
  consumed : s.hist.consumed ≤ s'.hist.consumed
  swaps : s.hist.swaps ≤ s'.hist.swaps

theorem readerStep_frame {s s' : Threads} {first : Index} (h : readerStep s first = some s') :
    ReaderFrame s s' := by
  unfold readerStep at h
  split at h
  · cases h
  · cases first <;> cases h <;> exact ⟨rfl, rfl, rfl, rfl, rfl, rfl, rfl, le_rfl, le_rfl⟩
  · cases h; exact ⟨rfl, rfl, rfl, rfl, rfl, rfl, rfl, le_rfl, le_rfl⟩
  · cases h; exact ⟨rfl, rfl, rfl, rfl, rfl, rfl, rfl, le_rfl, le_rfl⟩
  · cases h; exact ⟨rfl, rfl, rfl, rfl, rfl, rfl, rfl, le_rfl, le_rfl⟩
  · cases h; exact ⟨rfl, rfl, rfl, rfl, rfl, rfl, rfl, le_rfl, le_rfl⟩
  · cases h; exact ⟨rfl, rfl, rfl, rfl, rfl, rfl, rfl, le_rfl, le_rfl⟩
  · cases h; exact ⟨rfl, rfl, rfl, rfl, rfl, rfl, rfl, Nat.le_add_right .., le_rfl⟩
  · split at h <;> cases h <;> exact ⟨rfl, rfl, rfl, rfl, rfl, rfl, rfl, le_rfl, le_rfl⟩
  · cases h; exact ⟨rfl, rfl, rfl, rfl, rfl, rfl, rfl, le_rfl, le_rfl⟩
  · simp only at h
    split at h <;> cases h
    · exact ⟨rfl, rfl, rfl, rfl, rfl, rfl, rfl, le_rfl, le_rfl⟩
    · exact ⟨rfl, rfl, rfl, rfl, rfl, rfl, rfl, le_rfl, Nat.le_succ _⟩
  · cases h; exact ⟨rfl, rfl, rfl, rfl, rfl, rfl, rfl, le_rfl, le_rfl⟩
  · cases h; exact ⟨rfl, rfl, rfl, rfl, rfl, rfl, rfl, le_rfl, le_rfl⟩

theorem take_map_append {l l' : List (Nat × UInt8)} {n : Nat} (h : n ≤ l.length) :
    ((l ++ l').map Prod.snd).take n = (l.map Prod.snd).take n := by
  rw [List.map_append, List.take_append_of_le_length (by simpa using h)]

theorem AtRest.frame {s s' : Threads} (h : AtRest s) (hf : WriterFrame s s')
    (hle : s.hist.consumed ≤ s.hist.sent.length) : AtRest s' := by
  obtain ⟨l, hl⟩ := hf.sent
  refine ⟨by rw [hf.swaps, hf.subs, h.laps], by rw [hf.ridx, hf.size]; exact h.ridx_le,
    by rw [hf.copied, hf.consumed, h.copied], ?_⟩
  rw [hf.got, hf.consumed, hl, take_map_append hle, h.got]

theorem Copied.frame {s s' : Threads} {len : SizeT} {dest : List UInt8} (h : Copied s len dest)
    (hf : WriterFrame s s') : Copied s' len dest := by
  obtain ⟨l, hl⟩ := hf.sent
  have hfits := h.fits
  refine ⟨by rw [hf.swaps, hf.subs, h.laps], by rw [hf.ridx, hf.size]; exact h.ridx_le, ?_,
    by rw [hf.copied, hf.consumed, h.copied], ?_, ?_⟩
  · rw [hf.consumed, hl, List.length_append]
    omega
  · rw [hf.got, hf.consumed, hl, take_map_append (by omega), h.got]
  · rw [hf.got, hf.consumed, hl, take_map_append hfits, h.got_append]

theorem Pending.frame {s s' : Threads} {dest : List UInt8} (h : Pending s dest)
    (hf : WriterFrame s s') (hle : s.hist.consumed ≤ s.hist.sent.length) : Pending s' dest := by
  obtain ⟨l, hl⟩ := hf.sent
  refine ⟨by rw [hf.ridx, hf.size]; exact h.ridx_le, by rw [hf.copied, hf.consumed, h.copied], ?_⟩
  rw [hf.got, hf.consumed, hl, take_map_append hle, h.got_append]

theorem ReaderInv.frame {s s' : Threads} (h : ReaderInv s) (hf : WriterFrame s s')
    (hle : s.hist.consumed ≤ s.hist.sent.length) : ReaderInv s' := by
  have hlen : s.hist.sent.length ≤ s'.hist.sent.length := by
    obtain ⟨l, hl⟩ := hf.sent
    rw [hl, List.length_append]
    omega
  unfold ReaderInv at h ⊢
  rw [hf.reader]
  cases hr : s.reader with
  | idle => rw [hr] at h; exact h.frame hf hle
  | entry amount => rw [hr] at h; exact h.frame hf hle
  | gotWidx amount w =>
    rw [hr] at h
    refine ⟨h.1.frame hf hle, ?_, ?_⟩
    · rw [hf.consumed, hf.size, hf.swaps]; exact h.2.1
    · rw [hf.size, hf.swaps]; exact h.2.2.trans hlen
  | gotRidx amount r => rw [hr] at h; exact ⟨h.1.frame hf hle, by rw [hf.ridx]; exact h.2⟩
  | address len =>
    rw [hr] at h
    exact ⟨h.1.frame hf hle, by rw [hf.consumed]; exact h.2.trans hlen⟩
  | copy len off =>
    rw [hr] at h
    exact ⟨h.1.frame hf hle, by rw [hf.consumed]; exact h.2.1.trans hlen,
      by rw [hf.ridx]; exact h.2.2⟩
  | bumpLoad len dest => rw [hr] at h; exact Copied.frame h hf
  | bumpStore len dest r => rw [hr] at h; exact ⟨h.1.frame hf, by rw [hf.ridx]; exact h.2⟩
  | check dest =>
    rw [hr] at h
    exact ⟨h.1.frame hf hle, by rw [hf.swaps, hf.subs]; exact h.2⟩
  | wrapLoad dest | wrapSwap dest temp | subLoad dest =>
    rw [hr] at h
    exact ⟨h.1.frame hf hle, by rw [hf.swaps, hf.subs]; exact h.2.1,
      by rw [hf.ridx, hf.size]; exact h.2.2⟩
  | subStore dest r =>
    rw [hr] at h
    exact ⟨h.1.frame hf hle, by rw [hf.swaps, hf.subs]; exact h.2.1,
      by rw [hf.ridx, hf.size]; exact h.2.2.1, by rw [hf.ridx]; exact h.2.2.2⟩

theorem Fits.frame {s s' : Threads} {src : List UInt8} {len off : SizeT}
    (h : Fits s src len off) (hf : ReaderFrame s s') : Fits s' src len off := by
  obtain ⟨k, hk, hlap⟩ := h.lap
  have hroom := h.room
  have hc := hf.consumed
  refine ⟨h.src, ?_, by rw [hf.size]; exact h.inside, k, hk.trans hf.swaps, ?_⟩
  · rw [hf.sent, hf.size]
    omega
  · rw [hf.size, hf.sent, hlap]

theorem WriterInv.frame {s s' : Threads} (h : WriterInv s) (hf : ReaderFrame s s') :
    WriterInv s' := by
  have hc := hf.consumed
  have hk := hf.swaps
  unfold WriterInv at h ⊢
  rw [hf.writer]
  cases hw : s.writer with
  | idle => trivial
  | entry src amount => rw [hw] at h; exact h
  | gotWidx src amount w =>
    rw [hw] at h
    exact ⟨h.1, by rw [hf.size, hf.seenSwaps, hf.sent]; exact h.2⟩
  | gotRidx src amount r =>
    rw [hw] at h
    obtain ⟨h1, h2, h3, h4, h5⟩ := h
    simp only [hf.size, hf.seenSubs, hf.seenRidx, hf.sent]
    exact ⟨h1, h2, h3.trans hk, h4.trans hc, h5⟩
  | address src amount len =>
    rw [hw] at h
    obtain ⟨h1, h2, h3, h4, h5⟩ := h
    simp only [hf.size, hf.seenSwaps, hf.seenSubs, hf.seenRidx, hf.sent]
    exact ⟨h1, h2, by omega, h4.trans hk, h5⟩
  | copy src len off => rw [hw] at h; exact Fits.frame h hf
  | publish src len off =>
    rw [hw] at h
    exact ⟨h.1.frame hf, by rw [hf.size, hf.mem, hf.sent]; exact h.2⟩

end Twd
