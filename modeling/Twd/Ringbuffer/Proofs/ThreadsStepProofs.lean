import Twd.Ringbuffer.Proofs.ThreadsProofs

/-!
# The two threads: every step keeps the invariant

The writer's steps first, then the reader's. Only the writer's three loads need the condition
`Coherent`.
-/

namespace Twd

theorem toNat_free {size w r : SizeT} (hle : r.toNat ≤ w.toNat)
    (hs : w.toNat ≤ r.toNat + size.toNat) :
    (size - (w - r)).toNat = size.toNat - (w.toNat - r.toNat) := by
  have hwr : (w - r).toNat = w.toNat - r.toNat := BitVec.toNat_sub_of_le (BitVec.le_def.mpr hle)
  rw [BitVec.toNat_sub_of_le (by rw [BitVec.le_def]; omega), hwr]

theorem Writer.decide_cases (size : SizeT) (src : List UInt8) (amount used : SizeT) :
    Writer.decide size src amount used = .idle ∨
      ∃ len, Writer.decide size src amount used = .address src amount len ∧
        len.toNat ≤ amount.toNat ∧ len.toNat ≤ (size - used).toNat := by
  unfold Writer.decide
  simp only
  split_ifs with h
  · refine Or.inr ⟨_, rfl, ?_, ?_⟩ <;> rw [toNat_minSizeT] <;> omega
  · exact Or.inl rfl

theorem Reader.decide_cases (amount used : SizeT) :
    Reader.decide amount used = .idle ∨
      ∃ len, Reader.decide amount used = .address len ∧ len.toNat ≤ used.toNat := by
  unfold Reader.decide
  split_ifs with h
  · exact Or.inr ⟨_, rfl, by rw [toNat_minSizeT]; omega⟩
  · exact Or.inl rfl

/-- The laps of the two indices, and how far `ridx` can be. -/
theorem ReaderInv.laps {s : Threads} (h : ReaderInv s) :
    s.rbuf.ridx.toNat ≤ 2 * s.rbuf.size.toNat ∧
      (s.hist.swaps = s.hist.subs ∨ s.hist.swaps = s.hist.subs + 1) := by
  unfold ReaderInv at h
  cases hr : s.reader with
  | idle | entry amount =>
    rw [hr] at h
    exact ⟨by have := h.ridx_le; omega, Or.inl h.laps⟩
  | gotWidx amount w | gotRidx amount r | address len | copy len off =>
    rw [hr] at h
    exact ⟨by have := h.1.ridx_le; omega, Or.inl h.1.laps⟩
  | bumpLoad len dest =>
    rw [hr] at h
    exact ⟨by have := h.ridx_le; omega, Or.inl h.laps⟩
  | bumpStore len dest r =>
    rw [hr] at h
    exact ⟨by have := h.1.ridx_le; omega, Or.inl h.1.laps⟩
  | check dest => rw [hr] at h; exact ⟨h.1.ridx_le, Or.inl h.2⟩
  | wrapLoad dest | wrapSwap dest temp => rw [hr] at h; exact ⟨h.1.ridx_le, Or.inl h.2.1⟩
  | subLoad dest | subStore dest r => rw [hr] at h; exact ⟨h.1.ridx_le, Or.inr h.2.1⟩

/-! ## The writer -/

/-- The writer has the last load of `widx - ridx`. -/
theorem writerInv_decide {s : Threads} {src : List UInt8} {amount used : SizeT} {hist : History}
    (hsrc : amount.toNat ≤ src.length) (hsubs : hist.seenSubs ≤ hist.swaps)
    (hroom : ∀ len : SizeT, len.toNat ≤ amount.toNat → len.toNat ≤ (s.rbuf.size - used).toNat →
      hist.sent.length + len.toNat ≤ hist.consumed + s.rbuf.size.toNat ∧
      (hist.seenSwaps = hist.seenSubs → hist.sent.length + len.toNat ≤
        hist.seenRidx.toNat + s.rbuf.size.toNat * hist.seenSubs + s.rbuf.size.toNat)) :
    WriterInv { s with writer := .decide s.rbuf.size src amount used, hist := hist } := by
  unfold WriterInv
  rcases Writer.decide_cases s.rbuf.size src amount used with h | ⟨len, h, hl, hf⟩
  · simp only [h]
  · simp only [h]
    obtain ⟨h1, h2⟩ := hroom len hl hf
    exact ⟨hsrc, hl, h1, hsubs, h2⟩

/-- The free space computed after `ridx` has been loaded is really free. -/
theorem room_of_gotWidx {s : Threads} (h : ThreadsInv s) {src : List UInt8} {amount w len : SizeT}
    (hw : s.writer = .gotWidx src amount w)
    (hok : s.hist.seenSwaps = s.hist.subs ∨ amount.toNat ≤ s.room)
    (hl : len.toNat ≤ amount.toNat)
    (hf : len.toNat ≤ (s.rbuf.size - (w - s.rbuf.ridx)).toNat) :
    s.hist.sent.length + len.toNat ≤ s.hist.consumed + s.rbuf.size.toNat := by
  have hwi := h.writer
  rw [WriterInv, hw] at hwi
  have hwidx := hwi.2
  have hridx := h.core.ridx_eq
  have hle := h.core.consumed_le
  have hsent := h.core.sent_le
  rcases hok with hlap | hroom
  · rw [hlap] at hwidx
    rw [toNat_free (by omega) (by omega)] at hf
    omega
  · rw [Threads.room] at hroom
    omega

/-- The free space computed after `widx` has been loaded, if both indices are of the same lap. -/
theorem room_of_gotRidx {s : Threads} (h : ThreadsInv s) {src : List UInt8} {amount r len : SizeT}
    (hw : s.writer = .gotRidx src amount r)
    (hf : len.toNat ≤ (s.rbuf.size - (s.rbuf.widx - r)).toNat)
    (hlap : s.hist.swaps = s.hist.seenSubs) :
    s.hist.sent.length + len.toNat ≤
      r.toNat + s.rbuf.size.toNat * s.hist.seenSubs + s.rbuf.size.toNat := by
  have hwi := h.writer
  rw [WriterInv, hw] at hwi
  obtain ⟨-, -, -, hconsumed, hsent⟩ := hwi
  have hwidx := h.core.widx_eq
  have hle := h.core.consumed_le
  rw [hlap] at hwidx
  rw [toNat_free (by omega) (by omega)] at hf
  omega

/-- The copy goes to a cell that the bytes to be read do not reach, and into the mapping. -/
theorem fits_of_address {s : Threads} (h : ThreadsInv s) {src : List UInt8} {amount len : SizeT}
    (hw : s.writer = .address src amount len)
    (hok : (s.hist.seenSwaps = s.hist.seenSubs ∧ s.hist.seenRidx ≤ s.rbuf.size) ∨ ¬ s.PastEnd ∨
      s.rbuf.widx.toNat + amount.toNat ≤ 2 * s.rbuf.size.toNat) :
    Fits s src len s.rbuf.widx := by
  have hwi := h.writer
  rw [WriterInv, hw] at hwi
  obtain ⟨h1, h2, h3, h4, h5⟩ := hwi
  have hwidx := h.core.widx_eq
  have hridx := h.core.ridx_eq
  refine ⟨h2.trans h1, h3, ?_, s.hist.swaps, le_rfl, hwidx⟩
  rcases hok with ⟨hlap, hseen⟩ | hpast | hamount
  · have hb := h5 hlap
    have hmul := Nat.mul_le_mul_left s.rbuf.size.toNat h4
    rw [BitVec.le_def] at hseen
    omega
  · obtain ⟨hr2, hlaps⟩ := h.reader.laps
    rcases hlaps with hl | hl
    · have hr : s.rbuf.ridx.toNat ≤ s.rbuf.size.toNat := by
        by_contra hlt
        exact hpast ⟨BitVec.lt_def.mpr (by omega), hl⟩
      rw [hl] at hwidx
      omega
    · rw [hl, Nat.mul_succ] at hwidx
      omega
  · omega

/-- The copy of the writer leaves the bytes to be read as they are. -/
theorem core_copy {s : Threads} (h : ThreadsInv s) {src : List UInt8} {len off : SizeT}
    (hf : Fits s src len off) :
    Core s.rbuf (Mirror.store s.rbuf.size.toNat s.mem off.toNat (src.take len.toNat)) s.hist.sent
      s.hist.consumed s.hist.swaps s.hist.subs ∧
    Mirror.load s.rbuf.size.toNat
      (Mirror.store s.rbuf.size.toNat s.mem off.toNat (src.take len.toNat)) s.hist.sent.length
      len.toNat = src.take len.toNat := by
  have hc := h.core
  obtain ⟨k, -, hlap⟩ := hf.lap
  have hroom := hf.room
  have hle := hc.consumed_le
  have hlen : (src.take len.toNat).length = len.toNat := by
    rw [List.length_take]
    exact Nat.min_eq_left hf.src
  have hmod : off.toNat % s.rbuf.size.toNat = s.hist.sent.length % s.rbuf.size.toNat := by
    rw [← hlap, Nat.add_mul_mod_self_left]
  have hsplit : s.hist.sent.length =
      s.hist.consumed + (s.hist.sent.length - s.hist.consumed) := by omega
  rw [Mirror.store_of_mod_eq _ hmod]
  refine ⟨⟨hc.size_pos, hc.size_lt, hc.widx_eq, hc.ridx_eq, hc.consumed_le, hc.sent_le, hc.cells,
    ?_⟩, ?_⟩
  · rw [← hc.loads]
    conv_lhs => enter [2, 3]; rw [hsplit]
    exact Mirror.load_store_before (by omega)
  · have hload : Mirror.load s.rbuf.size.toNat (Mirror.store s.rbuf.size.toNat s.mem
        s.hist.sent.length (src.take len.toNat)) s.hist.sent.length
        (src.take len.toNat).length = src.take len.toNat := Mirror.load_store (by omega)
    rwa [hlen] at hload

theorem sentBytes_fst {size : SizeT} {src : List UInt8} {len off : SizeT}
    (hsrc : len.toNat ≤ src.length) :
    (sentBytes size src len off).map Prod.fst =
      (List.range len.toNat).map fun i => (off.toNat + i) % size.toNat := by
  apply List.ext_getElem (by simp [sentBytes, hsrc])
  intro i h1 h2
  simp [sentBytes]

theorem sentBytes_snd (size : SizeT) (src : List UInt8) (len off : SizeT) :
    (sentBytes size src len off).map Prod.snd = src.take len.toNat := by
  apply List.ext_getElem (by simp [sentBytes])
  intro i h1 h2
  simp [sentBytes]

theorem sentBytes_length (size : SizeT) {src : List UInt8} {len : SizeT} (off : SizeT)
    (hsrc : len.toNat ≤ src.length) : (sentBytes size src len off).length = len.toNat := by
  simp [sentBytes, hsrc]

/-- The atomic addition hands the copied bytes over to the reader. -/
theorem core_publish {s : Threads} (h : ThreadsInv s) {src : List UInt8} {len off : SizeT}
    (hf : Fits s src len off)
    (hload : Mirror.load s.rbuf.size.toNat s.mem s.hist.sent.length len.toNat =
      src.take len.toNat) :
    Core { s.rbuf with widx := s.rbuf.widx + len } s.mem
      (s.hist.sent ++ sentBytes s.rbuf.size src len off) s.hist.consumed s.hist.swaps
      s.hist.subs := by
  have hc := h.core
  obtain ⟨k, hk, hlap⟩ := hf.lap
  have hroom := hf.room
  have hin := hf.inside
  have hwidx := hc.widx_eq
  have hle := hc.consumed_le
  have hlt := hc.size_lt
  have hmul := Nat.mul_le_mul_left s.rbuf.size.toNat hk
  have hlen := sentBytes_length s.rbuf.size off hf.src
  -- `off` is the `widx` of this lap or of an earlier one, so the sum stays below `2 * size`
  have hadd : (s.rbuf.widx + len).toNat = s.rbuf.widx.toNat + len.toNat :=
    BitVec.toNat_add_of_lt (by omega)
  refine ⟨hc.size_pos, hc.size_lt, ?_, hc.ridx_eq, ?_, ?_, ?_, ?_⟩
  · simp only [hadd, List.length_append, hlen]
    omega
  · rw [List.length_append]
    omega
  · rw [List.length_append, hlen]
    exact hroom
  · rw [List.map_append, hc.cells, sentBytes_fst hf.src, List.length_append, hlen,
      List.range_add, List.map_append, List.map_map, ← hlap]
    congr 1
    apply List.map_congr_left
    intro i _
    rw [Function.comp_apply, Nat.add_right_comm, Nat.add_mul_mod_self_left]
  · have hsub : (s.hist.sent ++ sentBytes s.rbuf.size src len off).length - s.hist.consumed =
        (s.hist.sent.length - s.hist.consumed) + len.toNat := by
      rw [List.length_append, hlen]
      omega
    rw [hsub, Mirror.load_append, hc.loads, Nat.add_sub_cancel' hle, hload, List.map_append,
      sentBytes_snd, List.drop_append_of_le_length (by simpa using hle)]

/-- A coherent step of the writer keeps the invariant. -/
theorem writerStep_inv {s s' : Threads} {first : Index} (h : ThreadsInv s)
    (hok : s.Coherent (.writer first)) (hs : writerStep s first = some s') : ThreadsInv s' := by
  have hread : ReaderInv s' := h.reader.frame (writerStep_frame hs) h.core.consumed_le
  have hwi := h.writer
  have hc := h.core
  have hwidx := hc.widx_eq
  have hridx := hc.ridx_eq
  have hle := hc.consumed_le
  have hsent := hc.sent_le
  have hlaps : s.hist.subs ≤ s.hist.swaps := by
    rcases h.reader.laps.2 with hl | hl <;> omega
  unfold writerStep at hs
  unfold WriterInv at hwi
  cases hw : s.writer with
  | idle => simp [hw] at hs
  | entry src amount =>
    rw [hw] at hs hwi
    have hmul := Nat.mul_le_mul_left s.rbuf.size.toNat hlaps
    cases first with
    | widx =>
      cases hs
      exact ⟨hc, hread, hwi, hwidx⟩
    | ridx =>
      cases hs
      exact ⟨hc, hread, hwi, rfl, hlaps, hridx.le, by simp only; omega⟩
  | gotWidx src amount w =>
    rw [hw] at hs hwi
    cases hs
    rw [Threads.Coherent, hw] at hok
    refine ⟨hc, hread, writerInv_decide hwi.1 hlaps ?_⟩
    intro len hl hf
    have hroom := room_of_gotWidx h hw hok hl hf
    refine ⟨hroom, ?_⟩
    intro _
    simp only
    omega
  | gotRidx src amount r =>
    rw [hw] at hs hwi
    cases hs
    obtain ⟨hsrc, hr, hsub, hconsumed, -⟩ := hwi
    rw [Threads.Coherent, hw] at hok
    refine ⟨hc, hread, writerInv_decide hsrc hsub ?_⟩
    intro len hl hf
    have hfit := room_of_gotRidx h hw hf
    refine ⟨?_, fun hlap => hr ▸ hfit hlap⟩
    rcases hok with hlap | hroom
    · have := hfit hlap
      simp only
      omega
    · rw [Threads.room] at hroom
      simp only
      omega
  | address src amount len =>
    rw [Threads.Coherent, hw] at hok
    have hfits := fits_of_address h hw hok
    rw [hw] at hs
    cases hs
    exact ⟨hc, hread, hfits.1, hfits.2, hfits.3, hfits.4⟩
  | copy src len off =>
    rw [hw] at hs hwi
    cases hs
    obtain ⟨hcore, hload⟩ := core_copy h hwi
    exact ⟨hcore, hread, ⟨hwi.1, hwi.2, hwi.3, hwi.4⟩, hload⟩
  | publish src len off =>
    rw [hw] at hs hwi
    cases hs
    exact ⟨core_publish h hwi.1 hwi.2, hread, trivial⟩

/-! ## The reader -/

/-- Only the program point of the reader changes. -/
theorem AtRest.of_reader {s : Threads} (h : AtRest s) (reader : Reader) :
    AtRest { s with reader := reader } :=
  ⟨h.laps, h.ridx_le, h.copied, h.got⟩

theorem Copied.of_reader {s : Threads} {len : SizeT} {dest : List UInt8} (h : Copied s len dest)
    (reader : Reader) : Copied { s with reader := reader } len dest :=
  ⟨h.laps, h.ridx_le, h.fits, h.copied, h.got, h.got_append⟩

theorem Pending.of_reader {s : Threads} {dest : List UInt8} (h : Pending s dest)
    (reader : Reader) : Pending { s with reader := reader } dest :=
  ⟨h.ridx_le, h.copied, h.got_append⟩

/-- The reader has the last load of `widx - ridx`, which says that `used` bytes at least are there
to be read. -/
theorem readerInv_decide {s : Threads} {amount used : SizeT} (h : AtRest s)
    (hused : s.hist.consumed + used.toNat ≤ s.hist.sent.length) :
    ReaderInv { s with reader := .decide amount used } := by
  unfold ReaderInv
  rcases Reader.decide_cases amount used with hd | ⟨len, hd, hl⟩
  · simp only [hd]
    exact h.of_reader _
  · simp only [hd]
    exact ⟨h.of_reader _, by omega⟩

/-- The copy of the reader is the next bytes of the stream. -/
theorem copied_of_copy {s : Threads} (h : ThreadsInv s) (hrest : AtRest s) {len : SizeT}
    (hfits : s.hist.consumed + len.toNat ≤ s.hist.sent.length) :
    s.hist.got ++ Mirror.load s.rbuf.size.toNat s.mem s.rbuf.ridx.toNat len.toNat =
      (s.hist.sent.map Prod.snd).take (s.hist.consumed + len.toNat) := by
  have hc := h.core
  have hmod : s.rbuf.ridx.toNat % s.rbuf.size.toNat =
      s.hist.consumed % s.rbuf.size.toNat := by
    rw [← hc.ridx_eq, Nat.add_mul_mod_self_left]
  rw [Mirror.load_of_mod_eq _ hmod, hrest.got, List.take_add]
  congr 1
  have hunread : len.toNat ≤ s.hist.sent.length - s.hist.consumed := by omega
  rw [← Mirror.take_load hunread, hc.loads]

/-- `ridx += len` consumes what has been copied. -/
theorem core_bump {s : Threads} (h : ThreadsInv s) {len : SizeT} {dest : List UInt8}
    (hcop : Copied s len dest) :
    Core { s.rbuf with ridx := s.rbuf.ridx + len } s.mem s.hist.sent
      (s.hist.consumed + len.toNat) s.hist.swaps s.hist.subs ∧
    (s.rbuf.ridx + len).toNat = s.rbuf.ridx.toNat + len.toNat ∧
    s.rbuf.ridx.toNat + len.toNat ≤ 2 * s.rbuf.size.toNat := by
  have hc := h.core
  have hfits := hcop.fits
  have hridx := hc.ridx_eq
  have hr := hcop.ridx_le
  have hsent := hc.sent_le
  have hlt := hc.size_lt
  have hadd : (s.rbuf.ridx + len).toNat = s.rbuf.ridx.toNat + len.toNat :=
    BitVec.toNat_add_of_lt (by omega)
  refine ⟨⟨hc.size_pos, hc.size_lt, hc.widx_eq, ?_, hfits, ?_, hc.cells, ?_⟩, hadd, by omega⟩
  · simp only [hadd]
    omega
  · simp only
    omega
  · rw [← List.drop_drop, ← hc.loads, Mirror.drop_load (by omega), Nat.sub_add_eq]

/-- The compare-and-swap pulls `widx` back by one lap. -/
theorem core_swap {s : Threads} (h : ThreadsInv s) (hlaps : s.hist.swaps = s.hist.subs)
    (hgt : s.rbuf.size.toNat < s.rbuf.ridx.toNat) :
    Core { s.rbuf with widx := s.rbuf.widx - s.rbuf.size } s.mem s.hist.sent s.hist.consumed
      (s.hist.swaps + 1) s.hist.subs := by
  have hc := h.core
  have hwidx := hc.widx_eq
  have hridx := hc.ridx_eq
  have hle := hc.consumed_le
  rw [hlaps] at hwidx
  have hsub : (s.rbuf.widx - s.rbuf.size).toNat = s.rbuf.widx.toNat - s.rbuf.size.toNat :=
    BitVec.toNat_sub_of_le (by rw [BitVec.le_def]; omega)
  refine ⟨hc.size_pos, hc.size_lt, ?_, hridx, hle, hc.sent_le, hc.cells, hc.loads⟩
  rw [hlaps, Nat.mul_succ]
  simp only [hsub]
  omega

/-- `ridx -= size` pulls `ridx` back by one lap. -/
theorem core_sub {s : Threads} (h : ThreadsInv s)
    (hgt : s.rbuf.size.toNat < s.rbuf.ridx.toNat) :
    Core { s.rbuf with ridx := s.rbuf.ridx - s.rbuf.size } s.mem s.hist.sent s.hist.consumed
      s.hist.swaps (s.hist.subs + 1) ∧
    (s.rbuf.ridx - s.rbuf.size).toNat = s.rbuf.ridx.toNat - s.rbuf.size.toNat := by
  have hc := h.core
  have hridx := hc.ridx_eq
  have hsub : (s.rbuf.ridx - s.rbuf.size).toNat = s.rbuf.ridx.toNat - s.rbuf.size.toNat :=
    BitVec.toNat_sub_of_le (by rw [BitVec.le_def]; omega)
  refine ⟨⟨hc.size_pos, hc.size_lt, hc.widx_eq, ?_, hc.consumed_le, hc.sent_le, hc.cells,
    hc.loads⟩, hsub⟩
  rw [Nat.mul_succ]
  simp only [hsub]
  omega

theorem readerStep_inv {s s' : Threads} {first : Index} (h : ThreadsInv s)
    (hs : readerStep s first = some s') : ThreadsInv s' := by
  have hwrit : WriterInv s' := h.writer.frame (readerStep_frame hs)
  have hri := h.reader
  have hc := h.core
  have hwidx := hc.widx_eq
  have hridx := hc.ridx_eq
  have hle := hc.consumed_le
  unfold readerStep at hs
  unfold ReaderInv at hri
  cases hr : s.reader with
  | idle => simp [hr] at hs
  | entry amount =>
    rw [hr] at hs hri
    cases first with
    | widx =>
      cases hs
      exact ⟨hc, ⟨AtRest.of_reader hri _, by simp only; omega, hwidx.le⟩, hwrit⟩
    | ridx =>
      cases hs
      exact ⟨hc, ⟨AtRest.of_reader hri _, rfl⟩, hwrit⟩
  | gotWidx amount w =>
    rw [hr] at hs hri
    cases hs
    obtain ⟨hrest, hw1, hw2⟩ := hri
    refine ⟨hc, readerInv_decide hrest ?_, hwrit⟩
    rw [hrest.laps] at hw1 hw2
    have hsub : (w - s.rbuf.ridx).toNat = w.toNat - s.rbuf.ridx.toNat :=
      BitVec.toNat_sub_of_le (by rw [BitVec.le_def]; omega)
    omega
  | gotRidx amount r =>
    rw [hr] at hs hri
    cases hs
    obtain ⟨hrest, rfl⟩ := hri
    refine ⟨hc, readerInv_decide hrest ?_, hwrit⟩
    rw [hrest.laps] at hwidx
    have hsub : (s.rbuf.widx - s.rbuf.ridx).toNat = s.rbuf.widx.toNat - s.rbuf.ridx.toNat :=
      BitVec.toNat_sub_of_le (by rw [BitVec.le_def]; omega)
    omega
  | address len =>
    rw [hr] at hs hri
    cases hs
    obtain ⟨hrest, hfits⟩ := hri
    exact ⟨hc, ⟨hrest.of_reader _, hfits, rfl⟩, hwrit⟩
  | copy len off =>
    rw [hr] at hs hri
    cases hs
    obtain ⟨hrest, hfits, rfl⟩ := hri
    refine ⟨hc, ⟨hrest.laps, hrest.ridx_le, hfits, ?_, hrest.got, copied_of_copy h hrest hfits⟩,
      hwrit⟩
    simp only [hrest.copied]
  | bumpLoad len dest =>
    rw [hr] at hs hri
    cases hs
    exact ⟨hc, ⟨Copied.of_reader hri _, rfl⟩, hwrit⟩
  | bumpStore len dest r =>
    rw [hr] at hs hri
    cases hs
    obtain ⟨hcop, rfl⟩ := hri
    obtain ⟨hcore, hadd, h2⟩ := core_bump h hcop
    exact ⟨hcore, ⟨⟨by simp only [hadd]; exact h2, hcop.copied, hcop.got_append⟩, hcop.laps⟩, hwrit⟩
  | check dest =>
    rw [hr] at hs hri
    obtain ⟨hpend, hlaps⟩ := hri
    simp only at hs
    split_ifs at hs with hgt
    · cases hs
      exact ⟨hc, ⟨hpend.of_reader _, hlaps, BitVec.lt_def.mp hgt⟩, hwrit⟩
    · cases hs
      rw [BitVec.lt_def] at hgt
      exact ⟨hc, ⟨hlaps, by simp only; omega, hpend.copied, hpend.got_append⟩, hwrit⟩
  | wrapLoad dest =>
    rw [hr] at hs hri
    cases hs
    obtain ⟨hpend, hlaps, hgt⟩ := hri
    exact ⟨hc, ⟨hpend.of_reader _, hlaps, hgt⟩, hwrit⟩
  | wrapSwap dest temp =>
    rw [hr] at hs hri
    obtain ⟨hpend, hlaps, hgt⟩ := hri
    by_cases htemp : s.rbuf.widx = temp
    · subst htemp
      simp only [atomicCompareAndSwap, if_true, ne_eq, not_true_eq_false, if_false] at hs
      cases hs
      exact ⟨core_swap h hlaps hgt, ⟨⟨hpend.ridx_le, hpend.copied, hpend.got_append⟩,
        by simp only [hlaps], hgt⟩, hwrit⟩
    · simp only [atomicCompareAndSwap, htemp, if_false, ne_eq, not_false_eq_true, if_true] at hs
      cases hs
      exact ⟨hc, ⟨hpend.of_reader _, hlaps, hgt⟩, hwrit⟩
  | subLoad dest =>
    rw [hr] at hs hri
    cases hs
    obtain ⟨hpend, hlaps, hgt⟩ := hri
    exact ⟨hc, ⟨hpend.of_reader _, hlaps, hgt, rfl⟩, hwrit⟩
  | subStore dest r =>
    rw [hr] at hs hri
    cases hs
    obtain ⟨hpend, hlaps, hgt, rfl⟩ := hri
    obtain ⟨hcore, hsub⟩ := core_sub h hgt
    have h2 := hpend.ridx_le
    exact ⟨hcore, ⟨hlaps, by simp only [hsub]; omega, hpend.copied, hpend.got_append⟩, hwrit⟩

end Twd
