import Twd.Ringbuffer.Proofs.QueueProofs
import Twd.Ringbuffer.Proofs.ThreadsProofs

/-!
# Calls that do not overlap

`Threads` takes a call apart into its loads, stores and copies; `ringbufferWrite` and
`ringbufferRead` make it at once. As long as each thread begins a call only while the other one is
in none, the two agree: `WriterLeaves` and `ReaderLeaves` say what is left of the call that has been
begun, and every step leaves the same.
-/

namespace Twd

/-- The call that an action begins. -/
def Action.call : Action → Option Call
  | .write src amount => some (.write src amount)
  | .read amount => some (.read amount)
  | .writer _ | .reader _ => none

/-- A thread begins a call only while the other one is in none. -/
def Threads.Alone (s : Threads) : Action → Prop
  | .write .. => s.reader = .idle
  | .read _ => s.writer = .idle
  | .writer _ | .reader _ => True

instance Threads.decidableAlone (s : Threads) : ∀ a, Decidable (s.Alone a)
  | .write .. | .read _ => inferInstanceAs (Decidable (_ = _))
  | .writer _ | .reader _ => isTrue trivial

/-- How many bytes a call has added. -/
def Result.added : Result → Nat
  | .count n => n
  | .bytes .. | .status _ => 0

/-- The bytes that a call has taken out. -/
def Result.taken : Result → List UInt8
  | .bytes _ dest => dest
  | .count _ | .status _ => []

/-- The ring and the history of single steps tell the same as the ring and the results of calls. -/
structure Agrees (t : Threads) (s : RingState) : Prop where
  rbuf : s.rbuf = t.rbuf
  mem : s.mem = t.mem
  sent : t.hist.sent.length = (s.results.map Result.added).sum
  got : t.hist.got = s.results.flatMap Result.taken

/-! ## What is left of a call -/

/-- The writer is in a call, and the rest of it adds `len` bytes and leaves `rbuf` and `mem`. -/
def WriterLeaves (t : Threads) (rbuf : Ringbuffer) (mem : Memory) (len : SizeT) : Prop :=
  match t.writer with
  | .idle => False
  | .entry src amount => amount.toNat ≤ src.length ∧
      ringbufferWrite t.rbuf t.mem src amount = some (len, rbuf, mem)
  | .gotWidx src amount w => amount.toNat ≤ src.length ∧ w = t.rbuf.widx ∧
      ringbufferWrite t.rbuf t.mem src amount = some (len, rbuf, mem)
  | .gotRidx src amount r => amount.toNat ≤ src.length ∧ r = t.rbuf.ridx ∧
      ringbufferWrite t.rbuf t.mem src amount = some (len, rbuf, mem)
  | .address src _ l => l = len ∧ len.toNat ≤ src.length ∧
      copyIn t.rbuf t.mem t.rbuf.widx (src.take len.toNat) = some mem ∧
      rbuf = { t.rbuf with widx := t.rbuf.widx + len }
  | .copy src l off => l = len ∧ len.toNat ≤ src.length ∧
      copyIn t.rbuf t.mem off (src.take len.toNat) = some mem ∧
      rbuf = { t.rbuf with widx := t.rbuf.widx + len }
  | .publish src l _ => l = len ∧ len.toNat ≤ src.length ∧ mem = t.mem ∧
      rbuf = { t.rbuf with widx := t.rbuf.widx + len }

/-- The reader is in a call, and the rest of it takes `dest` and leaves `rbuf`. -/
def ReaderLeaves (tries : Nat) (t : Threads) (rbuf : Ringbuffer) (dest : List UInt8) : Prop :=
  match t.reader with
  | .idle => False
  | .entry amount => ∃ len,
      ringbufferRead (tries + 1) t.rbuf t.mem amount = some (len, dest, rbuf)
  | .gotWidx amount w => w = t.rbuf.widx ∧ ∃ len,
      ringbufferRead (tries + 1) t.rbuf t.mem amount = some (len, dest, rbuf)
  | .gotRidx amount r => r = t.rbuf.ridx ∧ ∃ len,
      ringbufferRead (tries + 1) t.rbuf t.mem amount = some (len, dest, rbuf)
  | .address len => copyOut t.rbuf t.mem t.rbuf.ridx len = some dest ∧
      rbuf = t.rbuf.afterRead len
  | .copy len off => copyOut t.rbuf t.mem off len = some dest ∧ rbuf = t.rbuf.afterRead len
  | .bumpLoad len d => d = dest ∧ rbuf = t.rbuf.afterRead len
  | .bumpStore len d r => d = dest ∧ r = t.rbuf.ridx ∧ rbuf = t.rbuf.afterRead len
  | .check d => d = dest ∧ rbuf = t.rbuf.afterRead 0
  | .wrapLoad d => d = dest ∧
      rbuf = { t.rbuf with ridx := t.rbuf.ridx - t.rbuf.size, widx := t.rbuf.widx - t.rbuf.size }
  | .wrapSwap d temp => d = dest ∧ temp = t.rbuf.widx ∧
      rbuf = { t.rbuf with ridx := t.rbuf.ridx - t.rbuf.size, widx := t.rbuf.widx - t.rbuf.size }
  | .subLoad d => d = dest ∧ rbuf = { t.rbuf with ridx := t.rbuf.ridx - t.rbuf.size }
  | .subStore d r => d = dest ∧ r = t.rbuf.ridx ∧
      rbuf = { t.rbuf with ridx := t.rbuf.ridx - t.rbuf.size }

theorem WriterLeaves.ne_idle {t : Threads} {rbuf : Ringbuffer} {mem : Memory} {len : SizeT}
    (h : WriterLeaves t rbuf mem len) : t.writer ≠ .idle := by
  intro hw
  rw [WriterLeaves, hw] at h
  exact h

theorem ReaderLeaves.ne_idle {tries : Nat} {t : Threads} {rbuf : Ringbuffer} {dest : List UInt8}
    (h : ReaderLeaves tries t rbuf dest) : t.reader ≠ .idle := by
  intro hr
  rw [ReaderLeaves, hr] at h
  exact h

theorem copyIn_eq_some {rbuf : Ringbuffer} {mem mem' : Memory} {off : SizeT} {bytes : List UInt8}
    (h : copyIn rbuf mem off bytes = some mem') :
    mem' = Mirror.store rbuf.size.toNat mem off.toNat bytes := by
  unfold copyIn at h
  split_ifs at h
  exact (Option.some.inj h).symm

theorem copyOut_eq_some {rbuf : Ringbuffer} {mem : Memory} {off len : SizeT} {dest : List UInt8}
    (h : copyOut rbuf mem off len = some dest) :
    dest = Mirror.load rbuf.size.toNat mem off.toNat len.toNat := by
  unfold copyOut at h
  split_ifs at h
  exact (Option.some.inj h).symm

/-- What is left of `ringbuffer_write` when it has computed `used`. -/
theorem ringbufferWrite_decide {rbuf rbuf' : Ringbuffer} {mem mem' : Memory} {src : List UInt8}
    {amount len : SizeT} (h : ringbufferWrite rbuf mem src amount = some (len, rbuf', mem')) :
    (Writer.decide rbuf.size src amount (ringbufferUsed rbuf) = .idle ∧ rbuf' = rbuf ∧
      mem' = mem ∧ len = 0) ∨
    (Writer.decide rbuf.size src amount (ringbufferUsed rbuf) = .address src amount len ∧
      len.toNat ≤ amount.toNat ∧
      copyIn rbuf mem rbuf.widx (src.take len.toNat) = some mem' ∧
      rbuf' = { rbuf with widx := rbuf.widx + len }) := by
  simp only [ringbufferWrite] at h
  split_ifs at h with hamount hlen
  · obtain ⟨m, hm, hrest⟩ := Option.bind_eq_some_iff.mp h
    cases hrest
    refine .inr ⟨if_pos hlen, ?_, hm, rfl⟩
    rw [toNat_minSizeT]
    exact Nat.min_le_right _ _
  · cases h
    refine .inl ⟨if_neg hlen, rfl, rfl, ?_⟩
    exact not_not.mp fun h0 => hlen ((BitVec.pos_iff_ne_zero _).mpr h0)

/-- What is left of `ringbuffer_read` when it has computed `used`. -/
theorem ringbufferRead_decide {tries : Nat} {rbuf rbuf' : Ringbuffer} {mem : Memory}
    {amount len : SizeT} {dest : List UInt8}
    (h : ringbufferRead (tries + 1) rbuf mem amount = some (len, dest, rbuf')) :
    (Reader.decide amount (ringbufferUsed rbuf) = .idle ∧ rbuf' = rbuf ∧ dest = [] ∧ len = 0) ∨
    (Reader.decide amount (ringbufferUsed rbuf) = .address len ∧
      copyOut rbuf mem rbuf.ridx len = some dest ∧ rbuf' = rbuf.afterRead len) := by
  simp only [ringbufferRead, wrapLoop_succ] at h
  split_ifs at h with hamount hused hwrap
  · obtain ⟨d, hd, hrest⟩ := Option.bind_eq_some_iff.mp h
    cases hrest
    exact .inr ⟨if_pos hused, hd, (if_pos hwrap).symm⟩
  · obtain ⟨d, hd, hrest⟩ := Option.bind_eq_some_iff.mp h
    cases hrest
    exact .inr ⟨if_pos hused, hd, (if_neg hwrap).symm⟩
  · cases h
    exact .inl ⟨if_neg hused, rfl, rfl, rfl⟩

/-- Moving `ridx` is what a read does before it looks whether `ridx` is past the end. -/
theorem afterRead_bump (rbuf : Ringbuffer) (len : SizeT) :
    ({ rbuf with ridx := rbuf.ridx + len } : Ringbuffer).afterRead 0 = rbuf.afterRead len := by
  simp [Ringbuffer.afterRead]

theorem afterRead_zero (rbuf : Ringbuffer) :
    rbuf.afterRead 0 = if rbuf.size < rbuf.ridx then
      { rbuf with ridx := rbuf.ridx - rbuf.size, widx := rbuf.widx - rbuf.size } else rbuf := by
  simp [Ringbuffer.afterRead]

/-! ## Every step leaves the same -/

/-- What a step of the writer's call comes to: the call goes on and leaves the same, or it has returned
`len`. -/
inductive WriterOutcome (t t' : Threads) (rbuf : Ringbuffer) (mem : Memory) (len : SizeT) : Prop
  | goesOn (hleaves : WriterLeaves t' rbuf mem len) (hsent : t'.hist.sent = t.hist.sent)
  | returns (hidle : t'.writer = .idle) (hcount : t.writer.count = len) (hrbuf : t'.rbuf = rbuf)
      (hmem : t'.mem = mem) (hsent : t'.hist.sent.length = t.hist.sent.length + len.toNat)

/-- What a step of the reader's call comes to: the call goes on and leaves the same, or it has
returned `dest`. -/
inductive ReaderOutcome (tries : Nat) (t t' : Threads) (rbuf : Ringbuffer) (dest : List UInt8) :
    Prop
  | goesOn (hleaves : ReaderLeaves tries t' rbuf dest) (hgot : t'.hist.got = t.hist.got)
  | returns (hidle : t'.reader = .idle) (hdest : t.reader.dest = dest) (hrbuf : t'.rbuf = rbuf)
      (hgot : t'.hist.got = t.hist.got ++ dest)

/-- The writer has the last load of `widx - ridx`. -/
theorem writerOutcome_decide {t : Threads} {rbuf : Ringbuffer} {mem : Memory} {len : SizeT}
    {src : List UInt8} {amount : SizeT} {hist : History} (hcount : t.writer.count = 0)
    (hsrc : amount.toNat ≤ src.length) (hsent : hist.sent = t.hist.sent)
    (hcall : ringbufferWrite t.rbuf t.mem src amount = some (len, rbuf, mem)) :
    WriterOutcome t { t with
      writer := .decide t.rbuf.size src amount (ringbufferUsed t.rbuf)
      hist := hist } rbuf mem len := by
  rcases ringbufferWrite_decide hcall with ⟨hd, rfl, rfl, rfl⟩ | ⟨hd, hle, hrest⟩
  · rw [hd]
    exact .returns rfl hcount rfl rfl (congrArg List.length hsent)
  · rw [hd]
    exact .goesOn ⟨rfl, hle.trans hsrc, hrest⟩ hsent

/-- The reader has the last load of `widx - ridx`. -/
theorem readerOutcome_decide {tries : Nat} {t : Threads} {rbuf : Ringbuffer} {amount len : SizeT}
    {dest : List UInt8} (hdest : t.reader.dest = [])
    (hcall : ringbufferRead (tries + 1) t.rbuf t.mem amount = some (len, dest, rbuf)) :
    ReaderOutcome tries t { t with reader := .decide amount (ringbufferUsed t.rbuf) } rbuf
      dest := by
  rcases ringbufferRead_decide hcall with ⟨hd, rfl, rfl, -⟩ | ⟨hd, hrest⟩
  · rw [hd]
    exact .returns rfl hdest rfl (List.append_nil _).symm
  · rw [hd]
    exact .goesOn hrest rfl

/-- The loads of `ringbuffer_write` find what the whole call finds, its copy and its addition do the
rest. -/
theorem writerStep_leaves {t t' : Threads} {first : Index} {rbuf : Ringbuffer} {mem : Memory}
    {len : SizeT} (h : WriterLeaves t rbuf mem len) (hs : writerStep t first = some t') :
    WriterOutcome t t' rbuf mem len := by
  unfold writerStep at hs
  unfold WriterLeaves at h
  cases hw : t.writer with
  | idle => simp [hw] at hs
  | entry src amount =>
    rw [hw] at hs h
    cases first with
    | widx =>
      cases hs
      exact .goesOn ⟨h.1, rfl, h.2⟩ rfl
    | ridx =>
      cases hs
      exact .goesOn ⟨h.1, rfl, h.2⟩ rfl
  | gotWidx src amount w =>
    rw [hw] at hs h
    obtain ⟨hsrc, rfl, hcall⟩ := h
    cases hs
    exact writerOutcome_decide (by rw [hw]; rfl) hsrc rfl hcall
  | gotRidx src amount r =>
    rw [hw] at hs h
    obtain ⟨hsrc, rfl, hcall⟩ := h
    cases hs
    exact writerOutcome_decide (by rw [hw]; rfl) hsrc rfl hcall
  | address src amount l =>
    rw [hw] at hs h
    cases hs
    exact .goesOn h rfl
  | copy src l off =>
    rw [hw] at hs h
    obtain ⟨rfl, hsrc, hcopy, hrbuf⟩ := h
    cases hs
    exact .goesOn ⟨rfl, hsrc, copyIn_eq_some hcopy, hrbuf⟩ rfl
  | publish src l off =>
    rw [hw] at hs h
    obtain ⟨rfl, hsrc, hmem, hrbuf⟩ := h
    cases hs
    refine .returns rfl (by rw [hw]; rfl) hrbuf.symm hmem.symm ?_
    simp [sentBytes, hsrc]

/-- The loads of `ringbuffer_read` find what the whole call finds, its copy and its stores do the
rest, and no compare-and-swap fails. -/
theorem readerStep_leaves {tries : Nat} {t t' : Threads} {first : Index} {rbuf : Ringbuffer}
    {dest : List UInt8} (h : ReaderLeaves tries t rbuf dest) (hs : readerStep t first = some t') :
    ReaderOutcome tries t t' rbuf dest := by
  unfold readerStep at hs
  unfold ReaderLeaves at h
  cases hr : t.reader with
  | idle => simp [hr] at hs
  | entry amount =>
    rw [hr] at hs h
    cases first with
    | widx =>
      cases hs
      exact .goesOn ⟨rfl, h⟩ rfl
    | ridx =>
      cases hs
      exact .goesOn ⟨rfl, h⟩ rfl
  | gotWidx amount w =>
    rw [hr] at hs h
    obtain ⟨rfl, len, hcall⟩ := h
    cases hs
    exact readerOutcome_decide (by rw [hr]; rfl) hcall
  | gotRidx amount r =>
    rw [hr] at hs h
    obtain ⟨rfl, len, hcall⟩ := h
    cases hs
    exact readerOutcome_decide (by rw [hr]; rfl) hcall
  | address len =>
    rw [hr] at hs h
    cases hs
    exact .goesOn h rfl
  | copy len off =>
    rw [hr] at hs h
    cases hs
    exact .goesOn ⟨(copyOut_eq_some h.1).symm, h.2⟩ rfl
  | bumpLoad len d =>
    rw [hr] at hs h
    cases hs
    exact .goesOn ⟨h.1, rfl, h.2⟩ rfl
  | bumpStore len d r =>
    rw [hr] at hs h
    obtain ⟨hd, rfl, hrbuf⟩ := h
    cases hs
    exact .goesOn ⟨hd, by rw [hrbuf, afterRead_bump]⟩ rfl
  | check d =>
    rw [hr] at hs h
    obtain ⟨rfl, hrbuf⟩ := h
    rw [afterRead_zero] at hrbuf
    simp only at hs
    split_ifs at hs hrbuf with hgt
    · cases hs
      exact .goesOn ⟨rfl, hrbuf⟩ rfl
    · cases hs
      exact .returns rfl (by rw [hr]; rfl) hrbuf.symm rfl
  | wrapLoad d =>
    rw [hr] at hs h
    cases hs
    exact .goesOn ⟨h.1, rfl, h.2⟩ rfl
  | wrapSwap d temp =>
    rw [hr] at hs h
    obtain ⟨hd, rfl, hrbuf⟩ := h
    simp only [atomicCompareAndSwap, if_true, ne_eq, not_true_eq_false, if_false] at hs
    cases hs
    exact .goesOn ⟨hd, hrbuf⟩ rfl
  | subLoad d =>
    rw [hr] at hs h
    cases hs
    exact .goesOn ⟨h.1, rfl, h.2⟩ rfl
  | subStore d r =>
    rw [hr] at hs h
    obtain ⟨rfl, rfl, hrbuf⟩ := h
    cases hs
    exact .returns rfl (by rw [hr]; rfl) hrbuf.symm rfl

/-! ## Runs -/

/-- The calls, each made at once as soon as it has begun, are ahead of the steps by what is left of
the last one. -/
inductive Ahead (tries : Nat) (t : Threads) (s : RingState) : Prop
  /-- No call is left. -/
  | rest (hw : t.writer = .idle) (hr : t.reader = .idle) (hagrees : Agrees t s)
  | writer (hr : t.reader = .idle) (len : SizeT) (hleaves : WriterLeaves t s.rbuf s.mem len)
      (hsent : t.hist.sent.length + len.toNat = (s.results.map Result.added).sum)
      (hgot : t.hist.got = s.results.flatMap Result.taken)
  | reader (hw : t.writer = .idle) (dest : List UInt8)
      (hleaves : ReaderLeaves tries t s.rbuf dest) (hmem : s.mem = t.mem)
      (hsent : t.hist.sent.length = (s.results.map Result.added).sum)
      (hgot : t.hist.got ++ dest = s.results.flatMap Result.taken)

/-- When no call is left, there is nothing to be ahead of. -/
theorem Ahead.agrees {tries : Nat} {t : Threads} {s : RingState} (h : Ahead tries t s)
    (hw : t.writer = .idle) (hr : t.reader = .idle) : Agrees t s := by
  cases h with
  | rest _ _ hagrees => exact hagrees
  | writer _ _ hleaves => exact absurd hw hleaves.ne_idle
  | reader _ _ hleaves => exact absurd hr hleaves.ne_idle

/-- The correspondence of a run: the ring holds some bytes between any two calls. -/
def Follows (tries : Nat) (t : Threads) (s : RingState) : Prop :=
  (∃ items, Holds s.rbuf s.mem items) ∧ Ahead tries t s

theorem Follows.write {tries : Nat} {t : Threads} {s : RingState} (h : Follows tries t s)
    (hw : t.writer = .idle) (hr : t.reader = .idle) {src : List UInt8} {amount : SizeT}
    (hpos : 0 < amount) (hsrc : amount.toNat ≤ src.length) :
    ∃ s', Call.exec (tries + 1) s (.write src amount) = some s' ∧
      Follows tries { t with writer := .entry src amount } s' := by
  obtain ⟨⟨items, hh⟩, hahead⟩ := h
  obtain ⟨hrbuf, hmem, hsent, hgot⟩ := hahead.agrees hw hr
  obtain ⟨len, rbuf, mem, hcall, -, -, hh'⟩ := ringbufferWrite_spec hh hpos hsrc
  refine ⟨⟨rbuf, mem, s.results ++ [.count len.toNat]⟩, by simp [Call.exec, hcall],
    ⟨_, hh'⟩, .writer hr len ⟨hsrc, ?_⟩ ?_ ?_⟩
  · rw [← hrbuf, ← hmem]
    exact hcall
  · simp [hsent, Result.added]
  · simp [hgot, Result.taken]

theorem Follows.read {tries : Nat} {t : Threads} {s : RingState} (h : Follows tries t s)
    (hw : t.writer = .idle) (hr : t.reader = .idle) {amount : SizeT} (hpos : 0 < amount) :
    ∃ s', Call.exec (tries + 1) s (.read amount) = some s' ∧
      Follows tries { t with reader := .entry amount } s' := by
  obtain ⟨⟨items, hh⟩, hahead⟩ := h
  obtain ⟨hrbuf, hmem, hsent, hgot⟩ := hahead.agrees hw hr
  obtain ⟨len, rbuf, hcall, -, -, hh'⟩ := ringbufferRead_spec hh hpos tries
  refine ⟨⟨rbuf, s.mem, s.results ++ [.bytes len.toNat (items.take amount.toNat)]⟩,
    by simp [Call.exec, hcall], ⟨_, hh'⟩,
    .reader hw (items.take amount.toNat) ⟨len, ?_⟩ hmem ?_ ?_⟩
  · rw [← hrbuf, ← hmem]
    exact hcall
  · simp [hsent, Result.added]
  · simp [hgot, Result.taken]

/-- To begin a call is to make it. -/
theorem call_follows (tries : Nat) (t : Threads) (s : RingState) (a : Action) (t' : Threads)
    (c : Call) (h : Follows tries t s) (halone : t.Alone a) (hs : t.step a = some t')
    (hc : a.call = some c) :
    ∃ s', Call.exec (tries + 1) s c = some s' ∧ Follows tries t' s' := by
  cases a with
  | write src amount =>
    rw [Threads.step] at hs
    split_ifs at hs with hcall
    cases hs
    cases hc
    exact h.write hcall.1 halone hcall.2.1 hcall.2.2
  | read amount =>
    rw [Threads.step] at hs
    split_ifs at hs with hcall
    cases hs
    cases hc
    exact h.read halone hcall.1 hcall.2
  | writer first | reader first => cases hc

/-- Every other step is silent. -/
theorem silent_follows (tries : Nat) (t : Threads) (s : RingState) (a : Action) (t' : Threads)
    (h : Follows tries t s) (hs : t.step a = some t') (hc : a.call = none) :
    Follows tries t' s := by
  refine ⟨h.1, ?_⟩
  cases a with
  | write src amount | read amount => cases hc
  | writer first =>
    have hframe := writerStep_frame hs
    cases h.2 with
    | rest hw | reader hw => simp [Threads.step, writerStep, hw] at hs
    | writer hr len hleaves hsent hgot =>
      have hr' := hframe.reader.trans hr
      have hgot' := hframe.got.trans hgot
      cases writerStep_leaves hleaves hs with
      | goesOn hleaves' hsame => exact .writer hr' len hleaves' (hsame ▸ hsent) hgot'
      | returns hw' _ hrbuf hmem hadded =>
        exact .rest hw' hr' ⟨hrbuf.symm, hmem.symm, hadded.trans hsent, hgot'⟩
  | reader first =>
    have hframe := readerStep_frame hs
    cases h.2 with
    | rest hw hr => simp [Threads.step, readerStep, hr] at hs
    | writer hr => simp [Threads.step, readerStep, hr] at hs
    | reader hw dest hleaves hmem hsent hgot =>
      have hw' := hframe.writer.trans hw
      have hmem' := hmem.trans hframe.mem.symm
      have hsent' := hframe.sent ▸ hsent
      cases readerStep_leaves hleaves hs with
      | goesOn hleaves' hsame => exact .reader hw' dest hleaves' hmem' hsent' (hsame ▸ hgot)
      | returns hr' _ hrbuf htaken =>
        exact .rest hw' hr' ⟨hrbuf.symm, hmem', hsent', htaken.trans hgot⟩

/-- **Calls that do not overlap are calls made at once**: whatever the order of the loads in each,
a run whose calls do not overlap ends with the ring, the cells, the counts and the bytes that the
same calls have one after the other. -/
theorem threads_alone (size : SizeT) (hpos : 0 < size.toNat) (hlt : 2 * size.toNat < 2 ^ 64)
    (mem : Memory) (tries : Nat) (as : List Action) (t : Threads)
    (halone : Machine.Meets Threads.step Threads.Alone (Threads.init size mem) as)
    (hrun : Machine.run Threads.step (Threads.init size mem) as = some t)
    (hw : t.writer = .idle) (hr : t.reader = .idle) :
    ∃ s, Machine.run (Call.exec (tries + 1)) (RingState.init size mem)
      (as.filterMap Action.call) = some s ∧ Agrees t s := by
  have h0 : Follows tries (Threads.init size mem) (RingState.init size mem) :=
    ⟨⟨[], Holds.init size mem hpos hlt⟩, .rest rfl rfl ⟨rfl, rfl, rfl, rfl⟩⟩
  obtain ⟨s, hs, hfollows⟩ := Machine.run_stutters
    (fun t s a t' h _ => silent_follows tries t s a t' h) (call_follows tries) h0 halone hrun
  exact ⟨s, hs, hfollows.2.agrees hw hr⟩

/-- Two bytes and then one more, each thread waiting for the other; the second read pulls both
indices back. -/
def inTurn : List Action :=
  .write [7, 8] 2 :: List.replicate 5 (.writer .ridx) ++
    .read 2 :: List.replicate 7 (.reader .widx) ++
    .write [9] 1 :: List.replicate 5 (.writer .widx) ++
    .read 1 :: List.replicate 11 (.reader .ridx)

theorem threads_alone_inTurn :
    ∃ t s, Machine.run Threads.step (Threads.init 2 fun _ => 0) inTurn = some t ∧
      t.hist.got = [7, 8, 9] ∧
      Machine.run (Call.exec 1) (RingState.init 2 fun _ => 0)
        [.write [7, 8] 2, .read 2, .write [9] 1, .read 1] = some s ∧ Agrees t s := by
  have hrun : (Machine.run Threads.step (Threads.init 2 fun _ => 0) inTurn).map
      (fun t => (t.hist.got, t.writer, t.reader)) = some ([7, 8, 9], .idle, .idle) := by
    decide +kernel
  obtain ⟨t, ht, hp⟩ := Option.map_eq_some_iff.mp hrun
  obtain ⟨hgot, hp⟩ := Prod.mk.inj hp
  obtain ⟨hw, hr⟩ := Prod.mk.inj hp
  obtain ⟨s, hs, hagrees⟩ := threads_alone 2 (by decide) (by decide) (fun _ => 0) 0 inTurn t
    (by decide +kernel) ht hw hr
  exact ⟨t, s, ht, hgot, hs, hagrees⟩

end Twd
