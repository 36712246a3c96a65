import Twd.Ringbuffer.Proofs.ThreadsStepProofs

/-!
# The two threads: how many steps their calls take

A call of `ringbuffer_write` takes five steps. One of `ringbuffer_read` takes eleven, and two more
for every compare-and-swap that fails, which takes an addition of the writer in between. So neither
thread can keep the other in its call by doing nothing.
-/

namespace Twd

/-- A thread calls a function, or takes a step in its call. -/
inductive Action.Kind
  | write
  | read
  | writer
  | reader
  deriving DecidableEq, Repr

def Action.kind : Action → Action.Kind
  | .write .. => .write
  | .read _ => .read
  | .writer _ => .writer
  | .reader _ => .reader

/-- Counts the actions of a kind. -/
def Threads.counts (k : Action.Kind) (_ : Threads) (a : Action) : Nat := if a.kind = k then 1 else 0

/-- The writer is about to add to `widx`. -/
def Writer.adds : Writer → Nat
  | .publish .. => 1
  | .idle | .entry .. | .gotWidx .. | .gotRidx .. | .address .. | .copy .. => 0

/-- The reader is about to compare and swap, and `widx` is not what it loaded. -/
def Reader.fails (widx : SizeT) : Reader → Nat
  | .wrapSwap _ temp => if widx = temp then 0 else 1
  | _ => 0

/-- An addition to `widx` takes place. -/
def Threads.adds (s : Threads) : Action → Nat
  | .writer _ => s.writer.adds
  | .write .. | .read _ | .reader _ => 0

/-- A compare-and-swap of the reader fails. -/
def Threads.fails (s : Threads) : Action → Nat
  | .reader _ => s.reader.fails s.rbuf.widx
  | .write .. | .read _ | .writer _ => 0

/-- What the calls of two threads cost in the run `as` from `s` to `s'`. -/
structure Progress (s : Threads) (as : List Action) (s' : Threads) : Prop where
  /-- Each failed compare-and-swap is due to another addition of the writer. -/
  fails_le : Machine.total Threads.step Threads.fails s as ≤
    Machine.total Threads.step Threads.adds s as
  adds_le : Machine.total Threads.step Threads.adds s as ≤
    Machine.total Threads.step (Threads.counts .write) s as
  writer_le : Machine.total Threads.step (Threads.counts .writer) s as ≤
    5 * Machine.total Threads.step (Threads.counts .write) s as
  reader_le : Machine.total Threads.step (Threads.counts .reader) s as ≤
    11 * Machine.total Threads.step (Threads.counts .read) s as +
      2 * Machine.total Threads.step Threads.fails s as
  /-- Until the writer calls again it takes at most the steps of one call. -/
  writer_call : ∀ bs t, Machine.run Threads.step s' bs = some t → (∀ b ∈ bs, b.kind ≠ .write) →
    Machine.total Threads.step (Threads.counts .writer) s' bs ≤ 5
  reader_call : ∀ bs t, Machine.run Threads.step s' bs = some t → (∀ b ∈ bs, b.kind ≠ .read) →
    Machine.total Threads.step (Threads.counts .reader) s' bs ≤
      11 + 2 * Machine.total Threads.step Threads.fails s' bs
  /-- A thread in a call can take its next step. -/
  writer_moves : s'.writer ≠ .idle → ∀ first, ∃ t, s'.step (.writer first) = some t
  reader_moves : s'.reader ≠ .idle → ∀ first, ∃ t, s'.step (.reader first) = some t
  /-- If no further calls start, those under way end. -/
  ends : ∀ bs t, Machine.run Threads.step s' bs = some t →
    (∀ b ∈ bs, b.kind = .writer ∨ b.kind = .reader) → bs.length ≤ 18

/-- The most steps that the writer still has to take in its call. -/
def Writer.left : Writer → Nat
  | .idle => 0
  | .entry .. => 5
  | .gotWidx .. | .gotRidx .. => 4
  | .address .. => 3
  | .copy .. => 2
  | .publish .. => 1

/-- The most steps that the reader still has to take in its call if no compare-and-swap fails. -/
def Reader.left : Reader → Nat
  | .idle => 0
  | .entry _ => 11
  | .gotWidx .. | .gotRidx .. => 10
  | .address _ => 9
  | .copy .. => 8
  | .bumpLoad .. => 7
  | .bumpStore .. => 6
  | .check _ => 5
  | .wrapLoad _ => 4
  | .wrapSwap .. => 3
  | .subLoad _ => 2
  | .subStore .. => 1

theorem Writer.left_decide (size : SizeT) (src : List UInt8) (amount used : SizeT) :
    (Writer.decide size src amount used).left ≤ 3 := by
  rcases Writer.decide_cases size src amount used with hd | ⟨len, hd, -⟩
  · rw [hd]
    decide
  · rw [hd]
    exact le_rfl

theorem Reader.left_decide (amount used : SizeT) : (Reader.decide amount used).left ≤ 9 := by
  rcases Reader.decide_cases amount used with hd | ⟨len, hd, -⟩
  · rw [hd]
    decide
  · rw [hd]
    exact le_rfl

theorem Reader.fails_le_one (widx : SizeT) (r : Reader) : r.fails widx ≤ 1 := by
  cases r with
  | wrapSwap dest temp =>
    rw [Reader.fails]
    split_ifs <;> decide
  | _ => exact Nat.zero_le 1

theorem Reader.fails_decide (widx amount used : SizeT) :
    (Reader.decide amount used).fails widx = 0 := by
  rcases Reader.decide_cases amount used with hd | ⟨len, hd, -⟩
  · rw [hd]
    rfl
  · rw [hd]
    rfl

/-- A step of the writer is one step nearer to the end of its call. -/
theorem writerStep_left {s s' : Threads} {first : Index} (hs : writerStep s first = some s') :
    s'.writer.left + 1 ≤ s.writer.left := by
  unfold writerStep at hs
  cases hw : s.writer with
  | idle => simp [hw] at hs
  | entry src amount =>
    rw [hw] at hs
    cases first with
    | widx | ridx =>
      cases hs
      exact le_rfl
  | gotWidx src amount w | gotRidx src amount r =>
    rw [hw] at hs
    cases hs
    exact Nat.succ_le_succ (Writer.left_decide ..)
  | address src amount len | copy src len off | publish src len off =>
    rw [hw] at hs
    cases hs
    exact le_rfl

/-- So is a step of the reader, unless its compare-and-swap fails: then it is one step further away
and has to be taken again. -/
theorem readerStep_left {s s' : Threads} {first : Index} (hs : readerStep s first = some s') :
    s'.reader.left + 1 ≤ s.reader.left + 2 * s.reader.fails s.rbuf.widx := by
  unfold readerStep at hs
  cases hr : s.reader with
  | idle => simp [hr] at hs
  | entry amount =>
    rw [hr] at hs
    cases first with
    | widx | ridx =>
      cases hs
      exact le_rfl
  | gotWidx amount w | gotRidx amount r =>
    rw [hr] at hs
    cases hs
    exact Nat.succ_le_succ (Reader.left_decide ..)
  | address len | copy len off | bumpLoad len dest | bumpStore len dest r | wrapLoad dest
  | subLoad dest | subStore dest r =>
    rw [hr] at hs
    cases hs
    exact le_rfl
  | check dest =>
    rw [hr] at hs
    simp only at hs
    split_ifs at hs with hgt
    · cases hs
      exact le_rfl
    · cases hs
      exact Nat.le_add_left 1 4
  | wrapSwap dest temp =>
    rw [hr] at hs
    by_cases htemp : s.rbuf.widx = temp
    · subst htemp
      simp only [atomicCompareAndSwap, if_true, ne_eq, not_true_eq_false, if_false] at hs
      cases hs
      exact Nat.le_add_right _ _
    · simp only [atomicCompareAndSwap, htemp, if_false, ne_eq, not_false_eq_true, if_true] at hs
      cases hs
      simp [Reader.left, Reader.fails, htemp]

/-- Only an addition of the writer makes a compare-and-swap fail. -/
theorem writerStep_fails {s s' : Threads} {first : Index} (hs : writerStep s first = some s') :
    s'.reader.fails s'.rbuf.widx ≤ s.reader.fails s.rbuf.widx + s.writer.adds := by
  have hreader := (writerStep_frame hs).reader
  unfold writerStep at hs
  cases hw : s.writer with
  | idle => simp [hw] at hs
  | entry src amount =>
    rw [hw] at hs
    cases first with
    | widx | ridx =>
      cases hs
      exact Nat.le_add_right _ _
  | gotWidx src amount w | gotRidx src amount r | address src amount len | copy src len off =>
    rw [hw] at hs
    cases hs
    exact Nat.le_add_right _ _
  | publish src len off =>
    rw [hw] at hs
    cases hs
    exact (Reader.fails_le_one _ _).trans (Nat.le_add_left _ _)

/-- After a step of the reader, `widx` is what it has loaded last. -/
theorem readerStep_fails {s s' : Threads} {first : Index} (hs : readerStep s first = some s') :
    s'.reader.fails s'.rbuf.widx = 0 := by
  unfold readerStep at hs
  cases hr : s.reader with
  | idle => simp [hr] at hs
  | entry amount =>
    rw [hr] at hs
    cases first with
    | widx | ridx =>
      cases hs
      rfl
  | gotWidx amount w | gotRidx amount r =>
    rw [hr] at hs
    cases hs
    exact Reader.fails_decide ..
  | address len | copy len off | bumpLoad len dest | bumpStore len dest r | subLoad dest
  | subStore dest r =>
    rw [hr] at hs
    cases hs
    rfl
  | check dest =>
    rw [hr] at hs
    simp only at hs
    split_ifs at hs <;> cases hs <;> rfl
  | wrapLoad dest =>
    rw [hr] at hs
    cases hs
    exact if_pos rfl
  | wrapSwap dest temp =>
    rw [hr] at hs
    simp only at hs
    split_ifs at hs <;> cases hs <;> rfl

theorem Writer.left_of_adds (w : Writer) : w.adds = 0 ∨ w.left = 1 ∧ w.adds = 1 := by
  cases w with
  | publish src len off => exact .inr ⟨rfl, rfl⟩
  | _ => exact .inl rfl

theorem Writer.left_le (w : Writer) : w.left ≤ 5 := by
  cases w <;> simp [Writer.left]

theorem Reader.left_le (r : Reader) (widx : SizeT) : r.left + 2 * r.fails widx ≤ 11 := by
  cases r with
  | wrapSwap dest temp =>
    have := Reader.fails_le_one widx (.wrapSwap dest temp)
    simp only [Reader.left]
    omega
  | _ => simp [Reader.left, Reader.fails]

/-! ## Steps of the machine -/

theorem step_fails (s : Threads) (a : Action) (s' : Threads) (hs : s.step a = some s') :
    s'.reader.fails s'.rbuf.widx + s.fails a ≤ s.reader.fails s.rbuf.widx + s.adds a := by
  cases a with
  | write src amount =>
    rw [Threads.step] at hs
    split_ifs at hs
    cases hs
    exact le_rfl
  | read amount =>
    rw [Threads.step] at hs
    split_ifs at hs
    cases hs
    exact Nat.zero_le _
  | writer first => exact writerStep_fails hs
  | reader first =>
    rw [readerStep_fails hs]
    simp only [Threads.fails]
    omega

/-- The writer, as far as its steps and its additions are concerned. -/
theorem step_writer (s : Threads) (a : Action) (s' : Threads) (hs : s.step a = some s') :
    s'.writer.left + s.counts .writer a ≤ s.writer.left + 5 * s.counts .write a ∧
      min s'.writer.left 1 + s.adds a ≤ min s.writer.left 1 + s.counts .write a := by
  cases a with
  | write src amount =>
    rw [Threads.step] at hs
    split_ifs at hs with hcall
    cases hs
    rw [hcall.1]
    exact ⟨le_rfl, le_rfl⟩
  | read amount =>
    rw [Threads.step] at hs
    split_ifs at hs
    cases hs
    exact ⟨le_rfl, le_rfl⟩
  | writer first =>
    have hleft : s'.writer.left + 1 ≤ s.writer.left := writerStep_left hs
    simp only [Threads.counts, Action.kind, Threads.adds]
    rcases s.writer.left_of_adds with hadds | ⟨hone, hadds⟩
    · simp
      omega
    · simp
      omega
  | reader first =>
    rw [(readerStep_frame hs).writer]
    exact ⟨le_rfl, le_rfl⟩

theorem step_reader (s : Threads) (a : Action) (s' : Threads) (hs : s.step a = some s') :
    s'.reader.left + s.counts .reader a ≤
      s.reader.left + (11 * s.counts .read a + 2 * s.fails a) := by
  cases a with
  | write src amount =>
    rw [Threads.step] at hs
    split_ifs at hs
    cases hs
    exact le_rfl
  | read amount =>
    rw [Threads.step] at hs
    split_ifs at hs with hcall
    cases hs
    rw [hcall.1]
    exact le_rfl
  | writer first =>
    rw [(writerStep_frame hs).reader]
    exact le_rfl
  | reader first =>
    have hleft := readerStep_left hs
    simp only [Threads.counts, Action.kind, Threads.fails]
    simp
    omega

/-- The most steps that the two threads still have to take if no further calls start: an addition
can make one more compare-and-swap fail, which has then to be taken again. -/
def Threads.left (s : Threads) : Nat :=
  s.writer.left + 2 * min s.writer.left 1 + s.reader.left + 2 * s.reader.fails s.rbuf.widx

theorem Threads.left_le (s : Threads) : s.left ≤ 18 := by
  have hw := s.writer.left_le
  have hr := s.reader.left_le s.rbuf.widx
  unfold Threads.left
  omega

theorem step_left (s : Threads) (a : Action) (s' : Threads) (hs : s.step a = some s') :
    s'.left + 1 ≤ s.left + (8 * s.counts .write a + 12 * s.counts .read a) := by
  have hw := step_writer s a s' hs
  have hr := step_reader s a s' hs
  have hf := step_fails s a s' hs
  unfold Threads.left
  cases a with
  | write src amount | read amount | writer first | reader first =>
    simp only [Threads.counts, Action.kind, Threads.adds, Threads.fails] at hw hr hf ⊢
    simp at hw hr hf ⊢
    omega

theorem writerStep_isSome {s : Threads} (h : s.writer ≠ .idle) (first : Index) :
    ∃ t, writerStep s first = some t := by
  unfold writerStep
  cases hw : s.writer with
  | idle => exact absurd hw h
  | entry src amount => cases first <;> exact ⟨_, rfl⟩
  | _ => exact ⟨_, rfl⟩

theorem readerStep_isSome {s : Threads} (h : s.reader ≠ .idle) (first : Index) :
    ∃ t, readerStep s first = some t := by
  unfold readerStep
  cases hr : s.reader with
  | idle => exact absurd hr h
  | entry amount => cases first <;> exact ⟨_, rfl⟩
  | check dest =>
    simp only
    split_ifs <;> exact ⟨_, rfl⟩
  | wrapSwap dest temp =>
    simp only
    split_ifs <;> exact ⟨_, rfl⟩
  | _ => exact ⟨_, rfl⟩

/-- A run without further calls ends. -/
theorem length_le_of_steps {s t : Threads} {as : List Action}
    (hrun : Machine.run Threads.step s as = some t)
    (hkind : ∀ a ∈ as, a.kind = .writer ∨ a.kind = .reader) : as.length ≤ 18 := by
  have hone : Machine.total Threads.step (fun _ _ => 1) s as = as.length * 1 :=
    Machine.total_const (fun _ _ _ => rfl) hrun
  have hzero : Machine.total Threads.step
      (fun s a => 8 * s.counts .write a + 12 * s.counts .read a) s as = as.length * 0 := by
    refine Machine.total_const (fun a ha s => ?_) hrun
    rcases hkind a ha with hk | hk
    · simp [Threads.counts, hk]
    · simp [Threads.counts, hk]
  have hpaid := Machine.run_amortised step_left hrun
  rw [hone, hzero] at hpaid
  have := s.left_le
  omega

theorem total_counts_eq_zero {k : Action.Kind} {s t : Threads} {as : List Action}
    (hrun : Machine.run Threads.step s as = some t) (hkind : ∀ a ∈ as, a.kind ≠ k) :
    Machine.total Threads.step (Threads.counts k) s as = 0 :=
  Machine.total_const (n := 0) (fun a ha _ => if_neg (hkind a ha)) hrun

/-- Without another call of `ringbuffer_write` the writer ends the one it is in. -/
theorem writer_total_le {s t : Threads} {as : List Action}
    (hrun : Machine.run Threads.step s as = some t) (hkind : ∀ a ∈ as, a.kind ≠ .write) :
    Machine.total Threads.step (Threads.counts .writer) s as ≤ 5 := by
  have hpaid := Machine.run_amortised (fun s a s' hs => (step_writer s a s' hs).1) hrun
  rw [Machine.total_mul, total_counts_eq_zero hrun hkind] at hpaid
  have hleft := s.writer.left_le
  omega

theorem reader_total_le {s t : Threads} {as : List Action}
    (hrun : Machine.run Threads.step s as = some t) (hkind : ∀ a ∈ as, a.kind ≠ .read) :
    Machine.total Threads.step (Threads.counts .reader) s as ≤
      11 + 2 * Machine.total Threads.step Threads.fails s as := by
  have hpaid := Machine.run_amortised step_reader hrun
  rw [Machine.total_add, Machine.total_mul, Machine.total_mul, total_counts_eq_zero hrun hkind]
    at hpaid
  have hleft := s.reader.left_le s.rbuf.widx
  omega

/-- **Calls end**: in every run of a writing and a reading thread, whatever the order of their
steps, a call of `ringbuffer_write` takes at most five steps, and one of `ringbuffer_read` eleven
and two for every compare-and-swap that fails during it, of which there are in all not more than
additions of the writer. Neither thread ever waits for the other. -/
theorem threads_progress (size : SizeT) (mem : Memory) (as : List Action) (s : Threads)
    (hrun : Machine.run Threads.step (Threads.init size mem) as = some s) :
    Progress (Threads.init size mem) as s where
  fails_le := by
    have hpaid := Machine.run_amortised step_fails hrun
    have h0 : (Threads.init size mem).reader.fails (Threads.init size mem).rbuf.widx = 0 := rfl
    omega
  adds_le := by
    have hpaid := Machine.run_amortised (fun s a s' hs => (step_writer s a s' hs).2) hrun
    have h0 : min (Threads.init size mem).writer.left 1 = 0 := rfl
    omega
  writer_le := by
    have hpaid := Machine.run_amortised (fun s a s' hs => (step_writer s a s' hs).1) hrun
    have h0 : (Threads.init size mem).writer.left = 0 := rfl
    rw [Machine.total_mul] at hpaid
    omega
  reader_le := by
    have hpaid := Machine.run_amortised step_reader hrun
    have h0 : (Threads.init size mem).reader.left = 0 := rfl
    rw [Machine.total_add, Machine.total_mul, Machine.total_mul] at hpaid
    omega
  writer_call := fun _ _ hrun hkind => writer_total_le hrun hkind
  reader_call := fun _ _ hrun hkind => reader_total_le hrun hkind
  writer_moves := writerStep_isSome
  reader_moves := readerStep_isSome
  ends := fun _ _ hrun hkind => length_le_of_steps hrun hkind

/-- The reader has moved `ridx` past the end of a ring of two and has loaded `widx`, when the writer
adds a byte. -/
def lateAdd : List Action :=
  .write [7, 8] 2 :: List.replicate 5 (.writer .widx) ++
    .read 2 :: List.replicate 7 (.reader .ridx) ++
    .write [9] 1 :: List.replicate 5 (.writer .widx) ++
    .read 1 :: List.replicate 8 (.reader .ridx) ++
    .write [10] 1 :: List.replicate 5 (.writer .widx) ++ List.replicate 5 (.reader .ridx)

theorem threads_progress_lateAdd :
    ∃ s, Machine.run Threads.step (Threads.init 2 fun _ => 0) lateAdd = some s ∧
      Machine.total Threads.step Threads.fails (Threads.init 2 fun _ => 0) lateAdd = 1 ∧
      Progress (Threads.init 2 fun _ => 0) lateAdd s := by
  have hrun : (Machine.run Threads.step (Threads.init 2 fun _ => 0) lateAdd).map
      (fun s => s.hist.got) = some [7, 8, 9] := by decide +kernel
  obtain ⟨s, hs, -⟩ := Option.map_eq_some_iff.mp hrun
  exact ⟨s, hs, by decide +kernel, threads_progress 2 (fun _ => 0) lateAdd s hs⟩

end Twd
