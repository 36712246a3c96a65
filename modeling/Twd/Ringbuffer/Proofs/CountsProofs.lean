import Mathlib.Data.BitVec
import Mathlib.Tactic.Ring
import Twd.Ringbuffer.Proofs.ThreadsStepProofs

/-!
# The two threads: no update of an index is lost

Every run keeps the counts, also one that is not safe: `widx` is changed by the atomic addition and
by a compare-and-swap of a value that is still there, and `ridx` by the reader alone.
-/

namespace Twd

/-- The writer never takes more bytes than its source has. -/
def Writer.FitsSource : Writer → Prop
  | .idle => True
  | .entry src amount => amount.toNat ≤ src.length
  | .gotWidx src amount _ => amount.toNat ≤ src.length
  | .gotRidx src amount _ => amount.toNat ≤ src.length
  | .address src _ len => len.toNat ≤ src.length
  | .copy src len _ => len.toNat ≤ src.length
  | .publish src len _ => len.toNat ≤ src.length

/-- How often each index has been pulled back, and the `ridx` that the reader is about to replace. -/
def Threads.LapsAt (s : Threads) : Reader → Prop
  | .bumpStore _ _ r => s.hist.swaps = s.hist.subs ∧ r = s.rbuf.ridx
  | .subLoad _ => s.hist.swaps = s.hist.subs + 1
  | .subStore _ r => s.hist.swaps = s.hist.subs + 1 ∧ r = s.rbuf.ridx
  | _ => s.hist.swaps = s.hist.subs

/-- What every state of every run satisfies. -/
structure CountInv (size : SizeT) (s : Threads) : Prop where
  size_eq : s.rbuf.size = size
  widx : s.rbuf.widx =
    BitVec.ofNat 64 s.hist.sent.length - size * BitVec.ofNat 64 s.hist.swaps
  ridx : s.rbuf.ridx = BitVec.ofNat 64 s.hist.consumed - size * BitVec.ofNat 64 s.hist.subs
  writer : s.writer.FitsSource
  reader : s.LapsAt s.reader

/-- A step of the writer does not change what the reader's laps are about. -/
theorem CountInv.lapsAt_frame {size : SizeT} {s s' : Threads} (h : CountInv size s)
    (hf : WriterFrame s s') : s'.LapsAt s'.reader := by
  have hr := h.reader
  rw [hf.reader]
  cases hreader : s.reader with
  | _ =>
    simp only [hreader, Threads.LapsAt, hf.swaps, hf.subs, hf.ridx] at hr ⊢
    exact hr

theorem ofNat_add_toNat (n : Nat) (len : SizeT) :
    BitVec.ofNat 64 (n + len.toNat) = BitVec.ofNat 64 n + len := by
  rw [BitVec.ofNat_add, BitVec.ofNat_toNat, BitVec.setWidth_eq]

theorem size_mul_succ (size : SizeT) (k : Nat) :
    size * BitVec.ofNat 64 (k + 1) = size * BitVec.ofNat 64 k + size := by
  rw [BitVec.ofNat_add, BitVec.mul_add, BitVec.mul_one]

theorem Writer.decide_fitsSource {size amount used : SizeT} {src : List UInt8}
    (h : amount.toNat ≤ src.length) : (Writer.decide size src amount used).FitsSource := by
  unfold Writer.decide
  simp only
  split_ifs
  · simp only [Writer.FitsSource, toNat_minSizeT]
    omega
  · trivial

/-- A step of the writer that adds nothing. -/
theorem CountInv.of_writer {size : SizeT} {s s' : Threads} (h : CountInv size s)
    (hf : WriterFrame s s') (hwidx : s'.rbuf.widx = s.rbuf.widx)
    (hsent : s'.hist.sent = s.hist.sent) (hw : s'.writer.FitsSource) : CountInv size s' where
  size_eq := hf.size.trans h.size_eq
  widx := by rw [hwidx, hsent, hf.swaps, h.widx]
  ridx := by rw [hf.ridx, hf.consumed, hf.subs, h.ridx]
  writer := hw
  reader := h.lapsAt_frame hf

theorem lapsAt_decide {s : Threads} {amount used : SizeT} (h : s.hist.swaps = s.hist.subs) :
    s.LapsAt (.decide amount used) := by
  rcases Reader.decide_cases amount used with hd | ⟨len, hd, -⟩
  · rw [hd]
    exact h
  · rw [hd]
    exact h

theorem writerStep_counts {size : SizeT} {s s' : Threads} {first : Index} (h : CountInv size s)
    (hs : writerStep s first = some s') : CountInv size s' := by
  have hf := writerStep_frame hs
  have hsrc := h.writer
  unfold writerStep at hs
  cases hw : s.writer with
  | idle => simp [hw] at hs
  | entry src amount =>
    rw [hw] at hs hsrc
    cases first with
    | widx | ridx =>
      cases hs
      exact h.of_writer hf rfl rfl hsrc
  | gotWidx src amount w | gotRidx src amount r =>
    rw [hw] at hs hsrc
    cases hs
    exact h.of_writer hf rfl rfl (Writer.decide_fitsSource hsrc)
  | address src amount len | copy src len off =>
    rw [hw] at hs hsrc
    cases hs
    exact h.of_writer hf rfl rfl hsrc
  | publish src len off =>
    rw [hw] at hs hsrc
    cases hs
    refine ⟨h.size_eq, ?_, h.ridx, trivial, h.lapsAt_frame hf⟩
    simp only [List.length_append, sentBytes_length _ off hsrc, ofNat_add_toNat, h.widx]
    ring

theorem readerStep_counts {size : SizeT} {s s' : Threads} {first : Index} (h : CountInv size s)
    (hs : readerStep s first = some s') : CountInv size s' := by
  have hf := readerStep_frame hs
  have hlaps := h.reader
  have hwrit : s'.writer.FitsSource := hf.writer ▸ h.writer
  unfold readerStep at hs
  cases hr : s.reader with
  | idle => simp [hr] at hs
  | entry amount =>
    rw [hr] at hs hlaps
    cases first with
    | widx | ridx =>
      cases hs
      exact ⟨h.size_eq, h.widx, h.ridx, hwrit, hlaps⟩
  | gotWidx amount w | gotRidx amount r =>
    rw [hr] at hs hlaps
    cases hs
    exact ⟨h.size_eq, h.widx, h.ridx, hwrit, lapsAt_decide hlaps⟩
  | address len | copy len off | wrapLoad dest =>
    rw [hr] at hs hlaps
    cases hs
    exact ⟨h.size_eq, h.widx, h.ridx, hwrit, hlaps⟩
  | bumpLoad len dest | subLoad dest =>
    rw [hr] at hs hlaps
    cases hs
    exact ⟨h.size_eq, h.widx, h.ridx, hwrit, hlaps, rfl⟩
  | bumpStore len dest r =>
    rw [hr] at hs hlaps
    cases hs
    obtain ⟨hlap, rfl⟩ := hlaps
    refine ⟨h.size_eq, h.widx, ?_, hwrit, hlap⟩
    simp only [ofNat_add_toNat, h.ridx]
    ring
  | check dest =>
    rw [hr] at hs hlaps
    simp only at hs
    split_ifs at hs <;> cases hs <;> exact ⟨h.size_eq, h.widx, h.ridx, hwrit, hlaps⟩
  | wrapSwap dest temp =>
    rw [hr] at hs hlaps
    by_cases htemp : s.rbuf.widx = temp
    · subst htemp
      simp only [atomicCompareAndSwap, if_true, ne_eq, not_true_eq_false, if_false] at hs
      cases hs
      refine ⟨h.size_eq, ?_, h.ridx, hwrit, ?_⟩
      · simp only [size_mul_succ, h.size_eq]
        rw [h.widx]
        ring
      · exact congrArg (· + 1) hlaps
    · simp only [atomicCompareAndSwap, htemp, if_false, ne_eq, not_false_eq_true, if_true] at hs
      cases hs
      exact ⟨h.size_eq, h.widx, h.ridx, hwrit, hlaps⟩
  | subStore dest r =>
    rw [hr] at hs hlaps
    cases hs
    obtain ⟨hlap, rfl⟩ := hlaps
    refine ⟨h.size_eq, h.widx, ?_, hwrit, hlap⟩
    simp only [size_mul_succ, h.size_eq]
    rw [h.ridx]
    ring

theorem threads_counts {size : SizeT} (s : Threads) (a : Action) (s' : Threads)
    (h : CountInv size s) (hs : s.step a = some s') : CountInv size s' := by
  cases a with
  | write src amount =>
    rw [Threads.step] at hs
    split_ifs at hs with hcall
    cases hs
    exact ⟨h.size_eq, h.widx, h.ridx, hcall.2.2, h.reader⟩
  | read amount =>
    rw [Threads.step] at hs
    split_ifs at hs with hcall
    cases hs
    have hlaps := h.reader
    rw [hcall.1] at hlaps
    exact ⟨h.size_eq, h.widx, h.ridx, h.writer, hlaps⟩
  | writer first => exact writerStep_counts h hs
  | reader first => exact readerStep_counts h hs

theorem CountInv.accounted {size : SizeT} {s : Threads} (h : CountInv size s) :
    Accounted size s := by
  have hlaps := h.reader
  have hcases : s.hist.swaps = s.hist.subs ∨ (s.hist.swaps = s.hist.subs + 1 ∧
      ∃ dest, s.reader = .subLoad dest ∨ ∃ r, s.reader = .subStore dest r) := by
    cases hr : s.reader with
    | subLoad dest =>
      rw [hr] at hlaps
      exact .inr ⟨hlaps, dest, .inl rfl⟩
    | subStore dest r =>
      rw [hr] at hlaps
      exact .inr ⟨hlaps.1, dest, .inr ⟨r, rfl⟩⟩
    | bumpStore len dest r =>
      rw [hr] at hlaps
      exact .inl hlaps.1
    | _ =>
      rw [hr] at hlaps
      exact .inl hlaps
  refine ⟨h.size_eq, h.widx, h.ridx, by omega, by omega, ?_, ?_⟩
  · intro hlap
    rcases hcases with heq | ⟨-, hdest⟩
    · omega
    · exact hdest
  · intro hidle
    rw [hidle] at hlaps
    have hswaps : s.hist.swaps = s.hist.subs := hlaps
    rw [ringbufferUsed, h.widx, h.ridx, hswaps]
    ring

/-- **No update of `widx` is lost**: in every run of a writing and a reading thread, with any ring
size and any amounts, each index is what the bytes added or consumed and the laps make it. -/
theorem threads_accounted (size : SizeT) (mem : Memory) (as : List Action) (s : Threads)
    (hrun : Machine.run Threads.step (Threads.init size mem) as = some s) : Accounted size s := by
  have h0 : CountInv size (Threads.init size mem) := by
    refine ⟨rfl, ?_, ?_, trivial, rfl⟩
    · simp [Threads.init, ringbufferInit]
    · simp [Threads.init, ringbufferInit]
  exact (Machine.run_invariant threads_counts h0 hrun).accounted

/-- Two bytes one after the other through a ring of one; the reader has pulled `widx` back and not
yet `ridx`. -/
def halfWrapped : List Action :=
  .write [7] 1 :: List.replicate 5 (.writer .widx) ++ .read 1 :: List.replicate 7 (.reader .ridx) ++
    .write [8] 1 :: List.replicate 5 (.writer .ridx) ++ .read 1 :: List.replicate 9 (.reader .widx)

theorem threads_accounted_halfWrapped :
    ∃ s, Machine.run Threads.step (Threads.init 1 fun _ => 0) halfWrapped = some s ∧
      (s.hist.swaps, s.hist.subs) = (1, 0) ∧ Accounted 1 s := by
  have hrun : (Machine.run Threads.step (Threads.init 1 fun _ => 0) halfWrapped).map
      (fun s => (s.hist.swaps, s.hist.subs)) = some (1, 0) := by decide +kernel
  obtain ⟨s, hs, hlaps⟩ := Option.map_eq_some_iff.mp hrun
  exact ⟨s, hs, hlaps, threads_accounted 1 (fun _ => 0) halfWrapped s hs⟩

end Twd
