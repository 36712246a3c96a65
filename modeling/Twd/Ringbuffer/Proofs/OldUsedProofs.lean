import Twd.Ringbuffer.Proofs.QueueProofs

/-!
# The two fill levels

`old_ringbuffer_used` tells apart whether each index lies past the first mapping. Where only `widx`
does, it returns the space that is left and not the number of bytes.
-/

namespace Twd

variable {rbuf : Ringbuffer} {mem : Memory} {items : List UInt8}

theorem toInt_nonneg {x : SizeT} (h : 2 * x.toNat < 2 ^ 64) : ¬ x.toInt < 0 := by
  rw [BitVec.toInt_eq_toNat_of_lt h]
  omega

/-- Both indices lie in the first mapping. -/
theorem oldRingbufferUsed_of_le (h : Holds rbuf mem items) (hw : rbuf.widx ≤ rbuf.size) :
    oldRingbufferUsed rbuf = ringbufferUsed rbuf := by
  have hridx := h.ridx_le
  have hlen := h.length_le
  have hlt := h.size_lt
  have hused := h.used_toNat
  have hwidx : ¬ rbuf.size < rbuf.widx := by
    rw [BitVec.lt_def]
    rw [BitVec.le_def] at hw
    omega
  have hr : ¬ rbuf.size < rbuf.ridx := by
    rw [BitVec.lt_def]
    omega
  have hsign := toInt_nonneg (x := ringbufferUsed rbuf) (by omega)
  have hcase : oldRingbufferUsed rbuf = if (ringbufferUsed rbuf).toInt < 0
      then -ringbufferUsed rbuf else ringbufferUsed rbuf := by
    simp only [oldRingbufferUsed, ringbufferUsed, hwidx, hr, if_false]
    rfl
  rw [hcase, if_neg hsign]

/-- Only `widx` lies past it. -/
theorem oldRingbufferUsed_of_lt (h : Holds rbuf mem items) (hw : rbuf.size < rbuf.widx) :
    (oldRingbufferUsed rbuf).toNat = rbuf.size.toNat - items.length := by
  have hridx := h.ridx_le
  have hlen := h.length_le
  have hlt := h.size_lt
  have hwidx := h.widx_eq
  have hr : ¬ rbuf.size < rbuf.ridx := by
    rw [BitVec.lt_def]
    omega
  have hback : (rbuf.widx - rbuf.size).toNat = rbuf.widx.toNat - rbuf.size.toNat :=
    BitVec.toNat_sub_of_le (BitVec.le_of_lt hw)
  set temp := rbuf.ridx - (rbuf.widx - rbuf.size) with hdef
  have htemp : temp.toNat = rbuf.size.toNat - items.length := by
    rw [BitVec.lt_def] at hw
    rw [hdef, BitVec.toNat_sub_of_le (by rw [BitVec.le_def]; omega), hback]
    omega
  have hsign := toInt_nonneg (x := temp) (by omega)
  have hcase : oldRingbufferUsed rbuf = if temp.toInt < 0 then -temp else temp := by
    simp only [oldRingbufferUsed, hw, hr, if_true, if_false]
    rfl
  rw [hcase, if_neg hsign, htemp]

/-- The two functions agree if `widx` is in the first mapping, or the ring is half full. -/
theorem Holds.oldUsed_iff (h : Holds rbuf mem items) :
    oldRingbufferUsed rbuf = ringbufferUsed rbuf ↔
      rbuf.widx ≤ rbuf.size ∨ 2 * (rbuf.widx.toNat - rbuf.ridx.toNat) = rbuf.size.toNat := by
  have hwidx := h.widx_eq
  have hlen := h.length_le
  by_cases hw : rbuf.widx ≤ rbuf.size
  · exact ⟨fun _ => .inl hw, fun _ => oldRingbufferUsed_of_le h hw⟩
  · have hold := oldRingbufferUsed_of_lt h (BitVec.not_le.mp hw)
    have hused := h.used_toNat
    constructor
    · intro heq
      rw [heq] at hold
      exact .inr (by omega)
    · rintro (hle | hhalf)
      · exact absurd hle hw
      · exact BitVec.eq_of_toNat_eq (by omega)

/-- **When the two fill levels agree**: in a state that any sequence of calls has reached, if and
only if `widx` has not passed the first mapping or the ring is exactly half full. -/
theorem oldUsed_agrees_iff (size : SizeT) (hpos : 0 < size.toNat) (hlt : 2 * size.toNat < 2 ^ 64)
    (mem : Memory) (tries : Nat) (calls : List Call) (hcalls : ∀ c ∈ calls, c.Valid)
    (s : RingState)
    (hrun : Machine.run (Call.exec (tries + 1)) (RingState.init size mem) calls = some s) :
    oldRingbufferUsed s.rbuf = ringbufferUsed s.rbuf ↔
      s.rbuf.widx ≤ size ∨ 2 * (s.rbuf.widx.toNat - s.rbuf.ridx.toNat) = size.toNat := by
  obtain ⟨s', hrun', hs'⟩ := run_simulates hpos hlt mem tries hcalls
  obtain rfl : s' = s := Option.some.inj (hrun'.symm.trans hrun)
  have hsize : s'.rbuf.size = size := BitVec.eq_of_toNat_eq hs'.size
  rw [hs'.holds.oldUsed_iff, hsize]

/-- A ring of four bytes of which three have been written and two read again. -/
theorem oldUsed_agrees_iff_first : ∃ s,
    Machine.run (Call.exec 1) (RingState.init 4 fun _ => 0) [.write [1, 2, 3] 3, .read 2] = some s ∧
      (oldRingbufferUsed s.rbuf = ringbufferUsed s.rbuf ↔
        s.rbuf.widx ≤ 4 ∨ 2 * (s.rbuf.widx.toNat - s.rbuf.ridx.toNat) = 4) :=
  ⟨_, rfl, oldUsed_agrees_iff 4 (by decide) (by decide) (fun _ => 0) 0
    [.write [1, 2, 3] 3, .read 2] (by simp [Call.Valid]) _ rfl⟩

/-- The calls after which a page holds 2000 bytes, from offset 3000 on. -/
def pastFirstMapping : List Call :=
  [.write (List.replicate 3000 0) 3000, .read 3000, .write (List.replicate 2000 0) 2000]

theorem oldUsed_not_agrees :
    ¬ ∀ s, Machine.run (Call.exec 1) (RingState.init 4096 fun _ => 0) pastFirstMapping = some s →
      oldRingbufferUsed s.rbuf = ringbufferUsed s.rbuf := by
  intro h
  have hrun : (Machine.run (Call.exec 1) (RingState.init 4096 fun _ => 0) pastFirstMapping).map
      (fun s => (oldRingbufferUsed s.rbuf, ringbufferUsed s.rbuf)) = some (2096, 2000) := by
    decide +kernel
  obtain ⟨s, hs, hused⟩ := Option.map_eq_some_iff.mp hrun
  obtain ⟨hold, hnew⟩ := Prod.mk.inj hused
  have heq := h s hs
  rw [hold, hnew] at heq
  exact absurd heq (by decide)

end Twd
