import Twd.Ringbuffer.Queue

/-!
# The two indices of a ring

`ridx` never passes the end of the first mapping and `widx` is never more than `size` bytes ahead of
it. As long as that holds, what the functions compute from the two indices is what integers of any
size would give.
-/

namespace Twd

/-- Both indices of the ring are where they should be. -/
structure Ringbuffer.Indexed (rbuf : Ringbuffer) : Prop where
  size_lt : 2 * rbuf.size.toNat < 2 ^ 64
  ridx_le : rbuf.ridx.toNat ≤ rbuf.size.toNat
  ridx_le_widx : rbuf.ridx.toNat ≤ rbuf.widx.toNat
  widx_le : rbuf.widx.toNat ≤ rbuf.ridx.toNat + rbuf.size.toNat

/-! ## What a call computes -/

/-- The number of bytes that a call copies. -/
def Call.len (rbuf : Ringbuffer) : Call → SizeT
  | .write _ amount => minSizeT (rbuf.size - ringbufferUsed rbuf) amount
  | .read amount => minSizeT (ringbufferUsed rbuf) amount
  | .peek amount => minSizeT (ringbufferUsed rbuf) amount
  | .reset => 0
  | .used => 0
  | .avail => 0

/-- The subtractions of `size_t` that a call makes: what is subtracted from, and what from it. -/
def Call.subtractions (rbuf : Ringbuffer) : Call → List (SizeT × SizeT)
  | .write _ _ => [(rbuf.widx, rbuf.ridx), (rbuf.size, ringbufferUsed rbuf)]
  | .read amount =>
    let ridx := rbuf.ridx + Call.len rbuf (.read amount)
    (rbuf.widx, rbuf.ridx) ::
      if 0 < ringbufferUsed rbuf ∧ rbuf.size < ridx then [(rbuf.widx, rbuf.size), (ridx, rbuf.size)]
      else []
  | .peek _ => [(rbuf.widx, rbuf.ridx)]
  | .reset => []
  | .used => [(rbuf.widx, rbuf.ridx)]
  | .avail => [(rbuf.widx, rbuf.ridx), (rbuf.size, rbuf.widx - rbuf.ridx)]

/-- The `memcpy` that a call makes: the offset in the mapping, and the length. -/
def Call.copies (rbuf : Ringbuffer) (c : Call) : List (SizeT × SizeT) :=
  if 0 < c.len rbuf then
    match c with
    | .write _ _ => [(rbuf.widx, c.len rbuf)]
    | .read _ => [(rbuf.ridx, c.len rbuf)]
    | .peek _ => [(rbuf.ridx, c.len rbuf)]
    | _ => []
  else []

/-- What the subtractions give. -/
def Call.differences (rbuf : Ringbuffer) (c : Call) : List SizeT :=
  (c.subtractions rbuf).map fun p => p.1 - p.2

/-- No subtraction of the call wraps, and its copy stays in the mapping. -/
structure Call.Exact (rbuf : Ringbuffer) (c : Call) : Prop where
  subtractions : ∀ p ∈ c.subtractions rbuf, p.2 ≤ p.1
  copies : ∀ p ∈ c.copies rbuf, p.1.toNat + p.2.toNat ≤ 2 * rbuf.size.toNat

namespace Ringbuffer.Indexed

variable {rbuf : Ringbuffer} {len : SizeT}

theorem init {size : SizeT} (hlt : 2 * size.toNat < 2 ^ 64) : (ringbufferInit size).Indexed where
  size_lt := hlt
  ridx_le := by simp [ringbufferInit]
  ridx_le_widx := by simp [ringbufferInit]
  widx_le := by simp [ringbufferInit]

theorem used_toNat (h : rbuf.Indexed) :
    (ringbufferUsed rbuf).toNat = rbuf.widx.toNat - rbuf.ridx.toNat :=
  BitVec.toNat_sub_of_le (BitVec.le_def.mpr h.ridx_le_widx)

theorem used_le (h : rbuf.Indexed) : ringbufferUsed rbuf ≤ rbuf.size := by
  rw [BitVec.le_def, h.used_toNat]
  exact Nat.sub_le_iff_le_add'.mpr h.widx_le

theorem free_toNat (h : rbuf.Indexed) : (rbuf.size - ringbufferUsed rbuf).toNat =
    rbuf.size.toNat - (rbuf.widx.toNat - rbuf.ridx.toNat) := by
  rw [BitVec.toNat_sub_of_le h.used_le, h.used_toNat]

theorem ridx_add (h : rbuf.Indexed) (hlen : len.toNat ≤ rbuf.widx.toNat - rbuf.ridx.toNat) :
    (rbuf.ridx + len).toNat = rbuf.ridx.toNat + len.toNat := by
  obtain ⟨hlt, hridx, -, hwidx⟩ := h
  exact BitVec.toNat_add_of_lt (by omega)

/-- A write moves `widx` over bytes that are free. -/
theorem append (h : rbuf.Indexed)
    (hlen : rbuf.widx.toNat - rbuf.ridx.toNat + len.toNat ≤ rbuf.size.toNat) :
    (rbuf.widx + len).toNat = rbuf.widx.toNat + len.toNat ∧
      Indexed { rbuf with widx := rbuf.widx + len } := by
  obtain ⟨hlt, hridx, hle, hwidx⟩ := h
  have hadd : (rbuf.widx + len).toNat = rbuf.widx.toNat + len.toNat :=
    BitVec.toNat_add_of_lt (by omega)
  refine ⟨hadd, hlt, hridx, ?_, ?_⟩
  · simp only [hadd]
    omega
  · simp only [hadd]
    omega

/-- A read moves `ridx` over bytes that are used, as far as the end of the first mapping. -/
theorem advance (h : rbuf.Indexed) (hlen : len.toNat ≤ rbuf.widx.toNat - rbuf.ridx.toNat)
    (hle : (rbuf.ridx + len).toNat ≤ rbuf.size.toNat) :
    Indexed { rbuf with ridx := rbuf.ridx + len } := by
  have hadd := h.ridx_add hlen
  obtain ⟨hlt, hridx, hridx_le, hwidx⟩ := h
  refine ⟨hlt, hle, ?_, ?_⟩
  · simp only [hadd]
    omega
  · simp only [hadd]
    omega

/-- Past the end of the first mapping both indices are pulled back. -/
theorem wrap (h : rbuf.Indexed) (hlen : len.toNat ≤ rbuf.widx.toNat - rbuf.ridx.toNat)
    (hgt : rbuf.size.toNat < (rbuf.ridx + len).toNat) :
    (rbuf.ridx + len - rbuf.size).toNat = rbuf.ridx.toNat + len.toNat - rbuf.size.toNat ∧
      (rbuf.widx - rbuf.size).toNat = rbuf.widx.toNat - rbuf.size.toNat ∧
      Indexed { rbuf with ridx := rbuf.ridx + len - rbuf.size, widx := rbuf.widx - rbuf.size } := by
  have hadd := h.ridx_add hlen
  obtain ⟨hlt, hridx, hle, hwidx⟩ := h
  have hridx' : (rbuf.ridx + len - rbuf.size).toNat =
      rbuf.ridx.toNat + len.toNat - rbuf.size.toNat := by
    rw [BitVec.toNat_sub_of_le (by rw [BitVec.le_def]; omega), hadd]
  have hwidx' : (rbuf.widx - rbuf.size).toNat = rbuf.widx.toNat - rbuf.size.toNat :=
    BitVec.toNat_sub_of_le (by rw [BitVec.le_def]; omega)
  refine ⟨hridx', hwidx', hlt, ?_, ?_, ?_⟩
  · simp only [hridx']
    omega
  · simp only [hridx', hwidx']
    omega
  · simp only [hridx', hwidx']
    omega

end Ringbuffer.Indexed

end Twd
