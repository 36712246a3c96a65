import Twd.Ringbuffer.Indices

/-!
# The indices of a ring in every run

Every call keeps the bounds on the two indices. With them none of its subtractions wraps, its copy
stays in the mapping, and the loop of a read ends at its first try.
-/

namespace Twd

open Ringbuffer (Indexed)

variable {rbuf : Ringbuffer} {mem : Memory} {amount : SizeT}

/-! ## What the functions do -/

theorem write_len_toNat (h : rbuf.Indexed) (amount : SizeT) :
    (minSizeT (rbuf.size - ringbufferUsed rbuf) amount).toNat =
      min (rbuf.size.toNat - (rbuf.widx.toNat - rbuf.ridx.toNat)) amount.toNat := by
  rw [toNat_minSizeT, h.free_toNat]

theorem read_len_toNat (h : rbuf.Indexed) (amount : SizeT) :
    (minSizeT (ringbufferUsed rbuf) amount).toNat =
      min (rbuf.widx.toNat - rbuf.ridx.toNat) amount.toNat := by
  rw [toNat_minSizeT, h.used_toNat]

theorem ringbufferWrite_eq (h : rbuf.Indexed) {src : List UInt8} (hpos : 0 < amount)
    (hsrc : amount.toNat ≤ src.length) {len : SizeT}
    (hlen : len = minSizeT (rbuf.size - ringbufferUsed rbuf) amount) :
    ringbufferWrite rbuf mem src amount = some (len, { rbuf with widx := rbuf.widx + len },
      Mirror.store rbuf.size.toNat mem rbuf.widx.toNat (src.take len.toNat)) := by
  have hne : ¬ amount = 0#64 := (BitVec.pos_iff_ne_zero amount).mp hpos
  have hn := write_len_toNat h amount
  rw [← hlen] at hn
  by_cases h0 : len = 0#64
  · simp [ringbufferWrite, hne, ← hlen, h0, Mirror.store]
  · have hin : rbuf.widx.toNat + (src.take len.toNat).length ≤ 2 * rbuf.size.toNat := by
      rw [List.length_take]
      have := h.ridx_le
      have := h.ridx_le_widx
      have := h.widx_le
      omega
    simp only [ringbufferWrite, ← hlen, copyIn, hin, if_true]
    simp [hne, h0]

theorem copyOut_eq (mem : Memory) (h : rbuf.Indexed) {len : SizeT}
    (hle : len.toNat ≤ rbuf.widx.toNat - rbuf.ridx.toNat) :
    copyOut rbuf mem rbuf.ridx len =
      some (Mirror.load rbuf.size.toNat mem rbuf.ridx.toNat len.toNat) := by
  have := h.ridx_le
  have := h.widx_le
  exact if_pos (by omega)

theorem ringbufferPeek_eq (h : rbuf.Indexed) (hpos : 0 < amount) {len : SizeT}
    (hlen : len = minSizeT (ringbufferUsed rbuf) amount) :
    ringbufferPeek rbuf mem amount =
      some (len, Mirror.load rbuf.size.toNat mem rbuf.ridx.toNat len.toNat) := by
  have hne : ¬ amount = 0#64 := (BitVec.pos_iff_ne_zero amount).mp hpos
  have hn := read_len_toNat h amount
  rw [← hlen] at hn
  by_cases h0 : ringbufferUsed rbuf = 0#64
  · have hlen0 : len = 0#64 := by rw [hlen, h0, zero_minSizeT]
    simp [ringbufferPeek, hne, h0, hlen0]
  · simp [ringbufferPeek, hne, ← hlen, h0, copyOut_eq mem h (hn ▸ Nat.min_le_left _ _)]

/-- The indices after a read of `len` bytes. -/
def Ringbuffer.afterRead (rbuf : Ringbuffer) (len : SizeT) : Ringbuffer :=
  if rbuf.size < rbuf.ridx + len then
    { rbuf with ridx := rbuf.ridx + len - rbuf.size, widx := rbuf.widx - rbuf.size }
  else { rbuf with ridx := rbuf.ridx + len }

theorem ringbufferRead_eq (h : rbuf.Indexed) (hpos : 0 < amount) {len : SizeT}
    (hlen : len = minSizeT (ringbufferUsed rbuf) amount) (tries : Nat) :
    ringbufferRead (tries + 1) rbuf mem amount =
      some (len, Mirror.load rbuf.size.toNat mem rbuf.ridx.toNat len.toNat,
        rbuf.afterRead len) := by
  have hne : ¬ amount = 0#64 := (BitVec.pos_iff_ne_zero amount).mp hpos
  have hn := read_len_toNat h amount
  rw [← hlen] at hn
  by_cases h0 : ringbufferUsed rbuf = 0#64
  · have hlen0 : len = 0#64 := by rw [hlen, h0, zero_minSizeT]
    have hridx : ¬ rbuf.size < rbuf.ridx := by
      rw [BitVec.lt_def]
      exact Nat.not_lt.mpr h.ridx_le
    simp [ringbufferRead, Ringbuffer.afterRead, hne, h0, hlen0, hridx]
  · have hcopy := copyOut_eq mem h (hn ▸ Nat.min_le_left _ _)
    by_cases hwrap : rbuf.size < rbuf.ridx + len
    · simp [ringbufferRead, Ringbuffer.afterRead, hne, ← hlen, h0, hcopy, hwrap]
    · simp [ringbufferRead, Ringbuffer.afterRead, hne, ← hlen, h0, hcopy, hwrap]

@[simp] theorem afterRead_size (rbuf : Ringbuffer) (len : SizeT) :
    (rbuf.afterRead len).size = rbuf.size := by
  unfold Ringbuffer.afterRead
  split_ifs <;> rfl

theorem afterRead_indexed (h : rbuf.Indexed) {len : SizeT}
    (hle : len.toNat ≤ rbuf.widx.toNat - rbuf.ridx.toNat) : (rbuf.afterRead len).Indexed := by
  unfold Ringbuffer.afterRead
  split_ifs with hwrap
  · exact (h.wrap hle (BitVec.lt_def.mp hwrap)).2.2
  · exact h.advance hle (Nat.not_lt.mp (BitVec.lt_def.not.mp hwrap))

/-! ## Runs -/

/-- One call: whatever it is, it comes to an end at the first try, and the indices stay in bounds. -/
theorem exec_indexed (s : RingState) (c : Call) (h : s.rbuf.Indexed) (hc : c.Valid) :
    ∃ s', (∀ tries, c.exec (tries + 1) s = some s') ∧ s'.rbuf.size = s.rbuf.size ∧
      s'.rbuf.Indexed := by
  cases c with
  | write src amount =>
    set len := minSizeT (s.rbuf.size - ringbufferUsed s.rbuf) amount with hlen
    have hn : len.toNat = _ := write_len_toNat h amount
    have hw := h.widx_le
    have hexec : ∀ tries, Call.exec (tries + 1) s (.write src amount) =
        some ⟨{ s.rbuf with widx := s.rbuf.widx + len },
          Mirror.store s.rbuf.size.toNat s.mem s.rbuf.widx.toNat (src.take len.toNat),
          s.results ++ [.count len.toNat]⟩ := by
      intro tries
      rw [Call.exec, ringbufferWrite_eq h hc.1 hc.2 hlen]
      rfl
    exact ⟨_, hexec, rfl, (h.append (by omega)).2⟩
  | read amount =>
    set len := minSizeT (ringbufferUsed s.rbuf) amount with hlen
    have hn : len.toNat = _ := read_len_toNat h amount
    have hexec : ∀ tries, Call.exec (tries + 1) s (.read amount) =
        some ⟨s.rbuf.afterRead len, s.mem, s.results ++ [.bytes len.toNat
          (Mirror.load s.rbuf.size.toNat s.mem s.rbuf.ridx.toNat len.toNat)]⟩ := by
      intro tries
      rw [Call.exec, ringbufferRead_eq h hc hlen]
      rfl
    exact ⟨_, hexec, afterRead_size _ _, afterRead_indexed h (by omega)⟩
  | peek amount =>
    set len := minSizeT (ringbufferUsed s.rbuf) amount with hlen
    have hexec : ∀ tries, Call.exec (tries + 1) s (.peek amount) =
        some ⟨s.rbuf, s.mem, s.results ++ [.bytes len.toNat
          (Mirror.load s.rbuf.size.toNat s.mem s.rbuf.ridx.toNat len.toNat)]⟩ := by
      intro tries
      rw [Call.exec, ringbufferPeek_eq h hc hlen]
      rfl
    exact ⟨_, hexec, rfl, h⟩
  | reset => exact ⟨_, fun _ => rfl, rfl, Indexed.init h.size_lt⟩
  | used => exact ⟨_, fun _ => rfl, rfl, h⟩
  | avail => exact ⟨_, fun _ => rfl, rfl, h⟩

theorem run_indexed {calls : List Call} (hcalls : ∀ c ∈ calls, c.Valid) (s : RingState)
    (h : s.rbuf.Indexed) :
    ∃ s', (∀ tries, Machine.run (Call.exec (tries + 1)) s calls = some s') ∧
      s'.rbuf.size = s.rbuf.size ∧ s'.rbuf.Indexed := by
  induction calls generalizing s with
  | nil => exact ⟨s, fun _ => rfl, rfl, h⟩
  | cons c calls ih =>
    obtain ⟨hc, hcalls⟩ := List.forall_mem_cons.mp hcalls
    obtain ⟨s1, h1, hsize1, hs1⟩ := exec_indexed s c h hc
    obtain ⟨s2, h2, hsize2, hs2⟩ := ih hcalls s1 hs1
    refine ⟨s2, fun tries => ?_, hsize2.trans hsize1, hs2⟩
    rw [Machine.run_cons, h1 tries]
    exact h2 tries

/-! ## What a call computes -/

theorem differences_used (rbuf : Ringbuffer) :
    Call.used.differences rbuf = [ringbufferUsed rbuf] := rfl

theorem differences_avail (rbuf : Ringbuffer) :
    Call.avail.differences rbuf = [ringbufferUsed rbuf, ringbufferAvail rbuf] := rfl

theorem minSizeT_pos_iff {a b : SizeT} (hb : b ≠ 0) : 0 < minSizeT a b ↔ 0 < a := by
  have hb' : b.toNat ≠ 0 := fun h => hb (BitVec.eq_of_toNat_eq h)
  have h0 : (0 : SizeT).toNat = 0 := rfl
  rw [BitVec.lt_def, BitVec.lt_def, toNat_minSizeT, h0]
  omega

/-- A write returns the lesser of its second difference and `amount`, and makes the copy listed, if
there is one. -/
theorem ringbufferWrite_operands {src : List UInt8} {used free : SizeT} (hne : amount ≠ 0)
    (h : (Call.write src amount).differences rbuf = [used, free]) :
    ringbufferWrite rbuf mem src amount =
      match (Call.write src amount).copies rbuf with
      | (off, len) :: _ => (copyIn rbuf mem off (src.take len.toNat)).map fun mem =>
        (minSizeT free amount, { rbuf with widx := rbuf.widx + len }, mem)
      | [] => some (minSizeT free amount, rbuf, mem) := by
  simp only [Call.differences, Call.subtractions, List.map_cons, List.cons.injEq] at h
  obtain ⟨-, rfl, -⟩ := h
  set len := minSizeT (rbuf.size - ringbufferUsed rbuf) amount with hlen
  have hcopies : (Call.write src amount).copies rbuf = if 0 < len then [(rbuf.widx, len)] else [] :=
    rfl
  rw [ringbufferWrite, if_neg hne, hcopies]
  by_cases hpos : 0 < len
  · simp only [← hlen, hpos, if_true]
    cases copyIn rbuf mem rbuf.widx (src.take len.toNat) <;> rfl
  · rw [if_neg hpos, if_neg hpos]

/-- A peek makes the copy listed, if there is one. -/
theorem ringbufferPeek_operands (hne : amount ≠ 0) :
    ringbufferPeek rbuf mem amount =
      match (Call.peek amount).copies rbuf with
      | (off, len) :: _ => (copyOut rbuf mem off len).map fun dest => (len, dest)
      | [] => some (0, []) := by
  set len := minSizeT (ringbufferUsed rbuf) amount with hlen
  have hcopies : (Call.peek amount).copies rbuf = if 0 < len then [(rbuf.ridx, len)] else [] := rfl
  rw [ringbufferPeek, if_neg hne, hcopies]
  by_cases hpos : 0 < ringbufferUsed rbuf
  · rw [if_pos hpos, if_pos ((minSizeT_pos_iff hne).mpr hpos)]
    simp only [← hlen]
    cases copyOut rbuf mem rbuf.ridx len <;> rfl
  · rw [if_neg hpos, if_neg (mt (minSizeT_pos_iff hne).mp hpos)]

/-- A read makes the copy listed, if there is one. Its first difference is `used`; if there are more
they are the two indices that it leaves. -/
theorem ringbufferRead_operands {used : SizeT} {rest : List SizeT} (hne : amount ≠ 0)
    (h : (Call.read amount).differences rbuf = used :: rest) (tries : Nat) :
    ringbufferRead (tries + 1) rbuf mem amount =
      match (Call.read amount).copies rbuf with
      | (off, len) :: _ => (copyOut rbuf mem off len).map fun dest =>
        match rest with
        | [widx, ridx] => (len, dest, { rbuf with ridx := ridx, widx := widx })
        | _ => (len, dest, { rbuf with ridx := rbuf.ridx + len })
      | [] => some (0, [], rbuf) := by
  simp only [Call.differences, Call.subtractions, List.map_cons, List.cons.injEq] at h
  obtain ⟨-, rfl⟩ := h
  set len := minSizeT (ringbufferUsed rbuf) amount with hlen
  have hcopies : (Call.read amount).copies rbuf = if 0 < len then [(rbuf.ridx, len)] else [] := rfl
  have hlen' : Call.len rbuf (.read amount) = len := rfl
  rw [ringbufferRead, if_neg hne, hcopies, hlen']
  by_cases hpos : 0 < ringbufferUsed rbuf
  · rw [if_pos hpos, if_pos ((minSizeT_pos_iff hne).mpr hpos)]
    by_cases hwrap : rbuf.size < rbuf.ridx + len
    · simp only [hpos, hwrap, and_self, if_true, wrapLoop_succ, ← hlen]
      cases copyOut rbuf mem rbuf.ridx len <;> rfl
    · simp only [hwrap, and_false, if_false, ← hlen]
      cases copyOut rbuf mem rbuf.ridx len <;> rfl
  · rw [if_neg hpos, if_neg (mt (minSizeT_pos_iff hne).mp hpos)]

theorem subtractions_exact (h : rbuf.Indexed) (c : Call) :
    ∀ p ∈ c.subtractions rbuf, p.2 ≤ p.1 := by
  have hridx : rbuf.ridx ≤ rbuf.widx := BitVec.le_def.mpr h.ridx_le_widx
  have hused := h.used_le
  cases c with
  | write src amount =>
    rw [Call.subtractions, List.forall_mem_cons, List.forall_mem_singleton]
    exact ⟨hridx, hused⟩
  | read amount =>
    have hn := read_len_toNat h amount
    have hadd := h.ridx_add (hn ▸ Nat.min_le_left _ _)
    rw [Call.subtractions, List.forall_mem_cons]
    refine ⟨hridx, ?_⟩
    split_ifs with hwrap
    · obtain ⟨-, hwrap⟩ := hwrap
      have hle := h.ridx_le_widx
      have hwidx : rbuf.size ≤ rbuf.widx := by
        rw [Call.len, BitVec.lt_def, hadd, hn] at hwrap
        rw [BitVec.le_def]
        omega
      simp [hwidx, BitVec.le_of_lt hwrap]
    · simp
  | peek amount => simp [Call.subtractions, hridx]
  | reset => simp [Call.subtractions]
  | used => simp [Call.subtractions, hridx]
  | avail =>
    rw [Call.subtractions, List.forall_mem_cons, List.forall_mem_singleton]
    exact ⟨hridx, hused⟩

theorem copies_inside (h : rbuf.Indexed) (c : Call) :
    ∀ p ∈ c.copies rbuf, p.1.toNat + p.2.toNat ≤ 2 * rbuf.size.toNat := by
  have hr := h.ridx_le
  have hle := h.ridx_le_widx
  have hw := h.widx_le
  unfold Call.copies
  split_ifs
  · cases c with
    | write src amount =>
      have hn := write_len_toNat h amount
      simp only [Call.len, List.forall_mem_singleton, hn]
      omega
    | read amount =>
      have hn := read_len_toNat h amount
      simp only [Call.len, List.forall_mem_singleton, hn]
      omega
    | peek amount =>
      have hn := read_len_toNat h amount
      simp only [Call.len, List.forall_mem_singleton, hn]
      omega
    | reset => simp
    | used => simp
    | avail => simp
  · simp

/-- **The indices of a ring**: after every sequence of calls they are in bounds, and whatever call
comes next, none of its subtractions wraps and its copy stays in the mapping. No call needs more
than one try for its loop. -/
theorem ringbuffer_indexed (size : SizeT) (hlt : 2 * size.toNat < 2 ^ 64) (mem : Memory)
    (calls : List Call) (hcalls : ∀ c ∈ calls, c.Valid) :
    ∃ s, (∀ tries, Machine.run (Call.exec (tries + 1)) (RingState.init size mem) calls = some s) ∧
      s.rbuf.size = size ∧ s.rbuf.Indexed ∧ ∀ c : Call, c.Exact s.rbuf := by
  obtain ⟨s, hs, hsize, hindexed⟩ :=
    run_indexed hcalls (RingState.init size mem) (Indexed.init hlt)
  exact ⟨s, hs, hsize, hindexed, fun c =>
    ⟨subtractions_exact hindexed c, copies_inside hindexed c⟩⟩

/-- A ring of four bytes whose second read starts in the first mapping and ends in the second. -/
theorem ringbuffer_indexed_wrap :
    ∃ s, (∀ tries, Machine.run (Call.exec (tries + 1)) (RingState.init 4 fun _ => 0)
        [.write [1, 2, 3] 3, .read 2, .write [4, 5, 6, 7] 4, .read 9, .reset] = some s) ∧
      s.rbuf.size = 4 ∧ s.rbuf.Indexed ∧ ∀ c : Call, c.Exact s.rbuf :=
  ringbuffer_indexed 4 (by decide) (fun _ => 0) _ (by simp [Call.Valid])

end Twd
