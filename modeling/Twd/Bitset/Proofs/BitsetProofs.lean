import Twd.Bitset.Bitset
import Twd.LastWrite.LastWrite

/-!
# When `bitset_t` is a set of indices

The masks are computed in `int`, so that only the bits of the first word for which an `int` has room
can be reached, and these are what `malloc` has left until a call changes them.
-/

namespace Twd

variable {gnu : Bool} {left : Nat → WordT} {nbits : SizeT} {calls : List BitsetCall}

/-! ## The words -/

section Words

variable {i j : Nat}

theorem getLsbD_int (x : BitVec 32) (hj : j < 32) : (x.signExtend 64).getLsbD j = x.getLsbD j := by
  have hj64 : j < 64 := by omega
  rw [BitVec.getLsbD_signExtend, if_pos hj, decide_eq_true hj64, Bool.true_and]

theorem getLsbD_one_shift (hj : j < 32) : (1#32 <<< i).getLsbD j = decide (i = j) := by
  rw [BitVec.getLsbD_shiftLeft, BitVec.getLsbD_one]
  by_cases hij : i = j
  · subst hij
    simp [hj]
  · simp [hij]
    omega

theorem getLsbD_or_mask (w : WordT) (hj : j < 32) :
    (w ||| (1#32 <<< i).signExtend 64).getLsbD j = (w.getLsbD j || decide (i = j)) := by
  rw [BitVec.getLsbD_or, getLsbD_int _ hj, getLsbD_one_shift hj]

theorem getLsbD_and_mask_not (w : WordT) (hj : j < 32) :
    (w &&& (~~~(1#32 <<< i)).signExtend 64).getLsbD j = (w.getLsbD j && !decide (i = j)) := by
  rw [BitVec.getLsbD_and, getLsbD_int _ hj, BitVec.getLsbD_not, getLsbD_one_shift hj,
    decide_eq_true hj, Bool.true_and]

/-- What is left of a word and its mask is the bit of the mask. -/
theorem and_mask_ne_zero_iff (w : WordT) (hi : i < 32) :
    (w &&& (1#32 <<< i).signExtend 64).setWidth 32 ≠ 0#32 ↔ w.getLsbD i = true := by
  have hbit : ∀ j < 32, ((w &&& (1#32 <<< i).signExtend 64).setWidth 32).getLsbD j =
      (w.getLsbD j && decide (i = j)) := by
    intro j hj
    rw [BitVec.getLsbD_setWidth, decide_eq_true hj, Bool.true_and, BitVec.getLsbD_and,
      getLsbD_int _ hj, getLsbD_one_shift hj]
  constructor
  · intro hne
    by_contra hclear
    refine hne (BitVec.eq_of_getLsbD_eq fun j hj => ?_)
    rw [hbit j hj, BitVec.getLsbD_zero]
    by_cases hij : i = j
    · subst hij
      simpa using hclear
    · simp [hij]
  · intro hset hzero
    have hi' := hbit i hi
    rw [hzero, hset] at hi'
    simp at hi'

end Words

/-! ## The functions -/

theorem maskLimit_le (gnu : Bool) : maskLimit gnu ≤ 32 := by
  cases gnu <;> decide

theorem shiftOne_of_lt {k : Nat} (hk : k < maskLimit gnu) : shiftOne gnu k = some (1#32 <<< k) := by
  refine if_pos ?_
  cases gnu with
  | false => exact .inl hk
  | true =>
    rcases Nat.lt_succ_iff_lt_or_eq.mp (show k < 31 + 1 from hk) with hlt | heq
    · exact .inl hlt
    · exact .inr ⟨rfl, heq⟩

theorem shiftOne_maskLimit (gnu : Bool) : shiftOne gnu (maskLimit gnu) = none := by
  cases gnu <;> rfl

theorem calloc_nwords (left : Nat → WordT) (nbits : SizeT) :
    (bitsetCalloc left nbits).nwords.toNat = nbits.toNat / 64 + 1 := by
  have hlt := nbits.isLt
  have hdiv : (nbits / 64).toNat = nbits.toNat / 64 := BitVec.toNat_udiv
  have hadd : (nbits / 64 + 1).toNat = (nbits / 64).toNat + 1 :=
    BitVec.toNat_add_of_lt (by rw [hdiv]; show _ + 1 < _; omega)
  rw [bitsetCalloc, bitsetClearAll, hadd, hdiv]

theorem bitsetIndex_of_lt {b : SizeT} (hb : b.toNat < 64) : bitsetIndex b = 0 := by
  rw [bitsetIndex, wordSize, Nat.div_eq_of_lt hb]
  rfl

/-- The word of a small index is the first one, and its mask can be computed. -/
theorem access_eq {data : Bitset} (hdata : 0 < data.nwords.toNat) {b : SizeT}
    (hb : b.toNat < maskLimit gnu) : data.wordAt (bitsetIndex b) = some 0 ∧
      shiftOne gnu (bitsetBoffset b) = some (1#32 <<< b.toNat) := by
  have hb64 : b.toNat < 64 := hb.trans_le ((maskLimit_le gnu).trans (by decide))
  constructor
  · rw [bitsetIndex_of_lt hb64]
    exact if_pos ⟨le_refl _, Int.natCast_pos.mpr hdata⟩
  · rw [bitsetBoffset, wordSize, Nat.mod_eq_of_lt hb64, shiftOne_of_lt hb]

/-- The first word has the bits of a set of indices. -/
structure Represents (nbits : SizeT) (data : Bitset) (s : Set SizeT) : Prop where
  nwords_pos : 0 < data.nwords.toNat
  bits : ∀ b < nbits, (data.words 0).getLsbD b.toNat = true ↔ b ∈ s

theorem calloc_represents (left : Nat → WordT) (nbits : SizeT) :
    Represents nbits (bitsetCalloc left nbits) {b | (left 0).getLsbD b.toNat = true} where
  nwords_pos := by
    rw [calloc_nwords]
    exact Nat.succ_pos _
  bits _ _ := Iff.rfl

section Functions

variable {data : Bitset} {s : Set SizeT}

theorem exec_represents (data : Bitset) (s : Set SizeT) (c : BitsetCall)
    (hlimit : nbits.toNat ≤ maskLimit gnu) (h : Represents nbits data s) (hc : c.index < nbits) :
    ∃ data', c.exec gnu data = some data' ∧ Represents nbits data' (c.onSet s) := by
  have hlt : ∀ b < nbits, b.toNat < maskLimit gnu := fun b hb => hb.trans_le hlimit
  have hlt32 : ∀ b < nbits, b.toNat < 32 := fun b hb => (hlt b hb).trans_le (maskLimit_le gnu)
  cases c with
  | set b =>
    obtain ⟨hword, hmask⟩ := access_eq h.nwords_pos (hlt b hc)
    have hexec : BitsetCall.exec gnu data (.set b) = some { data with
        words := Function.update data.words 0
          (data.words 0 ||| (1#32 <<< b.toNat).signExtend 64) } := by
      rw [BitsetCall.exec, bitsetSet, hword, hmask]
      rfl
    refine ⟨_, hexec, h.nwords_pos, fun b' hb' => ?_⟩
    simp only [Function.update_self, getLsbD_or_mask _ (hlt32 b' hb'), Bool.or_eq_true,
      h.bits b' hb', decide_eq_true_eq, BitVec.toNat_inj]
    rw [or_comm, eq_comm, BitsetCall.onSet, Set.mem_insert_iff]
  | clear b =>
    obtain ⟨hword, hmask⟩ := access_eq h.nwords_pos (hlt b hc)
    have hexec : BitsetCall.exec gnu data (.clear b) = some { data with
        words := Function.update data.words 0
          (data.words 0 &&& (~~~(1#32 <<< b.toNat)).signExtend 64) } := by
      rw [BitsetCall.exec, bitsetClear, hword, hmask]
      rfl
    refine ⟨_, hexec, h.nwords_pos, fun b' hb' => ?_⟩
    simp only [Function.update_self, getLsbD_and_mask_not _ (hlt32 b' hb'), Bool.and_eq_true,
      h.bits b' hb', Bool.not_eq_true', decide_eq_false_iff_not, BitVec.toNat_inj]
    rw [eq_comm, BitsetCall.onSet, Set.mem_sdiff, Set.mem_singleton_iff]

theorem bitsetGet_spec (h : Represents nbits data s) {b : SizeT} (hb : b < nbits)
    (hlt : b.toNat < maskLimit gnu) :
    ∃ v, bitsetGet gnu data b = some v ∧ (v ≠ 0 ↔ b ∈ s) := by
  obtain ⟨hword, hmask⟩ := access_eq h.nwords_pos hlt
  have hget : bitsetGet gnu data b =
      some ((data.words 0 &&& (1#32 <<< b.toNat).signExtend 64).setWidth 32) := by
    rw [bitsetGet, hword, hmask]
    rfl
  refine ⟨_, hget, ?_⟩
  exact (and_mask_ne_zero_iff _ (hlt.trans_le (maskLimit_le gnu))).trans (h.bits b hb)

end Functions

/-! ## Runs -/

/-- The last calls tell which indices are in the set, but for indices without a call that have been
there from the start. -/
theorem mem_foldl_onSet_iff (s : Set SizeT) (b : SizeT) :
    (b ∈ calls.foldl BitsetCall.onSet s ↔ LastSets calls b) ↔
      ((∀ c ∈ calls, c.index ≠ b) → b ∉ s) := by
  refine LastWrite.mem_foldl_iff (fun s c hc => ?_) (fun s c hc => ?_) calls s b
  · rw [hc]
    rfl
  · cases c with
    | set b' => exact absurd rfl hc
    | clear b' => rfl

theorem run_represents (hlimit : nbits.toNat ≤ maskLimit gnu) (left : Nat → WordT)
    (hcalls : ∀ c ∈ calls, c.index < nbits) :
    ∃ data, Machine.run (BitsetCall.exec gnu) (bitsetCalloc left nbits) calls = some data ∧
      Represents nbits data
        (calls.foldl BitsetCall.onSet {b | (left 0).getLsbD b.toNat = true}) := by
  have h0 := calloc_represents left nbits
  exact Machine.run_simulation (fun data s c => exec_represents data s c hlimit) h0 hcalls

/-- The answers are right if and only if what `malloc` has left does not show. -/
theorem answers_iff (hlimit : nbits.toNat ≤ maskLimit gnu) (left : Nat → WordT)
    (hcalls : ∀ c ∈ calls, c.index < nbits) :
    (∃ data, Machine.run (BitsetCall.exec gnu) (bitsetCalloc left nbits) calls = some data ∧
      ∀ b < nbits, ∃ v, bitsetGet gnu data b = some v ∧ (v ≠ 0 ↔ LastSets calls b)) ↔
      LeftZero left nbits calls := by
  obtain ⟨data, hrun, hrepr⟩ := run_represents hlimit left hcalls
  have hget : ∀ b < nbits, ∃ v, bitsetGet gnu data b = some v ∧ (v ≠ 0 ↔ b ∈ _) :=
    fun b hb => bitsetGet_spec hrepr hb (hb.trans_le hlimit)
  constructor
  · rintro ⟨data', hrun', hanswers⟩ b hb hnone
    obtain rfl : data = data' := Option.some.inj (hrun.symm.trans hrun')
    obtain ⟨v, hv, hmem⟩ := hget b hb
    obtain ⟨v', hv', hlast⟩ := hanswers b hb
    obtain rfl : v = v' := Option.some.inj (hv.symm.trans hv')
    have hnot := (mem_foldl_onSet_iff _ b).mp (hmem.symm.trans hlast) hnone
    exact Bool.eq_false_of_not_eq_true hnot
  · intro hzero
    refine ⟨data, hrun, fun b hb => ?_⟩
    obtain ⟨v, hv, hmem⟩ := hget b hb
    refine ⟨v, hv, hmem.trans ((mem_foldl_onSet_iff _ b).mpr fun hnone => ?_)⟩
    exact Bool.eq_false_iff.mp (hzero b hb hnone)

theorem ActsAsSet.le_maskLimit (h : ActsAsSet gnu left nbits calls) :
    nbits.toNat ≤ maskLimit gnu := by
  by_contra hgt
  -- the first index without a mask
  have hlimit32 := maskLimit_le gnu
  have hb : (BitVec.ofNat 64 (maskLimit gnu)).toNat = maskLimit gnu :=
    (BitVec.toNat_ofNat _ _).trans (Nat.mod_eq_of_lt (by omega))
  have hlt : BitVec.ofNat 64 (maskLimit gnu) < nbits := by
    rw [BitVec.lt_def, hb]
    omega
  obtain ⟨data, -, hanswers⟩ := h.answers
  obtain ⟨v, hv, -⟩ := hanswers _ hlt
  have hboffset : bitsetBoffset (BitVec.ofNat 64 (maskLimit gnu)) = maskLimit gnu := by
    rw [bitsetBoffset, hb, wordSize, Nat.mod_eq_of_lt (by omega)]
  rw [bitsetGet, hboffset, shiftOne_maskLimit] at hv
  simp at hv

/-- **When `bitset_t` is a set of indices**: exactly when all indices have a mask in `int`, and the
bits on which no call is made have been zero by chance. -/
theorem bitset_acts_as_set_iff (gnu : Bool) (left : Nat → WordT) (nbits : SizeT)
    (calls : List BitsetCall) (hcalls : ∀ c ∈ calls, c.index < nbits) :
    ActsAsSet gnu left nbits calls ↔
      nbits.toNat ≤ maskLimit gnu ∧ LeftZero left nbits calls := by
  constructor
  · intro h
    have hlimit := h.le_maskLimit
    exact ⟨hlimit, (answers_iff hlimit left hcalls).mp h.answers⟩
  · rintro ⟨hlimit, hzero⟩
    refine ⟨fun b hb => ?_, (answers_iff hlimit left hcalls).mpr hzero⟩
    have hb64 : b.toNat < 64 := by
      have hlt := BitVec.lt_def.mp hb
      have := maskLimit_le gnu
      omega
    rw [bitsetIndex_of_lt hb64, calloc_nwords]
    omega

/-- Twenty indices in cleared words. -/
theorem bitset_acts_as_set_iff_twenty :
    ActsAsSet false (fun _ => 0) 20 [.set 3, .set 19, .clear 3] :=
  (bitset_acts_as_set_iff false (fun _ => 0) 20 _ (by decide)).mpr
    ⟨by decide, fun b _ _ => BitVec.getLsbD_zero⟩

/-- In the upper half of a word there is no mask, even if the words have been cleared. -/
theorem bitset_not_acts_as_set :
    ¬ ∀ (gnu : Bool) (left : Nat → WordT) (nbits : SizeT) (calls : List BitsetCall),
      (∀ c ∈ calls, c.index < nbits) → ActsAsSet gnu left nbits calls := by
  intro h
  obtain ⟨data, hrun, -⟩ := (h true (fun _ => 0) 64 [.set 40] (by decide)).answers
  have hset : BitsetCall.exec true (bitsetCalloc (fun _ => 0) 64) (.set 40) = none := by decide
  rw [Machine.run_cons, hset] at hrun
  cases hrun

end Twd
