import Mathlib.Tactic.IntervalCases
import Twd.Util.Prefix

/-!
# Proofs about prefixes of addresses

The octets that the code compares, with the mask for the last of them, stand for the bits of the
prefix. The sets of addresses with a prefix are the blocks of these bits.
-/

namespace Twd

open Blocks

variable {a b p q : Address} {n : Nat}

/-! ## Octets and bits -/

/-- The mask for the first `k` bits of an octet. -/
def topBits (k : Nat) : UInt8 := UInt8.ofNat (0xFF <<< (8 - k))

theorem getMsbD_topBits {k j : Nat} (hk : k < 8) (hj : j < 8) :
    (topBits k).toBitVec.getMsbD j = decide (j < k) := by
  have hall : ∀ k < 8, ∀ j < 8, (topBits k).toBitVec.getMsbD j = decide (j < k) := by decide
  exact hall k hk j hj

theorem octet_eq_iff {x y : UInt8} :
    x = y ↔ ∀ j < 8, x.toBitVec.getMsbD j = y.toBitVec.getMsbD j := by
  refine ⟨fun h j _ => by rw [h], fun h => ?_⟩
  exact UInt8.toBitVec_inj.mp (BitVec.eq_of_getMsbD_eq h)

theorem and_topBits_iff {x y : UInt8} {k : Nat} (hk : k < 8) :
    x &&& topBits k = y &&& topBits k ↔
      ∀ j < k, x.toBitVec.getMsbD j = y.toBitVec.getMsbD j := by
  rw [octet_eq_iff]
  simp only [UInt8.toBitVec_and, BitVec.getMsbD_and]
  refine ⟨fun h j hj => ?_, fun h j hj => ?_⟩
  · have hbit := h j (by omega)
    rwa [getMsbD_topBits hk (by omega), decide_eq_true hj, Bool.and_true, Bool.and_true] at hbit
  · rw [getMsbD_topBits hk hj]
    by_cases hjk : j < k
    · rw [h j hjk]
    · simp [hjk]

theorem Address.getElem?_bytes (a : Address) {i : Nat} (hi : i < 16) :
    a.bytes[i]? = some (a.bytes.getD i 0) := by
  have hlen := a.length_bytes
  rw [List.getD_eq_getElem?_getD, List.getElem?_eq_getElem (by omega)]
  rfl

theorem take_bytes_iff {k : Nat} (hk : k ≤ 16) :
    a.bytes.take k = b.bytes.take k ↔ ∀ i < k, a.bytes.getD i 0 = b.bytes.getD i 0 := by
  have ha := a.length_bytes
  have hb := b.length_bytes
  constructor
  · intro h i hi
    have hget := congrArg (fun l => l.getD i 0) h
    simpa only [List.getD_eq_getElem?_getD, List.getElem?_take, if_pos hi] using hget
  · intro h
    refine List.ext_getElem? fun i => ?_
    simp only [List.getElem?_take]
    split_ifs with hi
    · rw [a.getElem?_bytes (by omega), b.getElem?_bytes (by omega), h i hi]
    · rfl

/-- The first bits agree when the octets before the last do, and the last under its mask. -/
theorem agree_iff {i k : Nat} (hk : k < 8) (hn : i * 8 + k ≤ 128) :
    agree (i * 8 + k) a b ↔ a.bytes.take i = b.bytes.take i ∧
      a.bytes.getD i 0 &&& topBits k = b.bytes.getD i 0 &&& topBits k := by
  rw [take_bytes_iff (by omega), and_topBits_iff hk]
  constructor
  · intro h
    refine ⟨fun j hj => octet_eq_iff.mpr fun r hr => ?_, fun r hr => ?_⟩
    · have hbit := h (j * 8 + r) (by omega)
      rwa [Address.bit, Address.bit, show (j * 8 + r) / 8 = j by omega,
        show (j * 8 + r) % 8 = r by omega] at hbit
    · have hbit := h (i * 8 + r) (by omega)
      rwa [Address.bit, Address.bit, show (i * 8 + r) / 8 = i by omega,
        show (i * 8 + r) % 8 = r by omega] at hbit
  · rintro ⟨hoctets, hlast⟩ j hj
    rw [Address.bit, Address.bit]
    by_cases hji : j / 8 < i
    · rw [hoctets (j / 8) hji]
    · rw [show j / 8 = i by omega]
      exact hlast (j % 8) (by omega)

theorem agree_iff_of_le (hn : n ≤ 128) :
    agree n a b ↔ a.bytes.take (n / 8) = b.bytes.take (n / 8) ∧
      a.bytes.getD (n / 8) 0 &&& topBits (n % 8) = b.bytes.getD (n / 8) 0 &&& topBits (n % 8) := by
  have hsplit : n / 8 * 8 + n % 8 = n := Nat.div_add_mod' n 8
  have hiff := agree_iff (a := a) (b := b) (show n % 8 < 8 by omega)
    (show n / 8 * 8 + n % 8 ≤ 128 by omega)
  rwa [hsplit] at hiff

theorem agree_antitone : Antitone agree := fun _ _ hmn _ _ h i hi => h i (lt_of_lt_of_le hi hmn)

theorem Address.bit_of_ge (a : Address) {i : Nat} (hi : 128 ≤ i) : a.bit i = false := by
  have hlen := a.length_bytes
  rw [Address.bit, List.getD_eq_getElem?_getD, List.getElem?_eq_none (by omega)]
  simp

theorem Address.eq_of_agree (h : agree 128 a b) : a = b := by
  have hbytes := ((agree_iff_of_le le_rfl).mp h).1
  rw [List.take_of_length_le a.length_bytes.le, List.take_of_length_le b.length_bytes.le] at hbytes
  exact Address.ext hbytes

/-! ## `in_prefix` -/

theorem inPrefix_spec (a p : Address) (plen : UInt8) :
    ∃ r, inPrefix a p plen = some r ∧ (r = true ↔ a ∈ addresses p (min plen.toNat 128)) := by
  have hlen : (if 128 < plen.toNat then 128 else plen.toNat) = min plen.toNat 128 := by
    split_ifs <;> omega
  set n := min plen.toNat 128 with hn
  have hle : n ≤ 128 := Nat.min_le_right _ _
  have hmem : a ∈ addresses p n ↔ agree n a p := Iff.rfl
  rw [hmem, agree_iff_of_le hle]
  simp only [inPrefix, hlen]
  by_cases htake : a.bytes.take (n / 8) = p.bytes.take (n / 8)
  · by_cases hmod : n % 8 = 0
    · exact ⟨true, by simp [htake, hmod], by simp [htake, hmod, topBits]⟩
    · have hi : n / 8 < 16 := by omega
      refine ⟨decide (a.bytes.getD (n / 8) 0 &&& topBits (n % 8) =
        p.bytes.getD (n / 8) 0 &&& topBits (n % 8)), ?_, ?_⟩
      · simp only [htake, hmod, ne_eq, not_true_eq_false, if_false, a.getElem?_bytes hi,
          p.getElem?_bytes hi, Option.bind_eq_bind, Option.bind_some]
        rfl
      · simp only [htake, true_and, decide_eq_true_eq]
  · exact ⟨false, by simp [htake], by simp [htake]⟩

/-! ## `mask_prefix` -/

/-- The octets that `mask_prefix` leaves when the length is less than 128. -/
def maskedOctet (p : Address) (i k j : Nat) : UInt8 :=
  if j < i then p.bytes.getD j 0
  else if j = i then p.bytes.getD i 0 &&& topBits k
  else 0

theorem maskPrefix_octets (p : Address) {plen : UInt8} (h : plen.toNat < 128) :
    ∃ r : Address, maskPrefix p plen = some r.bytes ∧
      ∀ j < 16, r.bytes.getD j 0 = maskedOctet p (plen.toNat / 8) (plen.toNat % 8) j := by
  set i := plen.toNat / 8 with hi
  set k := plen.toNat % 8 with hk
  have hi16 : i < 16 := by omega
  have hlen := p.length_bytes
  have hmask : ∀ k < 8, UInt8.ofNat ((0xFF <<< (8 - k)) &&& 0xFF) = topBits k := by decide
  have hret : (p.bytes.take i ++ (List.replicate 16 0).drop i).length = 16 := by
    simp [hlen]
    omega
  have hget : ∀ j < 16, (p.bytes.take i ++ (List.replicate 16 0).drop i).getD j 0 =
      if j < i then p.bytes.getD j 0 else 0 := by
    intro j hj
    simp only [List.getD_eq_getElem?_getD, List.getElem?_append, List.length_take,
      List.getElem?_take, List.getElem?_drop, List.getElem?_replicate, hlen]
    by_cases hji : j < i
    · rw [if_pos (by omega), if_pos hji, if_pos hji]
    · rw [if_neg (by omega), if_neg hji]
      split_ifs <;> rfl
  have hnot : ¬ 128 ≤ plen.toNat := by omega
  by_cases hk0 : k = 0
  · refine ⟨⟨_, hret⟩, ?_, fun j hj => ?_⟩
    · simp only [maskPrefix, hnot, if_false, ← hi, ← hk, hk0, ne_eq, not_true_eq_false]
    · rw [hget j hj, maskedOctet, hk0]
      have hzero : ∀ x : UInt8, x &&& topBits 0 = 0 := by simp [topBits]
      by_cases hji : j < i
      · rw [if_pos hji, if_pos hji]
      · rw [if_neg hji, if_neg hji, hzero, ite_self]
  · refine ⟨⟨(p.bytes.take i ++ (List.replicate 16 0).drop i).set i (p.bytes.getD i 0 &&& topBits k),
      (List.length_set ..).trans hret⟩, ?_, fun j hj => ?_⟩
    · simp only [maskPrefix, hnot, if_false, ← hi, ← hk, hk0, ne_eq, not_false_eq_true, if_true,
        p.getElem?_bytes hi16, hmask k (by omega), Option.bind_eq_bind, Option.bind_some]
    · rw [List.getD_eq_getElem?_getD, List.getElem?_set, maskedOctet]
      by_cases hji : i = j
      · rw [if_pos hji, if_pos (by omega), ← hji, if_neg (lt_irrefl i), if_pos rfl]
        rfl
      · rw [if_neg hji, ← List.getD_eq_getElem?_getD, hget j hj, if_neg (Ne.symm hji)]

/-- The bits of the prefix are kept and the others are zero. -/
theorem maskPrefix_spec (p : Address) (plen : UInt8) :
    ∃ r : Address, maskPrefix p plen = some r.bytes ∧
      ∀ j, r.bit j = (decide (j < plen.toNat) && p.bit j) := by
  by_cases h : plen.toNat < 128
  · obtain ⟨r, hr, hoctets⟩ := maskPrefix_octets p h
    refine ⟨r, hr, fun j => ?_⟩
    by_cases hj : j < 128
    · rw [Address.bit, Address.bit, hoctets (j / 8) (by omega), maskedOctet]
      rcases lt_trichotomy (j / 8) (plen.toNat / 8) with hlt | heq | hgt
      · rw [if_pos hlt, decide_eq_true (by omega), Bool.true_and]
      · rw [if_neg (by omega), if_pos heq, UInt8.toBitVec_and, BitVec.getMsbD_and,
          getMsbD_topBits (by omega) (by omega), heq, Bool.and_comm]
        congr 1
        exact decide_eq_decide.mpr (by omega)
      · rw [if_neg (by omega), if_neg (by omega), decide_eq_false (by omega), Bool.false_and]
        simp
    · rw [r.bit_of_ge (by omega), p.bit_of_ge (by omega), Bool.and_false]
  · refine ⟨p, by simp [maskPrefix, Nat.le_of_not_lt h], fun j => ?_⟩
    by_cases hj : j < 128
    · rw [decide_eq_true (by omega), Bool.true_and]
    · rw [p.bit_of_ge (by omega), Bool.and_false]

/-! ## `prefixes_cmp` -/

theorem prefixesLoop_spec (p q : Address) (remaining : Nat) :
    ∀ i, i + remaining ≤ 16 → ∃ r, prefixesLoop p q remaining i = some r ∧
      (r = true ↔ ∀ j, i ≤ j → j < i + remaining → p.bytes.getD j 0 = q.bytes.getD j 0) := by
  induction remaining with
  | zero => exact fun i _ => ⟨true, rfl, by simp; omega⟩
  | succ remaining ih =>
    intro i hi
    by_cases hoctet : p.bytes.getD i 0 = q.bytes.getD i 0
    · obtain ⟨r, hr, hiff⟩ := ih (i + 1) (by omega)
      refine ⟨r, ?_, hiff.trans ⟨fun h j hij hj => ?_, fun h j hij hj => h j (by omega) (by omega)⟩⟩
      · simp only [prefixesLoop, p.getElem?_bytes (show i < 16 by omega),
          q.getElem?_bytes (show i < 16 by omega), Option.bind_eq_bind, Option.bind_some, hoctet,
          ne_eq, not_true_eq_false, if_false, hr]
      · rcases Nat.eq_or_lt_of_le hij with rfl | hlt
        · exact hoctet
        · exact h j hlt (by omega)
    · refine ⟨false, ?_, ?_⟩
      · simp only [prefixesLoop, p.getElem?_bytes (show i < 16 by omega),
          q.getElem?_bytes (show i < 16 by omega), Option.bind_eq_bind, Option.bind_some, hoctet,
          ne_eq, not_false_eq_true, if_true]
      · simp only [Bool.false_eq_true, false_iff]
        exact fun h => hoctet (h i le_rfl (by omega))

/-- The sign bit shifted to the right is the mask for the first bits. -/
theorem andMask_eq_iff {x y : UInt8} {k : Nat} (hk : k < 8) (hpos : k ≠ 0) :
    andMask x ((0x80 : BitVec 8).sshiftRight (k - 1)) =
      andMask y ((0x80 : BitVec 8).sshiftRight (k - 1)) ↔ x &&& topBits k = y &&& topBits k := by
  have hmask : ∀ k < 8, k ≠ 0 →
      (0x80 : BitVec 8).sshiftRight (k - 1) = (topBits k).toBitVec := by decide
  have hand : ∀ z : UInt8, andMask z (topBits k).toBitVec =
      (z &&& topBits k).toBitVec.setWidth 32 := by
    intro z
    refine BitVec.eq_of_getLsbD_eq fun i hi => ?_
    by_cases hi8 : i < 8
    · simp [andMask, BitVec.getElem_signExtend, hi8, hi]
    · simp [andMask, hi, BitVec.getLsbD_of_ge _ i (Nat.le_of_not_lt hi8)]
  rw [hmask k hk hpos, hand, hand]
  constructor
  · intro h
    have hnat := congrArg BitVec.toNat h
    rw [BitVec.toNat_setWidth_of_le (by decide), BitVec.toNat_setWidth_of_le (by decide)] at hnat
    exact UInt8.toBitVec_inj.mp (BitVec.eq_of_toNat_eq hnat)
  · intro h
    rw [h]

/-- The status is read off the first bits, up to the smaller length, and the lengths. -/
theorem prefixesCmp_eq (p q : Address) {m n : UInt8} (hmin : min m.toNat n.toNat ≤ 128) :
    ∃ r, prefixesCmp p m q n = some r ∧
      ((r = .disjoint ∧ ¬ agree (min m.toNat n.toNat) p q) ∨
        (agree (min m.toNat n.toNat) p q ∧ ((r = .lessSpecific ∧ m < n) ∨
          (r = .moreSpecific ∧ n < m) ∨ (r = .equals ∧ m = n)))) := by
  set l := min m.toNat n.toNat with hl
  obtain ⟨same, hloop, hsame⟩ := prefixesLoop_spec p q (l / 8) 0 (by omega)
  have htake : same = true ↔ p.bytes.take (l / 8) = q.bytes.take (l / 8) := by
    rw [hsame, take_bytes_iff (by omega)]
    simp
  have hmod : l - l / 8 * 8 = l % 8 := by omega
  have hstatus : ∃ r, (if m < n then some PrefixesStatus.lessSpecific
      else if m > n then some .moreSpecific else some .equals) = some r ∧
      ((r = .lessSpecific ∧ m < n) ∨ (r = .moreSpecific ∧ n < m) ∨ (r = .equals ∧ m = n)) := by
    by_cases hlt : m < n
    · exact ⟨_, if_pos hlt, .inl ⟨rfl, hlt⟩⟩
    by_cases hgt : n < m
    · refine ⟨_, ?_, .inr (.inl ⟨rfl, hgt⟩)⟩
      rw [if_neg hlt, if_pos hgt]
    · refine ⟨_, ?_, .inr (.inr ⟨rfl, ?_⟩)⟩
      · rw [if_neg hlt, if_neg hgt]
      · rw [UInt8.lt_iff_toNat_lt] at hlt hgt
        exact UInt8.toNat_inj.mp (by omega)
  obtain ⟨r, hr, hcases⟩ := hstatus
  rw [agree_iff_of_le hmin]
  simp only [prefixesCmp, ← hl, hloop, Option.bind_eq_bind, Option.bind_some, hmod]
  by_cases hs : same = true
  · have heq := htake.mp hs
    by_cases hk : l % 8 = 0
    · refine ⟨r, ?_, .inr ⟨⟨heq, by simp [hk, topBits]⟩, hcases⟩⟩
      simp [hs, hk, hr]
    · have hi : l / 8 < 16 := by omega
      have hiff := andMask_eq_iff (x := p.bytes.getD (l / 8) 0) (y := q.bytes.getD (l / 8) 0)
        (show l % 8 < 8 by omega) hk
      simp only [hs, hk, p.getElem?_bytes hi, q.getElem?_bytes hi, Option.bind_some, ne_eq,
        not_false_eq_true, if_true, not_true_eq_false, if_false, decide_eq_true_eq, hiff]
      by_cases hlast : p.bytes.getD (l / 8) 0 &&& topBits (l % 8) =
          q.bytes.getD (l / 8) 0 &&& topBits (l % 8)
      · exact ⟨r, by rw [if_neg (not_not_intro hlast), hr], .inr ⟨⟨heq, hlast⟩, hcases⟩⟩
      · exact ⟨.disjoint, by rw [if_pos hlast], .inl ⟨rfl, fun h => hlast h.2⟩⟩
  · exact ⟨.disjoint, by simp [hs], .inl ⟨rfl, fun h => hs (htake.mpr h.1)⟩⟩

/-! ## Sets of addresses -/

/-- The bit `r` of an octet alone. -/
def oneBit (r : Nat) : UInt8 := UInt8.ofNat (0x80 >>> r)

theorem getMsbD_oneBit {r j : Nat} (hr : r < 8) (hj : j < 8) :
    (oneBit r).toBitVec.getMsbD j = decide (j = r) := by
  have hall : ∀ r < 8, ∀ j < 8, (oneBit r).toBitVec.getMsbD j = decide (j = r) := by decide
  exact hall r hr j hj

/-- The address with one bit turned over. -/
theorem Address.exists_flip (a : Address) {m : Nat} (hm : m < 128) :
    ∃ z : Address, ∀ i, z.bit i = (a.bit i ^^ decide (i = m)) := by
  have hlen := a.length_bytes
  refine ⟨⟨a.bytes.set (m / 8) (a.bytes.getD (m / 8) 0 ^^^ oneBit (m % 8)), by simp [hlen]⟩,
    fun i => ?_⟩
  have hm16 : m / 8 < a.bytes.length := by omega
  rw [Address.bit, Address.bit]
  by_cases hi : m / 8 = i / 8
  · have hset : (a.bytes.set (m / 8) (a.bytes.getD (m / 8) 0 ^^^ oneBit (m % 8))).getD (i / 8) 0 =
        a.bytes.getD (i / 8) 0 ^^^ oneBit (m % 8) := by
      rw [← hi, List.getD_eq_getElem?_getD, List.getElem?_set_self hm16]
      rfl
    rw [hset, UInt8.toBitVec_xor, BitVec.getMsbD_xor, getMsbD_oneBit (by omega) (by omega)]
    congr 1
    exact decide_eq_decide.mpr (by omega)
  · have hset : (a.bytes.set (m / 8) (a.bytes.getD (m / 8) 0 ^^^ oneBit (m % 8))).getD (i / 8) 0 =
        a.bytes.getD (i / 8) 0 := by
      rw [List.getD_eq_getElem?_getD, List.getElem?_set_ne hi, ← List.getD_eq_getElem?_getD]
    rw [hset, decide_eq_false (by omega), Bool.xor_false]

theorem agree_splits : Splits agree 128 := by
  intro x m n hmn hn
  obtain ⟨z, hz⟩ := x.exists_flip (show m < 128 by omega)
  refine ⟨z, fun i hi => ?_, fun h => ?_⟩
  · rw [hz i, decide_eq_false (by omega), Bool.xor_false]
  · have hbit := h m hmn
    rw [hz m, decide_eq_true rfl] at hbit
    cases hx : x.bit m <;> simp [hx] at hbit

/-- At most one status describes two sets that are not empty. -/
theorem Describes.unique {A B : Set Address} (hA : A.Nonempty) (hB : B.Nonempty)
    {r r' : PrefixesStatus} (h : r.Describes A B) (h' : r'.Describes A B) : r' = r := by
  have hne : Disjoint A B → ¬ A ⊆ B ∧ ¬ B ⊆ A := by
    intro hd
    obtain ⟨a, ha⟩ := hA
    obtain ⟨b, hb⟩ := hB
    exact ⟨fun hs => Set.disjoint_left.mp hd ha (hs ha), fun hs => Set.disjoint_left.mp hd (hs hb) hb⟩
  cases r <;> cases r' <;> simp only [PrefixesStatus.Describes] at h h' <;> try rfl
  · exact absurd h'.le (hne h).1
  · exact absurd h'.subset (hne h).1
  · exact absurd h'.subset (hne h).2
  · exact absurd h.le (hne h').1
  · exact absurd h h'.ne
  · exact absurd h.symm h'.ne
  · exact absurd h.subset (hne h').1
  · exact absurd h' h.ne
  · exact absurd h'.subset h.not_subset
  · exact absurd h.subset (hne h').2
  · exact absurd h'.symm h.ne
  · exact absurd h'.subset h.not_subset

/-- **What `prefixes_cmp` decides**: which of two prefixes has more addresses, or the same, or
none of the other's. -/
theorem prefixesCmp_describes (p q : Address) (m n : UInt8) (hm : m.toNat ≤ 128)
    (hn : n.toNat ≤ 128) :
    ∃ r, prefixesCmp p m q n = some r ∧
      ∀ r', r'.Describes (addresses p m.toNat) (addresses q n.toNat) ↔ r' = r := by
  obtain ⟨r, hr, hcases⟩ := prefixesCmp_eq p q (show min m.toNat n.toNat ≤ 128 by omega)
  suffices hdesc : r.Describes (addresses p m.toNat) (addresses q n.toNat) by
    refine ⟨r, hr, fun r' => ⟨fun h => ?_, fun h => h ▸ hdesc⟩⟩
    exact Describes.unique ⟨p, self_mem_block _ p⟩ ⟨q, self_mem_block _ q⟩ hdesc h
  rcases hcases with ⟨rfl, hnot⟩ | ⟨hagree, ⟨rfl, hlt⟩ | ⟨rfl, hgt⟩ | ⟨rfl, rfl⟩⟩
  · rcases le_total m.toNat n.toNat with hle | hle
    · rw [min_eq_left hle] at hnot
      refine Disjoint.symm ((block_disjoint_iff agree_antitone hle).mpr fun h => hnot ?_)
      exact (agree _).symm h
    · rw [min_eq_right hle] at hnot
      exact (block_disjoint_iff agree_antitone hle).mpr hnot
  · rw [UInt8.lt_iff_toNat_lt] at hlt
    rw [min_eq_left hlt.le] at hagree
    exact (block_ssubset_iff agree_antitone agree_splits hlt hn).mpr ((agree _).symm hagree)
  · rw [UInt8.lt_iff_toNat_lt] at hgt
    rw [min_eq_right hgt.le] at hagree
    exact (block_ssubset_iff agree_antitone agree_splits hgt hm).mpr hagree
  · rw [min_self] at hagree
    exact block_eq hagree

/-- The documentation prefix and a network in it. -/
theorem prefixesCmp_describes_network :
    ∃ r, prefixesCmp ⟨0x20 :: 0x01 :: 0x0D :: 0xB8 :: List.replicate 12 0, rfl⟩ 32
        ⟨0x20 :: 0x01 :: 0x0D :: 0xB8 :: List.replicate 12 7, rfl⟩ 33 = some r ∧
      ∀ r', r'.Describes
        (addresses ⟨0x20 :: 0x01 :: 0x0D :: 0xB8 :: List.replicate 12 0, rfl⟩ 32)
        (addresses ⟨0x20 :: 0x01 :: 0x0D :: 0xB8 :: List.replicate 12 7, rfl⟩ 33) ↔ r' = r :=
  prefixesCmp_describes _ _ 32 33 (by decide) (by decide)

/-! ## The canonical prefix -/

theorem inPrefix_congr_iff (p q : Address) (plen : UInt8) :
    (∀ a, inPrefix a p plen = inPrefix a q plen) ↔ agree (min plen.toNat 128) p q := by
  rw [← block_eq_iff (s := agree)]
  constructor
  · refine fun h => Set.ext fun a => ?_
    obtain ⟨r, hr, hiff⟩ := inPrefix_spec a p plen
    obtain ⟨r', hr', hiff'⟩ := inPrefix_spec a q plen
    obtain rfl : r = r' := Option.some.inj (hr.symm.trans ((h a).trans hr'))
    exact hiff.symm.trans hiff'
  · intro h a
    obtain ⟨r, hr, hiff⟩ := inPrefix_spec a p plen
    obtain ⟨r', hr', hiff'⟩ := inPrefix_spec a q plen
    rw [hr, hr', Option.some.injEq, Bool.eq_iff_iff, hiff, hiff', addresses, addresses, h]

theorem maskPrefix_congr_iff (p q : Address) (plen : UInt8) :
    maskPrefix p plen = maskPrefix q plen ↔ agree (min plen.toNat 128) p q := by
  obtain ⟨r, hr, hbit⟩ := maskPrefix_spec p plen
  obtain ⟨r', hr', hbit'⟩ := maskPrefix_spec q plen
  rw [hr, hr', Option.some.injEq]
  constructor
  · intro h i hi
    have heq := hbit i
    rw [Address.ext h, hbit' i, decide_eq_true (by omega), Bool.true_and, Bool.true_and] at heq
    exact heq.symm
  · intro h
    refine congrArg Address.bytes (Address.eq_of_agree fun i hi => ?_)
    rw [hbit i, hbit' i]
    by_cases hlt : i < plen.toNat
    · rw [h i (by omega)]
    · rw [decide_eq_false hlt, Bool.false_and, Bool.false_and]

/-- **What `mask_prefix` is for**: its result is a prefix with the same addresses, which it does not
change any more, and prefixes of a length have the same addresses just when their results are the
same octets. -/
theorem maskPrefix_canonical (p q : Address) (plen : UInt8) :
    (∃ r : Address, maskPrefix p plen = some r.bytes ∧ maskPrefix r plen = some r.bytes ∧
      ∀ a, inPrefix a r plen = inPrefix a p plen) ∧
    (maskPrefix p plen = maskPrefix q plen ↔ ∀ a, inPrefix a p plen = inPrefix a q plen) := by
  constructor
  · obtain ⟨r, hr, hbit⟩ := maskPrefix_spec p plen
    have hagree : agree (min plen.toNat 128) r p := by
      intro i hi
      rw [hbit i, decide_eq_true (by omega), Bool.true_and]
    refine ⟨r, hr, ?_, (inPrefix_congr_iff r p plen).mpr hagree⟩
    rw [(maskPrefix_congr_iff r p plen).mpr hagree, hr]
  · rw [maskPrefix_congr_iff, inPrefix_congr_iff]

/-! ## Martian prefixes -/

theorem addresses_subset_iff {m : Nat} (hm : m ≤ 128) :
    addresses p n ⊆ addresses q m ↔ m ≤ n ∧ agree m p q :=
  block_subset_iff_of_splits agree_antitone agree_splits hm

theorem getD_forall_succ {k : Nat} :
    (∀ i < k + 1, p.bytes.getD i 0 = q.bytes.getD i 0) ↔
      (∀ i < k, p.bytes.getD i 0 = q.bytes.getD i 0) ∧ p.bytes.getD k 0 = q.bytes.getD k 0 :=
  Nat.forall_lt_succ_right

theorem agree_octets {k : Nat} (hk : k < 16) :
    agree ((k + 1) * 8) p q ↔ p.bytes.take k = q.bytes.take k ∧
      p.bytes.getD k 0 = q.bytes.getD k 0 := by
  rw [agree_iff_of_le (by omega), Nat.mul_div_cancel _ (by decide), Nat.mul_mod_left]
  have hzero : ∀ x : UInt8, x &&& topBits 0 = 0 := by simp [topBits]
  rw [hzero, hzero, take_bytes_iff (by omega), take_bytes_iff (by omega), getD_forall_succ]
  exact and_iff_left rfl

theorem v4Block_bytes (x : UInt8) : (v4Block x).bytes.take 12 = v4Prefix.take 12 := rfl

theorem multicast_iff : agree 8 p ⟨0xFF :: List.replicate 15 0, rfl⟩ ↔ p.bytes.getD 0 0 = 0xFF := by
  rw [agree_octets (show 0 < 16 by decide)]
  simp

theorem linkLocal_iff : agree 10 p ⟨0xFE :: 0x80 :: List.replicate 14 0, rfl⟩ ↔
    p.bytes.getD 0 0 = 0xFE ∧ p.bytes.getD 1 0 &&& 0xC0 = 0x80 := by
  rw [agree_iff (i := 1) (k := 2) (by decide) (by decide), take_bytes_iff (by decide),
    getD_forall_succ]
  have hmask : (0x80 : UInt8) &&& 0xC0 = 0x80 := by decide
  simp [topBits, hmask]

theorem v4Block_iff {x : UInt8} : agree 104 p (v4Block x) ↔
    v4mapped p = true ∧ p.bytes.getD 12 0 = x := by
  rw [agree_octets (show 12 < 16 by decide), v4Block_bytes, v4mapped, decide_eq_true_eq]
  rfl

theorem v4Block_half_iff {x : UInt8} (hx : x &&& topBits 4 = x) : agree 100 p (v4Block x) ↔
    v4mapped p = true ∧ p.bytes.getD 12 0 &&& 0xF0 = x := by
  rw [agree_iff (i := 12) (k := 4) (by decide) (by decide), v4Block_bytes, v4mapped,
    decide_eq_true_eq]
  have hoctet : (v4Block x).bytes.getD 12 0 = x := rfl
  rw [hoctet, hx]
  rfl

theorem zeroes_iff {zeroes : Address} (hzeroes : zeroes.bytes = List.replicate 16 0) {x : UInt8} :
    agree 128 p ⟨List.replicate 15 0 ++ [x], rfl⟩ ↔
      p.bytes.take 15 = zeroes.bytes.take 15 ∧ p.bytes.getD 15 0 = x := by
  rw [agree_octets (show 15 < 16 by decide), hzeroes]
  rfl

theorem highThree_iff (x : UInt8) : x &&& 0xE0 = 0xE0 ↔ x &&& 0xF0 = 0xE0 ∨ x &&& 0xF0 = 0xF0 := by
  have hall : ∀ n < 256, UInt8.ofNat n &&& 0xE0 = 0xE0 ↔
      UInt8.ofNat n &&& 0xF0 = 0xE0 ∨ UInt8.ofNat n &&& 0xF0 = 0xF0 := by decide +kernel
  have hx := hall x.toNat x.toNat_lt
  rwa [UInt8.ofNat_toNat] at hx

/-- **What `martian_prefix` finds**, if `zeroes` holds zeros: the prefixes whose addresses all lie in
one of the blocks. -/
theorem martianPrefix_iff (zeroes : Address) (hzeroes : zeroes.bytes = List.replicate 16 0)
    (p : Address) (plen : Int) :
    martianPrefix zeroes p plen = true ↔
      ∃ b ∈ martianBlocks, addresses p (min plen.toNat 128) ⊆ addresses b.1 b.2 := by
  have hlen : ∀ m : Nat, 0 < m → m ≤ 128 → (m ≤ min plen.toNat 128 ↔ (m : Int) ≤ plen) := by
    intro m _ _
    omega
  simp only [martianBlocks, List.mem_cons, List.not_mem_nil, or_false, exists_eq_or_imp,
    exists_eq_left]
  rw [addresses_subset_iff (by decide), addresses_subset_iff (by decide),
    addresses_subset_iff (by decide), addresses_subset_iff (by decide),
    addresses_subset_iff (by decide), addresses_subset_iff (by decide),
    addresses_subset_iff (by decide), addresses_subset_iff (by decide)]
  rw [hlen 8 (by decide) (by decide), hlen 10 (by decide) (by decide),
    hlen 128 (by decide) (by decide), hlen 104 (by decide) (by decide),
    hlen 100 (by decide) (by decide), multicast_iff, linkLocal_iff, v4Block_iff, v4Block_iff,
    v4Block_half_iff (by decide), v4Block_half_iff (by decide), zeroes_iff hzeroes,
    zeroes_iff hzeroes]
  simp only [martianPrefix, decide_eq_true_eq, highThree_iff, Nat.cast_ofNat]
  have h104 : (104 : Int) ≤ plen → 96 ≤ plen := by omega
  have h100 : (100 : Int) ≤ plen → 96 ≤ plen := by omega
  -- the lengths that the code asks for twice follow from each other
  constructor
  · rintro (h | h | ⟨h, hz, h0 | h1⟩ | ⟨-, hm, ⟨h, h127 | h0⟩ | ⟨h, hlo | hhi⟩⟩) <;>
      simp only [*, true_and, true_or, or_true]
  · rintro (h | h | ⟨h, hz, h0⟩ | ⟨h, hz, h1⟩ | ⟨h, hm, h127⟩ | ⟨h, hm, h0⟩ | ⟨h, hm, hlo⟩ |
      ⟨h, hm, hhi⟩) <;>
      simp only [*, true_and, true_or, or_true]

/-- `::1`, as one address. -/
theorem martianPrefix_iff_loopback :
    martianPrefix ⟨List.replicate 16 0, rfl⟩ ⟨List.replicate 15 0 ++ [1], rfl⟩ 128 = true ↔
      ∃ b ∈ martianBlocks, addresses ⟨List.replicate 15 0 ++ [1], rfl⟩ (min (128 : Int).toNat 128) ⊆
        addresses b.1 b.2 :=
  martianPrefix_iff ⟨List.replicate 16 0, rfl⟩ rfl _ 128

/-- The IPv4 addresses among the IPv6 addresses are a block. -/
theorem v4mapped_iff (a : Address) : v4mapped a = true ↔ a ∈ addresses ⟨v4Prefix, rfl⟩ 96 := by
  change _ ↔ agree 96 a ⟨v4Prefix, rfl⟩
  rw [agree_iff (i := 12) (k := 0) (by decide) (by decide), v4mapped, decide_eq_true_eq]
  simp [topBits]

end Twd
