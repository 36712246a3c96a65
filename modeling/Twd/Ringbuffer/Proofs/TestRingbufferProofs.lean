import Twd.Ringbuffer.Proofs.QueueProofs
import Twd.Ringbuffer.TestRingbuffer

/-!
# Which rings pass the tests

The tests are carried out on the queue that the ring holds. They pass if the ring has room for what
they write.
-/

namespace Twd.TestRingbuffer

variable {rbuf : Ringbuffer} {mem : Memory} {items a c : List UInt8}

@[simp] theorem length_int (n : Nat) : (int n).length = 4 := LittleEndian.length_encode 4 n

theorem overwrite_of_length {dest : List UInt8} (h : c.length ≤ dest.length) :
    overwrite c dest = dest := by
  rw [overwrite, List.drop_of_length_le h, List.append_nil]

/-- A write of an `int`: it fits if there is room for its bytes. -/
theorem write_int (h : Holds rbuf mem items) (ha : a.length = 4) :
    ∃ len rbuf' mem', ringbufferWrite rbuf mem a 4 = some (len, rbuf', mem') ∧
      rbuf'.size = rbuf.size ∧ Holds rbuf' mem' (items ++ a.take len.toNat) ∧
      (len = 4 ↔ items.length + 4 ≤ rbuf.size.toNat) ∧
      len.toNat = min (rbuf.size.toNat - items.length) 4 := by
  obtain ⟨len, rbuf', mem', hw, hn, hsize, hh⟩ :=
    ringbufferWrite_spec h (show 0 < 4#64 by decide)
      (show (4#64).toNat ≤ a.length by rw [ha]; decide)
  have hlen : len.toNat = min (rbuf.size.toNat - items.length) 4 := hn
  refine ⟨len, rbuf', mem', hw, hsize, hh, ?_, hlen⟩
  rw [← BitVec.toNat_inj, hlen]
  have := h.length_le
  simp
  omega

/-- A read of an `int`. -/
theorem read_int (h : Holds rbuf mem items) (tries : Nat) :
    ∃ len rbuf', ringbufferRead (tries + 1) rbuf mem 4 = some (len, items.take 4, rbuf') ∧
      rbuf'.size = rbuf.size ∧ Holds rbuf' mem (items.drop 4) ∧ (len = 4 ↔ 4 ≤ items.length) ∧
      len.toNat = min items.length 4 := by
  obtain ⟨len, rbuf', hr, hn, hsize, hh⟩ := ringbufferRead_spec h (show 0 < 4#64 by decide) tries
  have hlen : len.toNat = min items.length 4 := hn
  refine ⟨len, rbuf', hr, hsize, hh, ?_, hlen⟩
  rw [← BitVec.toNat_inj, hlen]
  simp

/-! ## `test_basic` -/

theorem testBasic_eq (h : Holds rbuf mem []) (tries : Nat) (c : List UInt8) (hc : c.length = 4) :
    ∃ rbuf' mem', testBasic (tries + 1) c rbuf mem =
      some (if 8 ≤ rbuf.size.toNat then 0 else -1, rbuf', mem') := by
  obtain ⟨n1, rbuf1, mem1, hw1, hsize1, hh1, -, hn1⟩ := write_int h (length_int 1)
  obtain ⟨n2, rbuf2, mem2, hw2, hsize2, hh2, -, hn2⟩ := write_int hh1 (length_int 2)
  obtain ⟨n3, rbuf3, hr3, hsize3, hh3, hn3, -⟩ := read_int hh2 tries
  obtain ⟨n4, rbuf4, hr4, -, hh4, hn4, -⟩ := read_int hh3 tries
  obtain ⟨n5, rbuf5, hr5, -, -, -, hn5⟩ := read_int hh4 tries
  simp only [testBasic, hw1, hw2, hr3, hr4, hr5, Option.bind_eq_bind, Option.bind_some]
  simp only [List.nil_append, List.length_nil, Nat.sub_zero, List.length_take, length_int] at hn1 hn2
  rw [hsize1] at hn2
  have hlen : ([] ++ (int 1).take n1.toNat ++ (int 2).take n2.toNat).length =
      min rbuf.size.toNat 8 := by
    simp only [List.nil_append, List.length_append, List.length_take, length_int]
    omega
  by_cases hfirst : 4 ≤ rbuf.size.toNat
  · have htake : (int 1).take n1.toNat = int 1 :=
      List.take_of_length_le (by rw [length_int]; omega)
    have hread : ([] ++ (int 1).take n1.toNat ++ (int 2).take n2.toNat).take 4 = int 1 := by
      rw [htake, List.nil_append, List.take_left' (length_int 1)]
    have hrest : ([] ++ (int 1).take n1.toNat ++ (int 2).take n2.toNat).drop 4 =
        (int 2).take n2.toNat := by
      rw [htake, List.nil_append, List.drop_left' (length_int 1)]
    have hc1 : overwrite c (int 1) = int 1 := overwrite_of_length (by rw [length_int, hc])
    rw [if_neg (not_not.mpr (hn3.mpr (by omega))), hread, hc1, if_neg (not_not.mpr rfl)]
    rw [hrest, List.length_take, length_int] at hn4
    rw [hrest] at hn5 ⊢
    by_cases hsecond : 8 ≤ rbuf.size.toNat
    · have htake2 : (int 2).take n2.toNat = int 2 :=
        List.take_of_length_le (by rw [length_int]; omega)
      have hread2 : overwrite (int 1) ((int 2).take 4) = int 2 := rfl
      have hn5' : n5 = 0 := BitVec.eq_of_toNat_eq (by rw [hn5, htake2]; rfl)
      rw [if_neg (not_not.mpr (hn4.mpr (by omega))), htake2, hread2, if_neg (not_not.mpr rfl),
        if_neg (not_not.mpr hn5'), if_pos hsecond]
      exact ⟨_, _, rfl⟩
    · rw [if_pos (mt hn4.mp (by omega)), if_neg hsecond]
      exact ⟨_, _, rfl⟩
  · rw [if_pos (mt hn3.mp (by omega)), if_neg (by omega)]
    exact ⟨_, _, rfl⟩

/-! ## `test_rollover` -/

theorem or_one_of_lt {res : Nat} (h : res < 2) : res ||| 1 = 1 := by
  obtain rfl | rfl : res = 0 ∨ res = 1 := by omega
  · rfl
  · rfl

theorem fillLoop_spec (ha : a.length = 4) (n : Nat) : ∀ {rbuf : Ringbuffer} {mem : Memory}
    {items : List UInt8} (res : Nat), Holds rbuf mem items →
    ∃ res' rbuf' mem' items', fillLoop a n res rbuf mem = some (res', rbuf', mem') ∧
      rbuf'.size = rbuf.size ∧ Holds rbuf' mem' items' ∧
      (items.length + 4 * n ≤ rbuf.size.toNat →
        res' = res ∧ items' = items ++ (List.replicate n a).flatten) ∧
      (rbuf.size.toNat < items.length + 4 * n → res' = res ||| 1) := by
  induction n with
  | zero =>
    intro rbuf mem items res h
    refine ⟨res, rbuf, mem, items, rfl, rfl, h, fun _ => ⟨rfl, by simp⟩, fun hlt => ?_⟩
    have := h.length_le
    omega
  | succ n ih =>
    intro rbuf mem items res h
    obtain ⟨len, rbuf1, mem1, hw, hsize1, hh1, hfit, hlen⟩ := write_int h ha
    obtain ⟨res', rbuf', mem', items', hloop, hsize', hh', hroom, hfull⟩ :=
      ih (if len ≠ 4 then res ||| 1 else res) hh1
    have hlength : (items ++ a.take len.toNat).length = items.length + len.toNat := by
      rw [List.length_append, List.length_take, ha]
      omega
    rw [hsize1, hlength] at hroom hfull
    refine ⟨res', rbuf', mem', items', ?_, hsize'.trans hsize1, hh', ?_, ?_⟩
    · rw [fillLoop, hw]
      exact hloop
    · intro hle
      obtain ⟨hres, hitems⟩ := hroom (by omega)
      rw [if_neg (not_not.mpr (hfit.mpr (by omega)))] at hres
      refine ⟨hres, ?_⟩
      rw [hitems, List.take_of_length_le (by omega), List.replicate_succ, List.flatten_cons,
        List.append_assoc]
    · intro hlt
      by_cases hle : items.length + 4 ≤ rbuf.size.toNat
      · rw [if_neg (not_not.mpr (hfit.mpr hle))] at hfull
        exact hfull (by omega)
      · rw [if_pos (mt hfit.mp hle)] at hroom hfull
        by_cases hn : items.length + len.toNat + 4 * n ≤ rbuf.size.toNat
        · exact (hroom hn).1
        · rw [hfull (by omega), Nat.or_assoc, Nat.or_self]

theorem length_overwrite (hc : c.length = 4) (items : List UInt8) :
    (overwrite c (items.take 4)).length = 4 := by
  rw [overwrite, List.length_append, List.length_drop, List.length_take]
  omega

theorem drainLoop_some (tries : Nat) (left : Nat) : ∀ {rbuf : Ringbuffer} {items : List UInt8}
    (i : Nat) {c : List UInt8}, c.length = 4 → Holds rbuf mem items →
    ∃ i' c' count rbuf' items',
      drainLoop (tries + 1) mem a left i c rbuf = some (i', c', count, rbuf') ∧
      c'.length = 4 ∧ rbuf'.size = rbuf.size ∧ Holds rbuf' mem items' := by
  induction left with
  | zero =>
    intro rbuf items i c hc h
    obtain ⟨n, rbuf1, hr, hsize1, hh1, -⟩ := read_int h tries
    simp only [drainLoop, hr, Option.bind_eq_bind, Option.bind_some]
    exact ⟨_, _, _, rbuf1, items.drop 4, rfl, length_overwrite hc items, hsize1, hh1⟩
  | succ left ih =>
    intro rbuf items i c hc h
    obtain ⟨n, rbuf1, hr, hsize1, hh1, -⟩ := read_int h tries
    have hc1 := length_overwrite hc items
    simp only [drainLoop, hr, Option.bind_eq_bind, Option.bind_some]
    split_ifs
    · obtain ⟨i', c', count, rbuf', items', hloop, hc', hsize', hh'⟩ := ih (i + 1) hc1 hh1
      exact ⟨i', c', count, rbuf', items', hloop, hc', hsize'.trans hsize1, hh'⟩
    · exact ⟨_, _, _, rbuf1, items.drop 4, rfl, hc1, hsize1, hh1⟩

/-- The loop ends when there is nothing left to read. -/
theorem drainLoop_replicate (ha : a.length = 4) (tries : Nat) (n : Nat) :
    ∀ {rbuf : Ringbuffer} (left i : Nat) (c : List UInt8), c.length = 4 → (n = 0 → c = a) →
    n ≤ left → Holds rbuf mem (List.replicate n a).flatten →
    ∃ rbuf', drainLoop (tries + 1) mem a left i c rbuf = some (i + n, a, false, rbuf') ∧
      rbuf'.size = rbuf.size ∧ Holds rbuf' mem [] := by
  induction n with
  | zero =>
    intro rbuf left i c hc hca _ h
    obtain rfl := hca rfl
    obtain ⟨n, rbuf1, hr, hsize1, hh1, hn, -⟩ := read_int h tries
    have hne : ¬n = 4#64 := mt hn.mp (by simp)
    have hc' : overwrite c [] = c := rfl
    refine ⟨rbuf1, ?_, hsize1, hh1⟩
    cases left with
    | zero =>
      rw [drainLoop, hr]
      simp [hne, hc']
    | succ left =>
      rw [drainLoop, hr]
      simp [hne, hc']
  | succ n ih =>
    intro rbuf left i c hc _ hle h
    obtain ⟨left, rfl⟩ : ∃ l, left = l + 1 := ⟨left - 1, by omega⟩
    obtain ⟨len, rbuf1, hr, hsize1, hh1, hn, -⟩ := read_int h tries
    rw [List.replicate_succ, List.flatten_cons] at hr hh1 hn
    have hlen : len = 4 := hn.mpr (by rw [List.length_append]; omega)
    rw [List.drop_left' ha] at hh1
    rw [List.take_left' ha] at hr
    have hc' : overwrite c a = a := overwrite_of_length (by omega)
    obtain ⟨rbuf', hloop, hsize', hh'⟩ :=
      ih left (i + 1) a ha (fun _ => rfl) (by omega) hh1
    refine ⟨rbuf', ?_, hsize'.trans hsize1, hh'⟩
    simp only [drainLoop, hr, Option.bind_eq_bind, Option.bind_some, hc', hlen]
    rw [if_pos (by simp), hloop]
    congr 2
    omega

theorem rolloverHalf_spec (ha : a.length = 4) (hc : c.length = 4) (h : Holds rbuf mem items)
    (tries res : Nat) (hres : res < 2) :
    ∃ res' c' rbuf' mem' items',
      rolloverHalf (tries + 1) a res c rbuf mem = some (res', c', rbuf', mem') ∧
      rbuf'.size = rbuf.size ∧ Holds rbuf' mem' items' ∧ c'.length = 4 ∧ res' < 2 ∧
      (res = 0 → items = [] → 4096 ≤ rbuf.size.toNat → res' = 0 ∧ items' = [] ∧ c' = a) ∧
      (rbuf.size.toNat < 4096 → res' = 1) := by
  obtain ⟨res1, rbuf1, mem1, items1, hfill, hsize1, hh1, hroom, hfull⟩ :=
    fillLoop_spec ha 1024 res h
  obtain ⟨i, c2, count, rbuf2, items2, hdrain, hc2, hsize2, hh2⟩ :=
    drainLoop_some (a := a) tries 1024 0 hc hh1
  have hres1 : res1 < 2 := by
    rcases Nat.lt_or_ge rbuf.size.toNat (items.length + 4 * 1024) with hlt | hle
    · rw [hfull hlt, or_one_of_lt hres]
      decide
    · rw [(hroom hle).1]
      exact hres
  have hrun : rolloverHalf (tries + 1) a res c rbuf mem =
      some (if i = 1024 ∧ c2 = a ∧ count = false then res1 else res1 ||| 1, c2, rbuf2, mem1) := by
    simp only [rolloverHalf, hfill, hdrain, Option.bind_eq_bind, Option.bind_some]
  have hone := or_one_of_lt hres1
  refine ⟨_, c2, rbuf2, mem1, items2, hrun, hsize2.trans hsize1, hh2, hc2, ?_, ?_, ?_⟩
  · split_ifs <;> omega
  · rintro rfl rfl hle
    obtain ⟨rfl, hitems⟩ := hroom (by simpa using hle)
    rw [List.nil_append] at hitems
    rw [hitems] at hh1
    obtain ⟨rbuf3, hdrain', -, hh3⟩ :=
      drainLoop_replicate ha tries 1024 1024 0 c hc (by simp) le_rfl hh1
    rw [hdrain] at hdrain'
    obtain ⟨rfl, rfl, rfl, rfl⟩ : i = 0 + 1024 ∧ c2 = a ∧ count = false ∧ rbuf2 = rbuf3 := by
      simpa using hdrain'
    have hnil : items2.length = 0 := by
      have h2 := hh2.widx_eq
      have h3 := hh3.widx_eq
      simp only [List.length_nil] at h3
      omega
    exact ⟨if_pos ⟨rfl, rfl, rfl⟩, List.length_eq_zero_iff.mp hnil, rfl⟩
  · intro hlt
    have h1 : res1 = 1 := by rw [hfull (by omega), or_one_of_lt hres]
    rw [h1]
    split_ifs <;> rfl

theorem testRollover_eq (h : Holds rbuf mem []) (tries : Nat) :
    ∃ rbuf' mem', testRollover (tries + 1) rbuf mem =
      some (if 4096 ≤ rbuf.size.toNat then 0 else 1, rbuf', mem') := by
  obtain ⟨res1, c1, rbuf1, mem1, items1, hhalf1, hsize1, hh1, hc1, hres1, hpass1, hfail1⟩ :=
    rolloverHalf_spec (length_int 1) (length_int 1) h tries 0 (by decide)
  obtain ⟨res2, c2, rbuf2, mem2, items2, hhalf2, hsize2, -, -, -, hpass2, hfail2⟩ :=
    rolloverHalf_spec (length_int 2) hc1 hh1 tries res1 hres1
  refine ⟨rbuf2, mem2, ?_⟩
  simp only [testRollover, hhalf1, hhalf2, Option.bind_eq_bind, Option.bind_some]
  rw [hsize1] at hpass2 hfail2
  split_ifs with hle
  · obtain ⟨hzero, hnil, -⟩ := hpass1 rfl rfl hle
    rw [(hpass2 hzero hnil hle).1]
  · rw [hfail2 (by omega)]

end Twd.TestRingbuffer

namespace Twd

open TestRingbuffer

/-- **Which rings pass the tests**: whatever calls follow the initialisation and whatever bytes `c`
holds at first, if the ring is empty again then the basic test passes just if the ring has room for
two `int`s, and the rollover test just if it has room for 1024. -/
theorem tests_pass_iff (size : SizeT) (hpos : 0 < size.toNat) (hlt : 2 * size.toNat < 2 ^ 64)
    (mem : Memory) (tries : Nat) (calls : List Call) (hcalls : ∀ c ∈ calls, c.Valid)
    (c : List UInt8) (hc : c.length = 4) :
    ∃ s, Machine.run (Call.exec (tries + 1)) (RingState.init size mem) calls = some s ∧
      (ringbufferUsed s.rbuf = 0 →
        (∃ rbuf' mem', testBasic (tries + 1) c s.rbuf s.mem =
          some (if 8 ≤ size.toNat then 0 else -1, rbuf', mem')) ∧
        ∃ rbuf' mem', testRollover (tries + 1) s.rbuf s.mem =
          some (if 4096 ≤ size.toNat then 0 else 1, rbuf', mem')) := by
  obtain ⟨s, hrun, hs⟩ := run_simulates hpos hlt mem tries hcalls
  refine ⟨s, hrun, fun hused => ?_⟩
  have hnil : (calls.foldl Call.onQueue (⟨.empty, []⟩ : QueueState size.toNat)).queue.items = [] := by
    refine List.length_eq_zero_iff.mp ?_
    rw [← hs.holds.used_toNat, hused]
    rfl
  have hh := hs.holds
  rw [hnil] at hh
  rw [← hs.size]
  exact ⟨testBasic_eq hh tries c hc, testRollover_eq hh tries⟩

/-- The ring of `main`, whose page is crossed by the second test. -/
theorem tests_pass_iff_page :
    ∃ s, Machine.run (Call.exec 1) (RingState.init 4096 fun _ => 0)
        [.write [1, 2, 3] 3, .read 3] = some s ∧
      (ringbufferUsed s.rbuf = 0 →
        (∃ rbuf' mem', testBasic 1 [0, 0, 0, 0] s.rbuf s.mem =
          some (if 8 ≤ (4096 : SizeT).toNat then 0 else -1, rbuf', mem')) ∧
        ∃ rbuf' mem', testRollover 1 s.rbuf s.mem =
          some (if 4096 ≤ (4096 : SizeT).toNat then 0 else 1, rbuf', mem')) :=
  tests_pass_iff 4096 (by decide) (by decide) (fun _ => 0) 0 _ (by simp [Call.Valid]) _ rfl

end Twd
