import Mathlib.Data.Fintype.Card
import Twd.Infbuffer.Proofs.TestMainProofs

/-!
# Whether the program that tests the array ends

A reader ends with the first item that it loads among the last two of a writer, so that the program
ends if there are not more readers than such items. With one writer, it does not end if there are
more.
-/

namespace Twd.TestInfbuffer

variable {writers readers items : Nat}

theorem readerMaxseq_eq (hpos : 0 < items / writers) (hlt : items < 2 ^ 64) :
    readerMaxseq items writers = writerMaxseq items writers - 1 := by
  have hle := Nat.div_le_self items writers
  unfold readerMaxseq writerMaxseq
  rw [show items / writers + (2 ^ 64 - 1) = (items / writers - 1) + 2 ^ 64 by omega,
    Nat.add_mod_right, Nat.mod_eq_of_lt (by omega)]

/-- Two loads by which the same reader has left its loop are one load. -/
theorem ReadersInv.eq_of_ends {s : State writers readers} (h : ReadersInv items s)
    {l m : Loaded (Thread writers readers) Payload} (hl : l ∈ s.inf.loads) (hm : m ∈ s.inf.loads)
    (hthread : l.thread = m.thread) (hlends : Ends (readerMaxseq items writers) l.value)
    (hmends : Ends (readerMaxseq items writers) m.value) : l = m := by
  obtain ⟨i, hi, rfl⟩ := List.getElem_of_mem hl
  obtain ⟨j, hj, rfl⟩ := List.getElem_of_mem hm
  have honce := List.pairwise_iff_getElem.mp h.once
  rcases lt_trichotomy i j with hij | rfl | hji
  · exact absurd hlends (honce i j hi hj hij hthread)
  · rfl
  · exact absurd hmends (honce j i hj hi hji hthread.symm)

/-- A thread that is in a call can take its next step. -/
theorem next_isSome (items : Nat) {s : State writers readers} {t : Thread writers readers}
    (ht : s.inf.phase t ≠ .idle) : ∃ s', next items s t = some s' := by
  have hnext : ∃ inf, infbufferNext s.inf t = some inf := by
    unfold infbufferNext
    cases hp : s.inf.phase t with
    | idle => exact absurd hp ht
    | wait idx =>
      simp only
      split_ifs <;> exact ⟨_, rfl⟩
    | _ => exact ⟨_, rfl⟩
  obtain ⟨inf, hinf⟩ := hnext
  cases t with
  | writer i =>
    simp only [next, threadWriterNext]
    cases hp : s.inf.phase (.writer i) with
    | idle => exact absurd hp ht
    | _ =>
      simp only [hinf]
      exact ⟨_, rfl⟩
  | reader i =>
    simp only [next, threadReaderNext]
    cases hp : s.inf.phase (.reader i) with
    | idle => exact absurd hp ht
    | _ =>
      simp only [hinf]
      exact ⟨_, rfl⟩

/-- When nothing changes any more, every writer has returned. -/
theorem Stuck.writer {s : State writers readers} (hstuck : Stuck items s) (h : Inv items s)
    (i : Fin writers) :
    s.inf.phase (.writer i) = .idle ∧ s.seqno i = writerMaxseq items writers := by
  have hnot := h.writers.not_rem i
  have hidle : s.inf.phase (.writer i) = .idle := by
    by_contra hne
    obtain ⟨s', hs'⟩ := next_isSome items hne
    obtain ⟨idx, hwait, -⟩ := hstuck _ s' hs'
    rw [hwait] at hnot
    cases hnot
  refine ⟨hidle, ?_⟩
  by_contra hne
  have hlt : s.seqno i < writerMaxseq items writers :=
    lt_of_le_of_ne (h.writers.seqno_le i) hne
  have hnext : next items s (.writer i) ≠ none := by
    simp [next, threadWriterNext, hidle, hlt, infbufferAdd, fetchThenAdd]
  obtain ⟨s', hs'⟩ := Option.ne_none_iff_exists'.mp hnext
  obtain ⟨idx, hwait, -⟩ := hstuck _ s' hs'
  rw [hidle] at hwait
  cases hwait

/-- Then all items are there. -/
theorem Stuck.widx {s : State writers readers} (hstuck : Stuck items s) (h : Inv items s) :
    s.inf.buf.widx = writers * writerMaxseq items writers ∧
      s.inf.buf.widx = s.inf.adds.length := by
  have hq : Quiescent s.inf := by
    intro t item idx
    cases t with
    | writer i =>
      rw [(hstuck.writer h i).1]
      simp
    | reader i =>
      have hnot := h.readers.not_add i
      constructor <;>
      · intro hp
        rw [hp] at hnot
        cases hnot
  have hlen := (h.inf.add.quiescent hq).1
  refine ⟨?_, hlen⟩
  rw [hlen, h.writers.length_eq, Finset.sum_congr rfl fun i _ => (hstuck.writer h i).2,
    Finset.sum_const, Finset.card_univ, Fintype.card_fin, smul_eq_mul]

/-- A slot that has been claimed and filled has been loaded. -/
theorem Stuck.loaded {s : State writers readers} (hstuck : Stuck items s) (h : Inv items s)
    {i : Nat} (hclaimed : i < s.inf.buf.ridx) (hfilled : i < s.inf.buf.widx) :
    ∃ l ∈ s.inf.loads, l.idx = i := by
  obtain ⟨q, hq, rfl⟩ := h.inf.rem.issued.exists_of_lt hclaimed
  rcases h.inf.rem.accounted q hq with hloaded | hwait | hload
  · exact List.mem_map.mp hloaded
  · obtain ⟨s', hs'⟩ := next_isSome items (s := s) (t := q.1) (by simp [hwait])
    obtain ⟨idx, hidx, hle⟩ := hstuck _ s' hs'
    rw [hwait] at hidx
    cases hidx
    omega
  · obtain ⟨s', hs'⟩ := next_isSome items (s := s) (t := q.1) (by simp [hload])
    obtain ⟨idx, hidx, -⟩ := hstuck _ s' hs'
    rw [hload] at hidx
    cases hidx

/-- Number `k` of the items of a writer that make a reader leave its loop, from the last one on. -/
def finalItem (items : Nat) (x : Fin writers × Fin (min (items / writers) 2)) : Payload :=
  payload x.1 (writerMaxseq items writers - 1 - x.2)

theorem finalItem_injective :
    Function.Injective (finalItem items : Fin writers × _ → Payload) := by
  rintro ⟨i, k⟩ ⟨j, k'⟩ heq
  have hk := k.isLt
  have hk' := k'.isLt
  simp only [finalItem, payload, Payload.mk.injEq, writerMaxseq] at heq
  obtain ⟨-, hid, hseqno⟩ := heq
  rw [Prod.mk.injEq]
  exact ⟨Fin.ext hid, Fin.ext (by omega)⟩

/-- Each of these items has been loaded by a reader that has left its loop. -/
theorem Stuck.finalItem_loaded {s : State writers readers} (hstuck : Stuck items s)
    (h : Inv items s) (hlt : items < 2 ^ 64) (hfull : s.inf.buf.widx < s.inf.buf.ridx)
    (x : Fin writers × Fin (min (items / writers) 2)) :
    ∃ i, ∃ e ∈ s.inf.adds, e.item = finalItem items x ∧ ∃ l ∈ s.inf.loads, l.idx = e.idx ∧
      l.thread = .reader i ∧ Ends (readerMaxseq items writers) l.value := by
  have hk := x.2.isLt
  have hseqno := (hstuck.writer h x.1).2
  obtain ⟨e, he, hitem⟩ := h.writers.all x.1 (writerMaxseq items writers - 1 - x.2)
    (by rw [hseqno]; unfold writerMaxseq; omega)
  have hidx : e.idx < s.inf.buf.widx := by
    rw [(hstuck.widx h).2, h.inf.add.issued.length_eq]
    exact h.inf.add.issued.lt he
  obtain ⟨l, hl, hle⟩ := hstuck.loaded h (hidx.trans hfull) hidx
  obtain ⟨i, hi⟩ := h.readers.loader l hl
  refine ⟨i, e, he, hitem, l, hl, hle, hi, ?_⟩
  intro p hp
  obtain ⟨e', he', hidx', rfl⟩ := h.order.values l hl p hp
  obtain rfl := h.inf.add.issued.eq_of_num he' he (hidx'.trans hle)
  rw [hitem, readerMaxseq_eq (by omega) hlt]
  simp only [payload, writerMaxseq]
  omega

/-- With readers for the items that make one leave its loop, nobody is left waiting. -/
theorem Stuck.joined {s : State writers readers} (hstuck : Stuck items s) (h : Inv items s)
    (hlt : items < 2 ^ 64) (hreaders : readers ≤ writers * min (items / writers) 2) :
    Joined items s := by
  by_contra hne
  simp only [Joined, not_forall, ← ne_eq, Option.ne_none_iff_exists'] at hne
  obtain ⟨t, s', hs'⟩ := hne
  obtain ⟨idx, hwait, hle⟩ := hstuck t s' hs'
  have hfull : s.inf.buf.widx < s.inf.buf.ridx :=
    hle.trans_lt (h.inf.rem.issued.lt (h.inf.rem.waiting t idx hwait).1)
  cases t with
  | writer i =>
    have hnot := h.writers.not_rem i
    rw [hwait] at hnot
    cases hnot
  | reader j =>
    choose f hf using hstuck.finalItem_loaded h hlt hfull
    have hinj : Function.Injective f := by
      intro x y hxy
      obtain ⟨e, he, hex, l, hl, hle, hlx, hlends⟩ := hf x
      obtain ⟨e', he', hey, m, hm, hme, hmy, hmends⟩ := hf y
      have hthread : l.thread = m.thread := by rw [hlx, hmy, hxy]
      obtain rfl := h.readers.eq_of_ends hl hm hthread hlends hmends
      obtain rfl := h.inf.add.issued.eq_of_num he he' (hle.symm.trans hme)
      exact finalItem_injective (hex.symm.trans hey)
    -- the reader that waits has loaded none of them
    have hj : j ∉ Set.range f := by
      rintro ⟨x, rfl⟩
      obtain ⟨e, -, -, l, hl, -, hlx, hlends⟩ := hf x
      have hlooping := h.readers.looping (f x) (by simp [hwait])
      exact h.readers.ended (f x) hlooping l hl hlx hlends
    have hcard := Fintype.card_lt_of_injective_of_notMem f hinj (b := j) hj
    simp only [Fintype.card_prod, Fintype.card_fin] at hcard
    omega

/-! ## One writer -/

/-- The adds of one writer do not overlap. -/
theorem Inv.publishesFilled {s : State 1 readers} (h : Inv items s)
    (a : InfAction (Thread 1 readers) Payload) : PublishesFilled s.inf a := by
  cases a with
  | step t =>
    cases t with
    | writer i =>
      refine publishesFilled_of_alone h.inf fun u hu => ?_
      cases u with
      | writer j => exact absurd (congrArg Thread.writer (Subsingleton.elim j i)) hu
      | reader j => exact h.readers.not_add j
    | reader i =>
      intro hpublish
      have hnot := h.readers.not_add i
      cases hp : s.inf.phase (.reader i) <;> simp [hp, Phase.isPublish, Phase.isAdd] at hpublish hnot
  | _ => trivial

theorem next_delivery (s : State 1 readers) (t : Thread 1 readers) (s' : State 1 readers)
    (h : Inv items s ∧ DeliveryInv s.inf) (hs : next items s t = some s') :
    Inv items s' ∧ DeliveryInv s'.inf := by
  obtain ⟨a, ha⟩ := next_inf hs
  exact ⟨next_inv s t s' h.1 hs, infStep_delivery _ a _ h.2 (h.1.publishesFilled a) ha⟩

theorem run_delivered {ts : List (Thread 1 readers)} {s : State 1 readers}
    (hs : Machine.run (next items) (State.init 1 readers) ts = some s) : Delivered s.inf := by
  have h0 : Inv items (State.init 1 readers) ∧ DeliveryInv (State.init 1 readers).inf :=
    ⟨Inv.init, InfInv.init _ _, by simp [State.init, InfThreads.init, infbufferInit],
      by simp [Delivered, State.init, InfThreads.init]⟩
  exact (Machine.run_invariant next_delivery h0 hs).2.delivered

/-- A reader that has returned has loaded one of the last two items of the writer. -/
theorem Inv.ended_by {s : State 1 readers} (h : Inv items s) (hdelivered : Delivered s.inf)
    (hlt : items < 2 ^ 64) {i : Fin readers} (hi : (s.readers i).status = .returned) :
    ∃ k : Fin (min items 2), ∃ l ∈ s.inf.loads, l.thread = .reader i ∧
      l.value = some (payload 0 (items - 1 - k)) := by
  obtain ⟨l, hl, hli, hends⟩ := h.readers.last i hi
  obtain ⟨e, he, -, hvalue⟩ := hdelivered l hl
  obtain ⟨j, k, -, hk, hitem⟩ := h.writers.own e he
  have hle : s.seqno j ≤ items := by
    have := h.writers.seqno_le j
    rwa [writerMaxseq, Nat.div_one] at this
  have hmax := hends e.item hvalue
  rw [readerMaxseq_eq (by rw [Nat.div_one]; omega) hlt, hitem] at hmax
  simp only [writerMaxseq, Nat.div_one, payload] at hmax
  refine ⟨⟨items - 1 - k, by omega⟩, l, hl, hli, ?_⟩
  obtain rfl : j = 0 := Subsingleton.elim j 0
  rw [hvalue, hitem]
  simp only [Fin.val_zero]
  congr 2
  omega

/-- With one writer and more readers than it has last items, some reader never returns. -/
theorem Inv.not_joined {s : State 1 readers} (h : Inv items s) (hdelivered : Delivered s.inf)
    (hlt : items < 2 ^ 64) (hreaders : min items 2 < readers) : ¬ Joined items s := by
  intro hjoined
  have hreturned : ∀ i, (s.readers i).status = .returned := by
    intro i
    have hnone := hjoined (.reader i)
    have hidle : s.inf.phase (.reader i) = .idle := by
      by_contra hne
      obtain ⟨s', hs'⟩ := next_isSome items hne
      rw [hnone] at hs'
      cases hs'
    cases hstatus : (s.readers i).status with
    | looping => simp [next, threadReaderNext, hidle, hstatus, infbufferRem] at hnone
    | returned => rfl
    | aborted a => exact absurd hstatus (h.readers.not_aborted i a)
  choose f l hl hli hvalue using fun i => h.ended_by hdelivered hlt (hreturned i)
  -- two readers have not loaded the same item
  have hinj : Function.Injective f := by
    intro i j hij
    obtain ⟨e, he, hei, hitem⟩ := h.order.values _ (hl i) _ (hvalue i)
    obtain ⟨e', he', hej, hitem'⟩ := h.order.values _ (hl j) _ (hvalue j)
    rw [hij, ← hitem'] at hitem
    have hsame : e.idx = e'.idx := by
      by_contra hne
      rcases Nat.lt_or_gt_of_ne hne with hlt | hgt
      · exact absurd (h.inf.add.issued.rel_of_lt h.writers.before he he' hlt (by rw [hitem]))
          (by rw [hitem]; exact lt_irrefl _)
      · exact absurd (h.inf.add.issued.rel_of_lt h.writers.before he' he hgt (by rw [hitem]))
          (by rw [hitem]; exact lt_irrefl _)
    have hload : l i = l j := List.inj_on_of_nodup_map h.inf.rem.loads_nodup (hl i) (hl j)
      (by rw [← hei, hsame, hej])
    exact Thread.reader.inj ((hli i).symm.trans (hload ▸ hli j))
  have hcard := Fintype.card_le_of_injective f hinj
  simp only [Fintype.card_fin] at hcard
  omega

/-! ## How long it takes -/

/-- The call is between the test of `widx` and the load. -/
def loading : Phase Payload → Nat
  | .load _ => 1
  | _ => 0

@[simp] theorem loading_idle : loading .idle = 0 := rfl

@[simp] theorem loading_wait (idx : Nat) : loading (.wait idx) = 0 := rfl

@[simp] theorem loading_load (idx : Nat) : loading (.load idx) = 1 := rfl

/-- How many steps have been taken that were not `sched_yield`. -/
def worked (s : State writers readers) : Nat :=
  s.inf.adds.length + s.inf.stores.length + s.inf.completed.length + s.inf.rems.length +
    2 * s.inf.loads.length + ∑ i, loading (s.inf.phase (.reader i))

theorem sum_loading_update (f : Thread writers readers → Phase Payload) (i : Fin readers)
    (p : Phase Payload) :
    ∑ j, loading (Function.update f (.reader i) p (.reader j)) + loading (f (.reader i)) =
      ∑ j, loading (f (.reader j)) + loading p := by
  have hrest : ∀ j ∈ Finset.univ.erase i,
      loading (Function.update f (.reader i) p (.reader j)) = loading (f (.reader j)) := by
    intro j hj
    rw [Function.update_of_ne (fun heq => Finset.ne_of_mem_erase hj (Thread.reader.inj heq))]
  rw [← Finset.add_sum_erase _ _ (Finset.mem_univ i),
    ← Finset.add_sum_erase _ (fun j => loading (f (.reader j))) (Finset.mem_univ i),
    Finset.sum_congr rfl hrest, Function.update_self]
  omega

theorem next_worked {s s' : State writers readers} {t : Thread writers readers} (h : Inv items s)
    (hs : next items s t = some s') : worked s + work s t ≤ worked s' := by
  cases t with
  | writer i =>
    have hother : ∀ (p : Phase Payload) j,
        Function.update s.inf.phase (.writer i) p (.reader j) = s.inf.phase (.reader j) :=
      fun p j => Function.update_of_ne (by simp) ..
    have hnot := h.writers.not_rem i
    have hwork : work s (.writer i) = 1 := by
      cases hp : s.inf.phase (.writer i) <;> simp [work, hp, Phase.isRem] at hnot ⊢
    rw [hwork]
    obtain ⟨-, -, inf, hinf, rfl⟩ | ⟨inf, hinf, rfl⟩ := threadWriterNext_cases hs
    · obtain ⟨-, rfl⟩ := infbufferAdd_cases hinf
      simp only [worked, hother, List.length_append, List.length_singleton]
      omega
    · obtain ⟨_, _, -, rfl⟩ | ⟨_, _, -, rfl⟩ | ⟨_, ht, -, rfl⟩ | ⟨_, ht, -, rfl⟩ | ⟨_, ht, rfl⟩ :=
        infbufferNext_cases hinf
      · simp only [worked, hother, List.length_append, List.length_singleton]
        omega
      · simp only [worked, hother, List.length_append, List.length_singleton]
        omega
      · simp [ht, Phase.isRem] at hnot
      · simp [ht, Phase.isRem] at hnot
      · simp [ht, Phase.isRem] at hnot
  | reader i =>
    have hnot := h.readers.not_add i
    have hsum := sum_loading_update s.inf.phase i
    obtain ⟨hidle, -, inf, hinf, rfl⟩ | ⟨idx, ht, inf, hinf, rfl⟩ | ⟨hload, inf, hinf, rfl⟩ :=
      threadReaderNext_cases hs
    · obtain ⟨-, rfl⟩ := infbufferRem_cases hinf
      have hwait := hsum (.wait s.inf.buf.ridx)
      simp only [hidle, loading_idle, loading_wait] at hwait
      simp only [worked, work, hidle, List.length_append, List.length_singleton]
      omega
    · obtain ⟨_, _, ht', -⟩ | ⟨_, _, ht', -⟩ | ⟨_, ht', -, -⟩ | ⟨_, ht', -, -⟩ | ⟨_, -, rfl⟩ :=
        infbufferNext_cases hinf
      · simp [ht] at ht'
      · simp [ht] at ht'
      · simp [ht] at ht'
      · simp [ht] at ht'
      · have hidle := hsum .idle
        simp only [ht, loading_load, loading_idle] at hidle
        simp only [worked, work, ht, List.length_append, List.length_singleton]
        omega
    · obtain ⟨_, _, ht, -⟩ | ⟨_, _, ht, -⟩ | ⟨idx, ht, hle, rfl⟩ | ⟨idx, ht, hlt, rfl⟩ |
        ⟨idx, ht, -⟩ := infbufferNext_cases hinf
      · simp [ht, Phase.isAdd] at hnot
      · simp [ht, Phase.isAdd] at hnot
      · simp only [worked, work, ht, if_pos hle]
        exact le_rfl
      · have hstep := hsum (.load idx)
        simp only [ht, loading_load, loading_wait] at hstep
        have hwork : work s (.reader i) = 1 := by simp [work, ht, hlt]
        simp only [worked, hwork]
        omega
      · exact absurd ht (hload idx)

theorem length_le_of_lt {l : List Nat} {n : Nat} (hl : l.Nodup) (hlt : ∀ i ∈ l, i < n) :
    l.length ≤ n := by
  have hsub : l ⊆ List.range n := fun i hi => List.mem_range.mpr (hlt i hi)
  simpa using (hl.subperm hsub).length_le

/-- Not more rems are under way than there are readers. -/
theorem Inv.rems_le {s : State writers readers} (h : Inv items s) :
    s.inf.rems.length ≤ s.inf.loads.length + readers := by
  have hsub : s.inf.rems.map Prod.snd ⊆ s.inf.loads.map Loaded.idx ++
      (List.finRange readers).filterMap fun i => (s.inf.phase (.reader i)).claimed := by
    intro n hn
    obtain ⟨⟨t, n⟩, hq, rfl⟩ := List.mem_map.mp hn
    have hclaimed : (s.inf.phase t).claimed = some n → n ∈ s.inf.loads.map Loaded.idx ++
        (List.finRange readers).filterMap fun i => (s.inf.phase (.reader i)).claimed := by
      intro hphase
      refine List.mem_append_right _ ?_
      cases t with
      | writer i =>
        have hnot := h.writers.not_rem i
        cases hp : s.inf.phase (.writer i) <;> simp [hp, Phase.claimed, Phase.isRem] at hphase hnot
      | reader i => exact List.mem_filterMap.mpr ⟨i, List.mem_finRange i, hphase⟩
    rcases h.inf.rem.accounted _ hq with hloaded | hwait | hload
    · exact List.mem_append_left _ hloaded
    · exact hclaimed (by rw [hwait]; rfl)
    · exact hclaimed (by rw [hload]; rfl)
  have hle := (h.inf.rem.issued.nodup.subperm hsub).length_le
  have hfilter := List.length_filterMap_le (fun i => (s.inf.phase (.reader i)).claimed)
    (List.finRange readers)
  rw [List.length_map, List.length_append, List.length_map] at hle
  rw [List.length_finRange] at hfilter
  omega

theorem Inv.worked_le {s : State writers readers} (h : Inv items s) :
    worked s ≤ 6 * items + 2 * readers := by
  have htidx : s.inf.buf.tidx ≤ items := h.tidx_le.trans (Nat.mul_div_le items writers)
  have hwidx := h.inf.add.widx_le
  have hadds := h.inf.add.issued.length_eq
  have hcompleted := h.inf.add.widx_eq
  have hstores : s.inf.stores.length ≤ s.inf.buf.tidx := by
    have hle := length_le_of_lt h.inf.add.stores_nodup (n := s.inf.buf.tidx) fun i hi => by
      obtain ⟨p, hp, rfl⟩ := List.mem_map.mp hi
      exact h.inf.add.stored_lt hp
    rwa [List.length_map] at hle
  have hloads : s.inf.loads.length ≤ s.inf.buf.widx := by
    have hle := length_le_of_lt h.inf.rem.loads_nodup (n := s.inf.buf.widx) fun i hi => by
      obtain ⟨l, hl, rfl⟩ := List.mem_map.mp hi
      exact h.inf.rem.load_lt l hl
    rwa [List.length_map] at hle
  have hloading : ∑ i, loading (s.inf.phase (.reader i)) ≤ readers := by
    have hle := Finset.sum_le_card_nsmul Finset.univ
      (fun i => loading (s.inf.phase (.reader i))) 1 fun i _ => by
        cases s.inf.phase (.reader i) <;> simp [loading]
    simpa using hle
  have hrems := h.rems_le
  unfold worked
  omega

/-- **When the test program ends**: a run takes at most `6 * items + 2 * readers` steps apart from
yields. If there are not more readers than last items of the writers, the last but one included,
then every run that can go no further has let every thread return. With one writer and more
readers than that, no run lets every thread return. -/
theorem testInfbuffer_ends (writers readers items : Nat) (hlt : items < 2 ^ 64)
    (ts : List (Thread writers readers)) (s : State writers readers)
    (hs : Machine.run (next items) (State.init writers readers) ts = some s) :
    Machine.total (next items) work (State.init writers readers) ts ≤ 6 * items + 2 * readers ∧
    (readers ≤ writers * min (items / writers) 2 → Stuck items s → Joined items s) ∧
    (writers = 1 → min items 2 < readers → ¬ Joined items s) := by
  have h := run_inv hs
  refine ⟨?_, fun hreaders hstuck => hstuck.joined h hlt hreaders, ?_⟩
  · have hle := Machine.total_le_gauge
      (fun s t s' hinv hs => ⟨next_inv s t s' hinv hs, next_worked hinv hs⟩) Inv.init hs
    exact ((Nat.le_add_left _ _).trans hle).trans h.worked_le
  · rintro rfl hreaders
    exact h.not_joined (run_delivered hs) hlt hreaders

/-- One writer of two items and a reader, which leaves its loop with the first. -/
def oneReader (writer reader : Fin 1) : List (Thread 1 1) :=
  [.reader reader, .writer writer, .writer writer, .reader reader, .writer writer, .reader reader,
    .reader reader, .writer writer, .writer writer, .writer writer]

theorem testInfbuffer_ends_oneReader :
    ∃ s, Machine.run (next 2) (State.init 1 1) (oneReader 0 0) = some s ∧
      (1 ≤ 1 * min (2 / 1) 2 → Stuck 2 s → Joined 2 s) := by
  obtain ⟨s, hs⟩ : ∃ s, Machine.run (next 2) (State.init 1 1) (oneReader 0 0) = some s := ⟨_, rfl⟩
  exact ⟨s, hs, (testInfbuffer_ends 1 1 2 (by decide) (oneReader 0 0) s hs).2.1⟩

end Twd.TestInfbuffer
