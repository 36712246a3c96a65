import Mathlib.Algebra.BigOperators.Fin
import Mathlib.Algebra.Order.BigOperators.Group.Finset
import Twd.Infbuffer.Proofs.DeliveryProofs
import Twd.Infbuffer.Proofs.OrderProofs
import Twd.Infbuffer.TestMain

/-!
# What the program that tests the array does

What the writers add is numbered, and what the readers load is what was added. So the readers'
assertions hold in every run, and no slot outside the array is used.
-/

namespace Twd.TestInfbuffer

variable {writers readers items : Nat}

/-! ## What one step does -/

/-- A step of a writer. -/
theorem threadWriterNext_cases {s s' : State writers readers} {i : Fin writers}
    (hs : threadWriterNext items s i = some s') :
    (s.inf.phase (.writer i) = .idle ∧ s.seqno i < writerMaxseq items writers ∧
      ∃ inf, infbufferAdd s.inf (.writer i) (payload i (s.seqno i)) = some inf ∧
        s' = { s with inf := inf, seqno := Function.update s.seqno i (s.seqno i + 1) }) ∨
    (∃ inf, infbufferNext s.inf (.writer i) = some inf ∧ s' = { s with inf := inf }) := by
  unfold threadWriterNext at hs
  cases hp : s.inf.phase (.writer i) with
  | idle =>
    simp only [hp] at hs
    split_ifs at hs with hlt
    obtain ⟨inf, hinf, hs⟩ := Option.bind_eq_some_iff.mp hs
    exact .inl ⟨rfl, hlt, inf, hinf, (Option.some.inj hs).symm⟩
  | _ =>
    simp only [hp] at hs
    obtain ⟨inf, hinf, hs⟩ := Option.bind_eq_some_iff.mp hs
    exact .inr ⟨inf, hinf, (Option.some.inj hs).symm⟩

/-- A step of a reader. -/
theorem threadReaderNext_cases {s s' : State writers readers} {i : Fin readers}
    (hs : threadReaderNext items s i = some s') :
    (s.inf.phase (.reader i) = .idle ∧ (s.readers i).status = .looping ∧
      ∃ inf, infbufferRem s.inf (.reader i) = some inf ∧ s' = { s with inf := inf }) ∨
    (∃ idx, s.inf.phase (.reader i) = .load idx ∧
      ∃ inf, infbufferNext s.inf (.reader i) = some inf ∧
        s' = { s with
          inf := inf
          readers := Function.update s.readers i (afterRem writers (readerMaxseq items writers)
            (s.readers i) (s.inf.buf.data idx)) }) ∨
    ((∀ idx, s.inf.phase (.reader i) ≠ .load idx) ∧
      ∃ inf, infbufferNext s.inf (.reader i) = some inf ∧ s' = { s with inf := inf }) := by
  unfold threadReaderNext at hs
  cases hp : s.inf.phase (.reader i) with
  | idle =>
    simp only [hp] at hs
    split_ifs at hs with hlooping
    obtain ⟨inf, hinf, hs⟩ := Option.bind_eq_some_iff.mp hs
    exact .inl ⟨rfl, hlooping, inf, hinf, (Option.some.inj hs).symm⟩
  | load idx =>
    simp only [hp] at hs
    obtain ⟨inf, hinf, hs⟩ := Option.bind_eq_some_iff.mp hs
    exact .inr (.inl ⟨idx, rfl, inf, hinf, (Option.some.inj hs).symm⟩)
  | _ =>
    simp only [hp] at hs
    obtain ⟨inf, hinf, hs⟩ := Option.bind_eq_some_iff.mp hs
    exact .inr (.inr ⟨by simp, inf, hinf, (Option.some.inj hs).symm⟩)

/-- A step of the program is a step of the threads on the array. -/
theorem next_inf {s s' : State writers readers} {t : Thread writers readers}
    (hs : next items s t = some s') : ∃ a, s.inf.step a = some s'.inf := by
  cases t with
  | writer i =>
    obtain ⟨-, -, inf, hinf, rfl⟩ | ⟨inf, hinf, rfl⟩ := threadWriterNext_cases hs
    · exact ⟨.add _ _, hinf⟩
    · exact ⟨.step _, hinf⟩
  | reader i =>
    obtain ⟨-, -, inf, hinf, rfl⟩ | ⟨idx, -, inf, hinf, rfl⟩ | ⟨-, inf, hinf, rfl⟩ :=
      threadReaderNext_cases hs
    · exact ⟨.rem _, hinf⟩
    · exact ⟨.step _, hinf⟩
    · exact ⟨.step _, hinf⟩

/-! ## The writers -/

/-- What the writers have added so far. -/
structure WritersInv (items : Nat) (s : State writers readers) : Prop where
  seqno_le : ∀ i, s.seqno i ≤ writerMaxseq items writers
  own : ∀ e ∈ s.inf.adds, ∃ i k, e.thread = .writer i ∧ k < s.seqno i ∧ e.item = payload i k
  all : ∀ i k, k < s.seqno i → ∃ e ∈ s.inf.adds, e.item = payload i k
  before : s.inf.adds.Pairwise fun e f => e.item.Before f.item
  length_eq : s.inf.adds.length = ∑ i, s.seqno i
  not_rem : ∀ i, (s.inf.phase (.writer i)).isRem = false

theorem WritersInv.init : WritersInv items (State.init writers readers) := by
  constructor <;> simp [State.init, InfThreads.init, Phase.isRem]

theorem WritersInv.frame {s s' : State writers readers} (h : WritersInv items s)
    (hadds : s'.inf.adds = s.inf.adds) (hseqno : s'.seqno = s.seqno)
    (hphase : ∀ i, (s'.inf.phase (.writer i)).isRem = false) : WritersInv items s' := by
  constructor
  · rw [hseqno]
    exact h.seqno_le
  · rw [hadds, hseqno]
    exact h.own
  · rw [hadds, hseqno]
    exact h.all
  · rw [hadds]
    exact h.before
  · rw [hadds, hseqno]
    exact h.length_eq
  · exact hphase

/-- The next item of a writer. -/
theorem WritersInv.add {s : State writers readers} (h : WritersInv items s) {i : Fin writers}
    (hlt : s.seqno i < writerMaxseq items writers) {inf : InfThreads (Thread writers readers) Payload}
    {idx : Nat} (hadds : inf.adds = s.inf.adds ++ [⟨.writer i, payload i (s.seqno i), idx⟩])
    (hphase : ∀ j, (inf.phase (.writer j)).isRem = false) :
    WritersInv items
      { s with inf := inf, seqno := Function.update s.seqno i (s.seqno i + 1) } := by
  have hle : ∀ j, s.seqno j ≤ Function.update s.seqno i (s.seqno i + 1) j := by
    intro j
    rcases eq_or_ne j i with rfl | hji
    · rw [Function.update_self]
      exact Nat.le_succ _
    · rw [Function.update_of_ne hji]
  constructor
  case seqno_le =>
    intro j
    rcases eq_or_ne j i with rfl | hji
    · simp only [Function.update_self]
      exact hlt
    · simp only [Function.update_of_ne hji]
      exact h.seqno_le j
  case own =>
    intro e he
    simp only [hadds] at he
    rcases List.mem_append.mp he with hold | hnew
    · obtain ⟨j, k, hj, hk, hitem⟩ := h.own e hold
      exact ⟨j, k, hj, hk.trans_le (hle j), hitem⟩
    · rw [List.mem_singleton.mp hnew]
      exact ⟨i, s.seqno i, rfl, by simp, rfl⟩
  case all =>
    intro j k hk
    simp only [hadds]
    by_cases hold : k < s.seqno j
    · obtain ⟨e, he, hitem⟩ := h.all j k hold
      exact ⟨e, List.mem_append_left _ he, hitem⟩
    · have hji : j = i := by
        by_contra hji
        simp only [Function.update_of_ne hji] at hk
        exact hold hk
      subst hji
      simp only [Function.update_self] at hk
      obtain rfl : k = s.seqno j := by omega
      exact ⟨_, List.mem_append_right _ (List.mem_singleton_self _), rfl⟩
  case before =>
    simp only [hadds]
    rw [List.pairwise_append]
    refine ⟨h.before, List.pairwise_singleton _ _, ?_⟩
    intro e he f hf
    rw [List.mem_singleton.mp hf]
    obtain ⟨j, k, -, hk, hitem⟩ := h.own e he
    intro hid
    rw [hitem] at hid ⊢
    obtain rfl : j = i := Fin.ext hid
    exact Nat.succ_lt_succ hk
  case length_eq =>
    simp only [hadds]
    rw [List.length_append, List.length_singleton, h.length_eq,
      Finset.sum_update_of_mem (Finset.mem_univ i), ← Finset.add_sum_erase _ _ (Finset.mem_univ i),
      Finset.sdiff_singleton_eq_erase]
    omega
  case not_rem => exact hphase

/-! ## The readers -/

/-- A reader that loads this leaves its loop. -/
def Ends (maxseq : Nat) (v : Option Payload) : Prop := ∀ p, v = some p → maxseq ≤ p.seqno

theorem afterRem_spec (maxseq : Nat) {r : ReaderState} {v : Option Payload}
    (hv : ∀ p, v = some p → p.magic = magic ∧ p.id < writers ∧ r.seqnos p.id < p.seqno) :
    (Ends maxseq v → (afterRem writers maxseq r v).status = .returned) ∧
    (¬ Ends maxseq v → (afterRem writers maxseq r v).status = .looping) ∧
    ∀ id, (afterRem writers maxseq r v).seqnos id = r.seqnos id ∨
      ∃ p, v = some p ∧ p.id = id ∧ p.seqno = (afterRem writers maxseq r v).seqnos id := by
  cases v with
  | none =>
    refine ⟨fun _ => rfl, fun hends => absurd (by simp [Ends]) hends, fun id => .inl rfl⟩
  | some p =>
    obtain ⟨hmagic, hid, hseqno⟩ := hv p rfl
    have hafter : afterRem writers maxseq r (some p) =
        { seqnos := Function.update r.seqnos p.id p.seqno
          status := if p.seqno < maxseq then .looping else .returned } := by
      simp [afterRem, hmagic, hid, hseqno]
    rw [hafter]
    refine ⟨fun hends => if_neg (hends p rfl).not_gt, fun hends => if_pos ?_, fun id => ?_⟩
    · by_contra hge
      exact hends fun q hq => Option.some.inj hq ▸ Nat.le_of_not_lt hge
    · by_cases hpid : p.id = id
      · subst hpid
        exact .inr ⟨p, rfl, rfl, by simp⟩
      · exact .inl (Function.update_of_ne (Ne.symm hpid) ..)

/-- What the readers have loaded so far. -/
structure ReadersInv (items : Nat) (s : State writers readers) : Prop where
  not_add : ∀ i, (s.inf.phase (.reader i)).isAdd = false
  loader : ∀ l ∈ s.inf.loads, ∃ i, l.thread = .reader i
  looping : ∀ i, s.inf.phase (.reader i) ≠ .idle → (s.readers i).status = .looping
  not_aborted : ∀ i a, (s.readers i).status ≠ .aborted a
  ended : ∀ i, (s.readers i).status = .looping → ∀ l ∈ s.inf.loads, l.thread = .reader i →
    ¬ Ends (readerMaxseq items writers) l.value
  last : ∀ i, (s.readers i).status = .returned → ∃ l ∈ s.inf.loads, l.thread = .reader i ∧
    Ends (readerMaxseq items writers) l.value
  /-- A reader loads nothing after the item that has made it leave its loop. -/
  once : s.inf.loads.Pairwise fun l m =>
    l.thread = m.thread → ¬ Ends (readerMaxseq items writers) l.value
  noted : ∀ i id, (s.readers i).seqnos id = 0 ∨ ∃ l ∈ s.inf.loads, l.thread = .reader i ∧
    ∃ p, l.value = some p ∧ p.id = id ∧ p.seqno = (s.readers i).seqnos id

theorem ReadersInv.init : ReadersInv items (State.init writers readers) := by
  constructor <;> simp [State.init, InfThreads.init, Phase.isAdd]

theorem ReadersInv.frame {s s' : State writers readers} (h : ReadersInv items s)
    (hloads : s'.inf.loads = s.inf.loads) (hreaders : s'.readers = s.readers)
    (hphase : ∀ i, (s'.inf.phase (.reader i)).isAdd = false)
    (hlooping : ∀ i, s'.inf.phase (.reader i) ≠ .idle → (s.readers i).status = .looping) :
    ReadersInv items s' := by
  constructor
  case not_add => exact hphase
  case looping =>
    rw [hreaders]
    exact hlooping
  all_goals
    simp only [hloads, hreaders]
  · exact h.loader
  · exact h.not_aborted
  · exact h.ended
  · exact h.last
  · exact h.once
  · exact h.noted

/-- The next load of a reader, of a value that fails no assertion. -/
theorem ReadersInv.load {s : State writers readers} (h : ReadersInv items s) {i : Fin readers}
    {idx : Nat} {v : Option Payload} (hlooping : (s.readers i).status = .looping)
    (hv : ∀ p, v = some p →
      p.magic = magic ∧ p.id < writers ∧ (s.readers i).seqnos p.id < p.seqno)
    {inf : InfThreads (Thread writers readers) Payload}
    (hloads : inf.loads = s.inf.loads ++ [⟨.reader i, idx, v⟩])
    (hphase : inf.phase = Function.update s.inf.phase (.reader i) .idle) :
    ReadersInv items
      { s with
        inf := inf
        readers := Function.update s.readers i
          (afterRem writers (readerMaxseq items writers) (s.readers i) v) } := by
  obtain ⟨hreturned, hloop, hnoted⟩ := afterRem_spec (readerMaxseq items writers) hv
  have hne : ∀ j, j ≠ i → (.reader j : Thread writers readers) ≠ .reader i := by
    intro j hji heq
    exact hji (Thread.reader.inj heq)
  have hmem : ∀ l ∈ s.inf.loads, l ∈ inf.loads := fun l hl => hloads ▸ List.mem_append_left _ hl
  have hlast : (⟨.reader i, idx, v⟩ : Loaded (Thread writers readers) Payload) ∈ inf.loads :=
    hloads ▸ List.mem_append_right _ (List.mem_singleton_self _)
  constructor
  case not_add =>
    intro j
    simp only [hphase]
    rcases eq_or_ne j i with rfl | hji
    · rw [Function.update_self]
      rfl
    · rw [Function.update_of_ne (hne j hji)]
      exact h.not_add j
  case loader =>
    intro l hl
    simp only [hloads] at hl
    rcases List.mem_append.mp hl with hold | hnew
    · exact h.loader l hold
    · rw [List.mem_singleton.mp hnew]
      exact ⟨i, rfl⟩
  case looping =>
    intro j hj
    simp only [hphase] at hj
    rcases eq_or_ne j i with rfl | hji
    · exact absurd (Function.update_self ..) hj
    · rw [Function.update_of_ne (hne j hji)] at hj
      simp only [Function.update_of_ne hji]
      exact h.looping j hj
  case not_aborted =>
    intro j a
    rcases eq_or_ne j i with rfl | hji
    · simp only [Function.update_self]
      by_cases hends : Ends (readerMaxseq items writers) v
      · rw [hreturned hends]
        exact ReaderStatus.noConfusion
      · rw [hloop hends]
        exact ReaderStatus.noConfusion
    · simp only [Function.update_of_ne hji]
      exact h.not_aborted j a
  case ended =>
    intro j hj l hl hlj
    simp only [hloads] at hl
    rcases eq_or_ne j i with rfl | hji
    · simp only [Function.update_self] at hj
      rcases List.mem_append.mp hl with hold | hnew
      · exact h.ended j hlooping l hold hlj
      · rw [List.mem_singleton.mp hnew]
        intro hends
        rw [hreturned hends] at hj
        cases hj
    · simp only [Function.update_of_ne hji] at hj
      rcases List.mem_append.mp hl with hold | hnew
      · exact h.ended j hj l hold hlj
      · rw [List.mem_singleton.mp hnew] at hlj
        exact absurd hlj.symm (hne j hji)
  case last =>
    intro j hj
    rcases eq_or_ne j i with rfl | hji
    · simp only [Function.update_self] at hj
      refine ⟨_, hlast, rfl, ?_⟩
      by_contra hends
      rw [hloop hends] at hj
      cases hj
    · simp only [Function.update_of_ne hji] at hj
      obtain ⟨l, hl, hrest⟩ := h.last j hj
      exact ⟨l, hmem l hl, hrest⟩
  case once =>
    simp only [hloads]
    rw [List.pairwise_append]
    refine ⟨h.once, List.pairwise_singleton _ _, ?_⟩
    intro l hl m hm hthread
    rw [List.mem_singleton.mp hm] at hthread
    exact h.ended i hlooping l hl hthread
  case noted =>
    intro j id
    rcases eq_or_ne j i with rfl | hji
    · simp only [Function.update_self]
      rcases hnoted id with hold | ⟨p, hp, hid, hseqno⟩
      · rw [hold]
        rcases h.noted j id with hzero | ⟨l, hl, hrest⟩
        · exact .inl hzero
        · exact .inr ⟨l, hmem l hl, hrest⟩
      · exact .inr ⟨_, hlast, rfl, p, hp, hid, hseqno⟩
    · simp only [Function.update_of_ne hji]
      rcases h.noted j id with hzero | ⟨l, hl, hrest⟩
      · exact .inl hzero
      · exact .inr ⟨l, hmem l hl, hrest⟩

/-! ## Both -/

/-- What every reachable state satisfies. -/
structure Inv (items : Nat) (s : State writers readers) : Prop where
  inf : InfInv s.inf
  order : LoadOrder s.inf
  writers : WritersInv items s
  readers : ReadersInv items s

theorem Inv.init : Inv items (State.init writers readers) :=
  ⟨InfInv.init _ _, LoadOrder.init _ _, WritersInv.init, ReadersInv.init⟩

/-- What a reader is about to load fails no assertion. -/
theorem Inv.load_ok {s : State writers readers} (h : Inv items s) {i : Fin readers} {idx : Nat}
    (ht : s.inf.phase (.reader i) = .load idx) {p : Payload} (hp : s.inf.buf.data idx = some p) :
    p.magic = magic ∧ p.id < writers ∧ (s.readers i).seqnos p.id < p.seqno := by
  obtain ⟨e, he, rfl, hdata⟩ := h.inf.item_of_isSome (Option.isSome_of_eq_some hp)
  obtain rfl : p = e.item := Option.some.inj (hp.symm.trans hdata)
  obtain ⟨j, k, -, -, hitem⟩ := h.writers.own e he
  rw [hitem]
  refine ⟨rfl, j.isLt, ?_⟩
  rcases h.readers.noted i (payload j k).id with hzero | ⟨l, hl, hli, q, hq, hid, hseqno⟩
  · rw [hzero]
    exact Nat.succ_pos k
  · -- the number it has noted is of an item in an earlier slot
    obtain ⟨f, hf, hfl, rfl⟩ := h.order.values l hl q hq
    have hidx : f.idx < e.idx := hfl ▸ h.order.pending _ _ (by rw [ht]; rfl) l hl hli
    have hbefore := h.inf.add.issued.rel_of_lt h.writers.before hf he hidx
    rw [← hseqno, ← hitem]
    exact hbefore (by rw [hid, hitem])

theorem update_phase_cases {α τ : Type*} [DecidableEq τ] {f : τ → Phase α} {p : Phase α} {t u : τ}
    {P : Phase α → Prop} (ht : P p) (hu : P (f u)) : P (Function.update f t p u) := by
  rcases eq_or_ne u t with rfl | hne
  · rwa [Function.update_self]
  · rwa [Function.update_of_ne hne]

/-- A step of a writer. -/
theorem threadWriterNext_inv {s s' : State writers readers} {i : Fin writers} (h : Inv items s)
    (hs : threadWriterNext items s i = some s') : WritersInv items s' ∧ ReadersInv items s' := by
  have hw := h.writers
  have hr := h.readers
  have hother : ∀ (p : Phase Payload) j,
      Function.update s.inf.phase (.writer i) p (.reader j) = s.inf.phase (.reader j) :=
    fun p j => Function.update_of_ne (by simp) ..
  -- a step that adds nothing
  have hmoves : ∀ (p : Phase Payload) (inf : InfThreads (Thread writers readers) Payload),
      p.isRem = false → inf.adds = s.inf.adds → inf.loads = s.inf.loads →
      inf.phase = Function.update s.inf.phase (.writer i) p →
      WritersInv items { s with inf := inf } ∧ ReadersInv items { s with inf := inf } := by
    intro p inf hp hadds hloads hphase
    refine ⟨hw.frame hadds rfl fun j => ?_, hr.frame hloads rfl ?_ ?_⟩
    · simp only [hphase]
      exact update_phase_cases (P := (·.isRem = false)) hp (hw.not_rem j)
    · simpa only [hphase, hother] using hr.not_add
    · simpa only [hphase, hother] using hr.looping
  obtain ⟨hidle, hlt, inf, hinf, rfl⟩ | ⟨inf, hinf, rfl⟩ := threadWriterNext_cases hs
  · obtain ⟨-, rfl⟩ := infbufferAdd_cases hinf
    refine ⟨hw.add hlt rfl fun j => update_phase_cases (P := (·.isRem = false)) rfl
      (hw.not_rem j), hr.frame rfl rfl ?_ ?_⟩
    · simpa only [hother] using hr.not_add
    · simpa only [hother] using hr.looping
  · obtain ⟨item, idx, ht, rfl⟩ | ⟨item, idx, ht, rfl⟩ | ⟨idx, ht, -, rfl⟩ | ⟨idx, ht, -, rfl⟩ |
      ⟨idx, ht, rfl⟩ := infbufferNext_cases hinf
    · exact hmoves _ _ rfl rfl rfl rfl
    · exact hmoves _ _ rfl rfl rfl rfl
    · exact absurd (hw.not_rem i) (by simp [ht, Phase.isRem])
    · exact absurd (hw.not_rem i) (by simp [ht, Phase.isRem])
    · exact absurd (hw.not_rem i) (by simp [ht, Phase.isRem])

/-- A step of a reader. -/
theorem threadReaderNext_inv {s s' : State writers readers} {i : Fin readers} (h : Inv items s)
    (hs : threadReaderNext items s i = some s') : WritersInv items s' ∧ ReadersInv items s' := by
  have hw := h.writers
  have hr := h.readers
  have hother : ∀ (p : Phase Payload) j,
      Function.update s.inf.phase (.reader i) p (.writer j) = s.inf.phase (.writer j) :=
    fun p j => Function.update_of_ne (by simp) ..
  -- a step that does not load
  have hmoves : ∀ (p : Phase Payload) (inf : InfThreads (Thread writers readers) Payload),
      p.isAdd = false → (s.readers i).status = .looping → inf.adds = s.inf.adds →
      inf.loads = s.inf.loads → inf.phase = Function.update s.inf.phase (.reader i) p →
      WritersInv items { s with inf := inf } ∧ ReadersInv items { s with inf := inf } := by
    intro p inf hp hlooping hadds hloads hphase
    refine ⟨hw.frame hadds rfl ?_, hr.frame hloads rfl ?_ ?_⟩
    · simpa only [hphase, hother] using hw.not_rem
    · intro j
      simp only [hphase]
      exact update_phase_cases (P := (·.isAdd = false)) hp (hr.not_add j)
    · intro j hj
      simp only [hphase] at hj
      rcases eq_or_ne j i with rfl | hji
      · exact hlooping
      · rw [Function.update_of_ne (fun heq => hji (Thread.reader.inj heq))] at hj
        exact hr.looping j hj
  obtain ⟨-, hlooping, inf, hinf, rfl⟩ | ⟨idx, ht, inf, hinf, rfl⟩ | ⟨hload, inf, hinf, rfl⟩ :=
    threadReaderNext_cases hs
  · obtain ⟨-, rfl⟩ := infbufferRem_cases hinf
    exact hmoves _ _ rfl hlooping rfl rfl rfl
  · obtain ⟨_, _, ht', -⟩ | ⟨_, _, ht', -⟩ | ⟨_, ht', -, -⟩ | ⟨_, ht', -, -⟩ | ⟨idx', ht', rfl⟩ :=
      infbufferNext_cases hinf
    · simp [ht] at ht'
    · simp [ht] at ht'
    · simp [ht] at ht'
    · simp [ht] at ht'
    · rw [ht] at ht'
      cases ht'
      exact ⟨hw.frame rfl rfl (by simpa only [hother] using hw.not_rem),
        hr.load (hr.looping i (by simp [ht])) (fun p hp => h.load_ok ht hp) rfl rfl⟩
  · obtain ⟨_, _, ht, -⟩ | ⟨_, _, ht, -⟩ | ⟨_, -, -, rfl⟩ | ⟨idx, ht, -, rfl⟩ | ⟨idx, ht, -⟩ :=
      infbufferNext_cases hinf
    · exact absurd (hr.not_add i) (by simp [ht, Phase.isAdd])
    · exact absurd (hr.not_add i) (by simp [ht, Phase.isAdd])
    · exact ⟨hw, hr⟩
    · exact hmoves _ _ rfl (hr.looping i (by simp [ht])) rfl rfl rfl
    · exact absurd ht (hload idx)

theorem next_inv (s : State writers readers) (t : Thread writers readers)
    (s' : State writers readers) (h : Inv items s) (hs : next items s t = some s') :
    Inv items s' := by
  obtain ⟨a, ha⟩ := next_inf hs
  obtain ⟨hinf, horder⟩ := infStep_loadOrder s.inf a s'.inf ⟨h.inf, h.order⟩ ha
  cases t with
  | writer i =>
    obtain ⟨hw, hr⟩ := threadWriterNext_inv h hs
    exact ⟨hinf, horder, hw, hr⟩
  | reader i =>
    obtain ⟨hw, hr⟩ := threadReaderNext_inv h hs
    exact ⟨hinf, horder, hw, hr⟩

theorem run_inv {ts : List (Thread writers readers)} {s : State writers readers}
    (hs : Machine.run (next items) (State.init writers readers) ts = some s) : Inv items s :=
  Machine.run_invariant next_inv Inv.init hs

theorem Inv.tidx_le {s : State writers readers} (h : Inv items s) :
    s.inf.buf.tidx ≤ writers * writerMaxseq items writers := by
  have hsum := Finset.sum_le_sum fun i (_ : i ∈ Finset.univ) => h.writers.seqno_le i
  rwa [← h.writers.length_eq, Finset.sum_const, Finset.card_univ, Fintype.card_fin, smul_eq_mul,
    h.inf.add.issued.length_eq] at hsum

theorem Inv.sound {s : State writers readers} (h : Inv items s) : Sound items s := by
  have htidx : s.inf.buf.tidx ≤ items := h.tidx_le.trans (Nat.mul_div_le items writers)
  have hwidx := h.inf.add.widx_le
  refine ⟨fun p hp => (h.inf.add.stored_lt hp).trans_le htidx, fun l hl => ?_,
    h.readers.not_aborted⟩
  have hlt := h.inf.rem.load_lt l hl
  omega

/-- **The test program is sound**: whatever the numbers of writers, readers and items and the order
of the steps, no thread uses a slot outside the array and no assertion of a reader fails. -/
theorem testInfbuffer_sound (writers readers items : Nat) (ts : List (Thread writers readers))
    (s : State writers readers)
    (hs : Machine.run (next items) (State.init writers readers) ts = some s) : Sound items s :=
  (run_inv hs).sound

/-- Two writers, of which one overtakes the other, and a reader. -/
def overtaken (slow fast : Fin 2) (reader : Fin 1) : List (Thread 2 1) :=
  [.writer slow, .writer fast, .writer fast, .writer fast, .reader reader, .reader reader,
    .writer slow, .reader reader]

theorem testInfbuffer_sound_overtaken :
    ∃ s, Machine.run (next 4) (State.init 2 1) (overtaken 0 1 0) = some s ∧ Sound 4 s := by
  obtain ⟨s, hs⟩ : ∃ s, Machine.run (next 4) (State.init 2 1) (overtaken 0 1 0) = some s := ⟨_, rfl⟩
  exact ⟨s, hs, testInfbuffer_sound 2 1 4 (overtaken 0 1 0) s hs⟩

end Twd.TestInfbuffer
