import Twd.Infbuffer.Proofs.InfbufferProofs
import Twd.Infbuffer.TestInfbuffer

/-!
# The items of a writer reach a reader in order

A thread claims its slots in increasing order, on both sides: a writer because its adds follow one
another, a reader because each of its rems returns before it starts the next.
-/

namespace Twd

open Tickets

variable {τ : Type*} [DecidableEq τ]

/-! ## The order of the loads -/

section Loads

variable {α : Type*}

/-- The slot that a call of `infbuffer_rem` has claimed and not loaded. -/
def Phase.claimed : Phase α → Option Nat
  | .wait idx | .load idx => some idx
  | _ => none

/-- The loads of one thread go upwards, and the slot it has claimed is above them; a value loaded is
the item added at its slot. -/
structure LoadOrder (s : InfThreads τ α) : Prop where
  sorted : s.loads.Pairwise fun l m => l.thread = m.thread → l.idx < m.idx
  pending : ∀ t i, (s.phase t).claimed = some i → ∀ l ∈ s.loads, l.thread = t → l.idx < i
  values : ∀ l ∈ s.loads, ∀ item, l.value = some item →
    ∃ e ∈ s.adds, e.idx = l.idx ∧ e.item = item

variable {s s' : InfThreads τ α}

theorem LoadOrder.init (τ α : Type*) [DecidableEq τ] : LoadOrder (InfThreads.init τ α) := by
  constructor <;> simp [InfThreads.init]

theorem LoadOrder.frame (h : LoadOrder s) {t : τ} {p : Phase α}
    (hp : ∀ i, p.claimed = some i → (s.phase t).claimed = some i)
    (hphase : s'.phase = Function.update s.phase t p) (hadds : s.adds ⊆ s'.adds)
    (hloads : s'.loads = s.loads) : LoadOrder s' := by
  constructor
  · rw [hloads]
    exact h.sorted
  · intro u i hu
    rw [hloads]
    rw [hphase] at hu
    rcases eq_or_ne u t with rfl | hut
    · rw [Function.update_self] at hu
      exact h.pending u i (hp i hu)
    · rw [Function.update_of_ne hut] at hu
      exact h.pending u i hu
  · intro l hl item hitem
    rw [hloads] at hl
    obtain ⟨e, he, hrest⟩ := h.values l hl item hitem
    exact ⟨e, hadds he, hrest⟩

theorem LoadOrder.claim (h : LoadOrder s) (hinv : RemInv s) {t : τ} :
    LoadOrder { s with
      buf := { s.buf with ridx := s.buf.ridx + 1 }
      phase := Function.update s.phase t (.wait s.buf.ridx)
      rems := s.rems ++ [(t, s.buf.ridx)] } := by
  constructor
  case sorted => exact h.sorted
  case pending =>
    intro u i hu l hl hlu
    rcases eq_or_ne u t with rfl | hut
    · simp only [Function.update_self, Phase.claimed, Option.some.injEq] at hu
      exact hu ▸ hinv.loads_claimed l hl
    · simp only [Function.update_of_ne hut] at hu
      exact h.pending u i hu l hl hlu
  case values => exact h.values

theorem LoadOrder.load (h : LoadOrder s) (hinv : InfInv s) {t : τ} {idx : Nat}
    (ht : s.phase t = .load idx) :
    LoadOrder { s with
      phase := Function.update s.phase t .idle
      loads := s.loads ++ [⟨t, idx, s.buf.data idx⟩] } := by
  constructor
  case sorted =>
    rw [List.pairwise_append]
    refine ⟨h.sorted, List.pairwise_singleton _ _, ?_⟩
    intro l hl m hm hthread
    rw [List.mem_singleton.mp hm] at hthread ⊢
    exact h.pending t idx (by rw [ht, Phase.claimed]) l hl hthread
  case pending =>
    intro u i hu l hl hlu
    have hut : u ≠ t := by
      rintro rfl
      simp [Phase.claimed] at hu
    simp only [Function.update_of_ne hut] at hu
    rcases List.mem_append.mp hl with hl | hl
    · exact h.pending u i hu l hl hlu
    · rw [List.mem_singleton.mp hl] at hlu
      exact absurd hlu.symm hut
  case values =>
    intro l hl item hitem
    rcases List.mem_append.mp hl with hl | hl
    · exact h.values l hl item hitem
    · rw [List.mem_singleton.mp hl] at hitem ⊢
      obtain ⟨e, he, hei, hcell⟩ := hinv.item_of_isSome (Option.isSome_of_eq_some hitem)
      exact ⟨e, he, hei, Option.some.inj (hcell.symm.trans hitem)⟩

theorem infStep_loadOrder (s : InfThreads τ α) (a : InfAction τ α) (s' : InfThreads τ α)
    (h : InfInv s ∧ LoadOrder s) (hs : s.step a = some s') : InfInv s' ∧ LoadOrder s' := by
  obtain ⟨hinv, hord⟩ := h
  refine ⟨infStep_inv s a s' hinv hs, ?_⟩
  cases a with
  | add t item =>
    obtain ⟨-, rfl⟩ := infbufferAdd_cases hs
    exact hord.frame (by simp [Phase.claimed]) rfl (List.subset_append_left _ _) rfl
  | rem t =>
    obtain ⟨-, rfl⟩ := infbufferRem_cases hs
    exact hord.claim hinv.rem
  | step t =>
    obtain ⟨item, idx, -, rfl⟩ | ⟨item, idx, -, rfl⟩ | ⟨idx, -, -, rfl⟩ | ⟨idx, ht, -, rfl⟩ |
      ⟨idx, ht, rfl⟩ := infbufferNext_cases hs
    · exact hord.frame (by simp [Phase.claimed]) rfl (List.Subset.refl _) rfl
    · exact hord.frame (by simp [Phase.claimed]) rfl (List.Subset.refl _) rfl
    · exact hord
    · exact hord.frame (by simp [ht, Phase.claimed]) rfl (List.Subset.refl _) rfl
    · exact hord.load hinv ht

theorem run_loadOrder {as : List (InfAction τ α)}
    (hs : Machine.run InfThreads.step (InfThreads.init τ α) as = some s) : LoadOrder s := by
  have h0 : InfInv (InfThreads.init τ α) ∧ LoadOrder (InfThreads.init τ α) :=
    ⟨InfInv.init τ α, LoadOrder.init τ α⟩
  exact (Machine.run_invariant infStep_loadOrder h0 hs).2

/-- The add that the action starts. -/
def InfAction.added : InfAction τ α → Option (τ × α)
  | .add t item => some (t, item)
  | _ => none

/-- The adds claim their slots in the order in which the schedule starts them. -/
theorem run_adds {as : List (InfAction τ α)} (hs : Machine.run InfThreads.step s as = some s') :
    s'.adds.map (fun e => (e.thread, e.item)) =
      s.adds.map (fun e => (e.thread, e.item)) ++ as.filterMap InfAction.added := by
  induction as generalizing s with
  | nil =>
    cases hs
    simp
  | cons a as ih =>
    obtain ⟨s1, h1, hs⟩ := Option.bind_eq_some_iff.mp hs
    rw [ih hs]
    cases a with
    | add t item =>
      obtain ⟨-, rfl⟩ := infbufferAdd_cases h1
      simp [InfAction.added]
    | rem t =>
      obtain ⟨-, rfl⟩ := infbufferRem_cases h1
      rfl
    | step t =>
      obtain ⟨_, _, -, rfl⟩ | ⟨_, _, -, rfl⟩ | ⟨_, -, -, rfl⟩ | ⟨_, -, -, rfl⟩ | ⟨_, -, rfl⟩ :=
        infbufferNext_cases h1 <;> rfl

end Loads

/-! ## The order of the items -/

variable {s : InfThreads τ Payload} {as : List (InfAction τ Payload)}

/-- Threads that run `thread_writer`, each with an `id` of its own, keep to the order. -/
theorem WritersInOrder.of_threadWriter {wid : τ → Nat} (hwid : Function.Injective wid)
    {maxseq : Nat}
    (h : ∀ t, as.filterMap (InfAction.addedBy t) <+: TestInfbuffer.threadWriter (wid t) maxseq) :
    WritersInOrder as ∧ ∀ t p, .add t p ∈ as → 0 < p.seqno := by
  have hmem : ∀ t p, .add t p ∈ as → p ∈ TestInfbuffer.threadWriter (wid t) maxseq := by
    intro t p hp
    exact (h t).subset (List.mem_filterMap.mpr ⟨_, hp, by simp [InfAction.addedBy]⟩)
  have hfields : ∀ t p, .add t p ∈ as → p.id = wid t ∧ 0 < p.seqno := by
    intro t p hp
    obtain ⟨i, -, rfl⟩ := List.mem_map.mp (hmem t p hp)
    exact ⟨rfl, Nat.succ_pos i⟩
  refine ⟨⟨?_, ?_⟩, fun t p hp => (hfields t p hp).2⟩
  · intro t u p q hp hq hid
    rw [(hfields t p hp).1, (hfields u q hq).1] at hid
    exact hwid hid
  · intro t
    refine List.Pairwise.sublist (h t).sublist ?_
    rw [TestInfbuffer.threadWriter, List.pairwise_map]
    refine List.pairwise_lt_range.imp ?_
    intro i j hij _
    exact Nat.succ_lt_succ hij

omit [DecidableEq τ] in
theorem InfAction.eq_add_of_added {α : Type*} {a : InfAction τ α} {t : τ} {item : α}
    (h : a.added = some (t, item)) : a = .add t item := by
  cases a with
  | add u q =>
    cases h
    rfl
  | _ => cases h

/-- The items of one writer are in order in the schedule, whoever else adds in between. -/
theorem WritersInOrder.pairwise (h : WritersInOrder as) :
    (as.filterMap InfAction.added).Pairwise fun p q => p.2.Before q.2 := by
  rw [List.pairwise_filterMap, List.pairwise_iff_getElem]
  rintro i j hi hj hij ⟨t, p⟩ hp ⟨u, q⟩ hq hid
  have hpi := InfAction.eq_add_of_added hp
  have hqj := InfAction.eq_add_of_added hq
  obtain rfl : t = u :=
    h.own t u p q (hpi ▸ List.getElem_mem hi) (hqj ▸ List.getElem_mem hj) hid
  have hsorted := List.pairwise_filterMap.mp (h.increasing t)
  have hrel := List.pairwise_iff_getElem.mp hsorted i j hi hj hij
  exact hrel p (by simp [hpi, InfAction.addedBy]) q (by simp [hqj, InfAction.addedBy]) hid

theorem run_adds_init {α : Type*} {s : InfThreads τ α} {as : List (InfAction τ α)}
    (hs : Machine.run InfThreads.step (InfThreads.init τ α) as = some s) :
    s.adds.map (fun e => (e.thread, e.item)) = as.filterMap InfAction.added := by
  have hadds := run_adds hs
  rwa [show (InfThreads.init τ α).adds = [] from rfl, List.map_nil, List.nil_append] at hadds

theorem run_adds_before (hw : WritersInOrder as)
    (hs : Machine.run InfThreads.step (InfThreads.init τ Payload) as = some s) :
    s.adds.Pairwise fun e f => e.item.Before f.item := by
  have hpair := hw.pairwise
  rw [← run_adds_init hs, List.pairwise_map] at hpair
  exact hpair

theorem run_obtained_added (hs : Machine.run InfThreads.step (InfThreads.init τ Payload) as = some s)
    {u : τ} {p : Payload} (hp : p ∈ (obtained u s).filterMap id) : ∃ t, .add t p ∈ as := by
  obtain ⟨v, hv, hvp⟩ := List.mem_filterMap.mp hp
  obtain ⟨l, hl, rfl⟩ := List.mem_map.mp hv
  obtain ⟨e, he, -, rfl⟩ := (run_loadOrder hs).values l (List.mem_of_mem_filter hl) p hvp
  have hmem : (e.thread, e.item) ∈ as.filterMap InfAction.added :=
    run_adds_init hs ▸ List.mem_map_of_mem he
  obtain ⟨a, ha, hae⟩ := List.mem_filterMap.mp hmem
  exact ⟨e.thread, InfAction.eq_add_of_added hae ▸ ha⟩

theorem run_obtained_before (hw : WritersInOrder as)
    (hs : Machine.run InfThreads.step (InfThreads.init τ Payload) as = some s) (u : τ) :
    ((obtained u s).filterMap id).Pairwise Payload.Before := by
  have hinv := run_infInv hs
  have hord := run_loadOrder hs
  have hadds := run_adds_before hw hs
  rw [obtained, List.pairwise_filterMap, List.pairwise_map]
  refine List.Pairwise.imp_of_mem ?_ (hord.sorted.filter _)
  intro l m hl hm hlt p hp q hq
  obtain ⟨hl, hlu⟩ := List.mem_filter.mp hl
  obtain ⟨hm, hmu⟩ := List.mem_filter.mp hm
  obtain ⟨e, he, hei, rfl⟩ := hord.values l hl p hp
  obtain ⟨f, hf, hfi, rfl⟩ := hord.values m hm q hq
  have hthread : l.thread = m.thread := (of_decide_eq_true hlu).trans (of_decide_eq_true hmu).symm
  have hidx : e.idx < f.idx := by
    rw [hei, hfi]
    exact hlt hthread
  exact hinv.add.issued.rel_of_lt hadds he hf hidx

/-- A reader that gets the items of each writer in order, above the numbers it has noted, never
sees a number come back. -/
theorem threadReader_ne_seqno (writers maxseq : Nat) (values : List (Option Payload)) :
    ∀ seqnos : Nat → Nat, (values.filterMap id).Pairwise Payload.Before →
      (∀ p ∈ values.filterMap id, seqnos p.id < p.seqno) →
      TestInfbuffer.threadReader writers maxseq seqnos values ≠ some .seqno := by
  induction values with
  | nil => simp [TestInfbuffer.threadReader]
  | cons v values ih =>
    intro seqnos hpair habove
    cases v with
    | none => simp [TestInfbuffer.threadReader]
    | some load =>
      have hcons : (some load :: values).filterMap id = load :: values.filterMap id := rfl
      rw [hcons] at hpair habove
      obtain ⟨hfirst, hrest⟩ := List.pairwise_cons.mp hpair
      have hload : seqnos load.id < load.seqno := habove load (List.mem_cons_self ..)
      unfold TestInfbuffer.threadReader
      -- the assertion on the number holds by `hload`
      split_ifs with hmagic hid hmax
      · simp
      · refine ih _ hrest ?_
        intro p hp
        rcases eq_or_ne p.id load.id with hpid | hpid
        · rw [hpid, Function.update_self]
          exact hfirst p hp hpid.symm
        · rw [Function.update_of_ne hpid]
          exact habove p (List.mem_cons_of_mem _ hp)
      · simp
      · simp

/-- **Per-writer order**: if each writer adds its own items with strictly increasing sequence
numbers, each reader obtains those of each writer in that order, in every run; when the numbers
start above the zeros of `calloc`, its assertion on them never fails. -/
theorem infbuffer_in_order (as : List (InfAction τ Payload)) (s : InfThreads τ Payload)
    (hw : WritersInOrder as)
    (hs : Machine.run InfThreads.step (InfThreads.init τ Payload) as = some s) :
    (∀ u, ((obtained u s).filterMap id).Pairwise Payload.Before) ∧
    ((∀ t p, .add t p ∈ as → 0 < p.seqno) → ∀ u writers maxseq,
      TestInfbuffer.threadReader writers maxseq (fun _ => 0) (obtained u s) ≠ some .seqno) := by
  refine ⟨fun u => run_obtained_before hw hs u, ?_⟩
  intro hpos u writers maxseq
  refine threadReader_ne_seqno writers maxseq _ _ (run_obtained_before hw hs u) ?_
  intro p hp
  obtain ⟨t, ht⟩ := run_obtained_added hs hp
  exact hpos t p ht

/-- A writer and a reader of two items. -/
def twoItems : List (InfAction (Fin 2) Payload) :=
  [.add 0 ⟨magic, 0, 1⟩, .step 0, .step 0, .rem 1, .add 0 ⟨magic, 0, 2⟩, .step 1, .step 1, .rem 1,
    .step 0, .step 0, .step 1, .step 1]

theorem infbuffer_in_order_twoItems :
    ∃ s, Machine.run InfThreads.step (InfThreads.init (Fin 2) Payload) twoItems = some s ∧
      ((obtained 1 s).filterMap id).Pairwise Payload.Before ∧
      TestInfbuffer.threadReader 1 2 (fun _ => 0) (obtained 1 s) ≠ some .seqno := by
  have hprefix : ∀ t : Fin 2,
      twoItems.filterMap (InfAction.addedBy t) <+: TestInfbuffer.threadWriter t 2 := by decide
  obtain ⟨hw, hpos⟩ := WritersInOrder.of_threadWriter (fun _ _ => Fin.ext) hprefix
  obtain ⟨s, hs⟩ : ∃ s, Machine.run InfThreads.step (InfThreads.init (Fin 2) Payload) twoItems =
      some s := ⟨_, rfl⟩
  obtain ⟨hbefore, hreader⟩ := infbuffer_in_order twoItems s hw hs
  exact ⟨s, hs, hbefore 1, hreader hpos 1 1 2⟩

end Twd
