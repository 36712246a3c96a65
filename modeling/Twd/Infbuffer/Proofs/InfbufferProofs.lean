import Twd.Infbuffer.Proofs.AddProofs
import Twd.Infbuffer.Proofs.RemProofs

/-!
# Nothing is lost or doubled in the slots

The adds and the rems meet in the slots and in `widx` only, so their invariants are kept apart and
every step leaves one of the two sides as it is.
-/

namespace Twd

variable {τ α : Type*}

/-- Both together. -/
structure InfInv (s : InfThreads τ α) : Prop where
  add : AddInv s
  rem : RemInv s

theorem InfInv.init (τ α : Type*) : InfInv (InfThreads.init τ α) :=
  ⟨AddInv.init τ α, RemInv.init τ α⟩

/-- A slot that holds something holds the item of the add that claimed it. -/
theorem InfInv.item_of_isSome {s : InfThreads τ α} (h : InfInv s) {i : Nat}
    (hi : (s.buf.data i).isSome) : ∃ e ∈ s.adds, e.idx = i ∧ s.buf.data i = some e.item := by
  by_cases hmem : i ∈ s.stores.map Prod.fst
  · obtain ⟨p, hp, rfl⟩ := List.mem_map.mp hmem
    obtain ⟨t, ht⟩ := h.add.stores_added p hp
    exact ⟨_, ht, rfl, h.add.cell_stored p hp⟩
  · rw [h.add.cell_empty i hmem] at hi
    exact absurd hi (by simp)

section Steps

variable [DecidableEq τ] {s s' : InfThreads τ α}

theorem infbufferNext_inv (h : InfInv s) {t : τ} (hs : infbufferNext s t = some s') :
    InfInv s' := by
  obtain ⟨item, idx, ht, rfl⟩ | ⟨item, idx, ht, rfl⟩ | ⟨idx, -, -, rfl⟩ | ⟨idx, ht, hlt, rfl⟩ |
    ⟨idx, ht, rfl⟩ := infbufferNext_cases hs
  · exact ⟨h.add.store ht, h.rem.frame rfl (by simp [ht, Phase.isRem]) rfl rfl rfl rfl le_rfl⟩
  · exact ⟨h.add.publish ht,
      h.rem.frame rfl (by simp [ht, Phase.isRem]) rfl rfl rfl rfl (Nat.le_succ _)⟩
  · exact h
  · exact ⟨h.add.frame rfl (by simp [ht, Phase.isAdd]) rfl rfl rfl rfl rfl rfl rfl,
      h.rem.wait ht hlt⟩
  · exact ⟨h.add.frame rfl (by simp [ht, Phase.isAdd]) rfl rfl rfl rfl rfl rfl rfl,
      h.rem.load ht⟩

theorem infStep_inv (s : InfThreads τ α) (a : InfAction τ α) (s' : InfThreads τ α)
    (h : InfInv s) (hs : s.step a = some s') : InfInv s' := by
  cases a with
  | add t item =>
    obtain ⟨ht, rfl⟩ := infbufferAdd_cases hs
    exact ⟨h.add.claim ht, h.rem.frame rfl (by simp [ht, Phase.isRem]) rfl rfl rfl rfl le_rfl⟩
  | rem t =>
    obtain ⟨ht, rfl⟩ := infbufferRem_cases hs
    exact ⟨h.add.frame rfl (by simp [ht, Phase.isAdd]) rfl rfl rfl rfl rfl rfl rfl,
      h.rem.claim ht⟩
  | step t => exact infbufferNext_inv h hs

theorem run_infInv {as : List (InfAction τ α)}
    (hs : Machine.run InfThreads.step (InfThreads.init τ α) as = some s) : InfInv s :=
  Machine.run_invariant infStep_inv (InfInv.init τ α) hs

theorem infStep_tidx {a : InfAction τ α} (hs : s.step a = some s') :
    s'.buf.tidx = s.buf.tidx + [a].countP InfAction.isAdd := by
  cases a with
  | add t item =>
    obtain ⟨-, rfl⟩ := infbufferAdd_cases hs
    rfl
  | rem t =>
    obtain ⟨-, rfl⟩ := infbufferRem_cases hs
    rfl
  | step t =>
    obtain ⟨_, _, -, rfl⟩ | ⟨_, _, -, rfl⟩ | ⟨_, -, -, rfl⟩ | ⟨_, -, -, rfl⟩ | ⟨_, -, rfl⟩ :=
      infbufferNext_cases hs <;> rfl

theorem run_tidx {as : List (InfAction τ α)} (hs : Machine.run InfThreads.step s as = some s') :
    s'.buf.tidx = s.buf.tidx + as.countP InfAction.isAdd := by
  induction as generalizing s with
  | nil =>
    cases hs
    rfl
  | cons a as ih =>
    obtain ⟨s1, h1, hs⟩ := Option.bind_eq_some_iff.mp hs
    rw [ih hs, infStep_tidx h1, Nat.add_assoc, ← List.countP_append, List.singleton_append]

/-- A step loads at most one slot, and returns what the slot holds; stores stay. -/
theorem infStep_loads {a : InfAction τ α} (hs : s.step a = some s') :
    s.stores <+: s'.stores ∧ (s'.loads = s.loads ∨
      ∃ t idx, s'.loads = s.loads ++ [⟨t, idx, s.buf.data idx⟩]) := by
  cases a with
  | add t item =>
    obtain ⟨-, rfl⟩ := infbufferAdd_cases hs
    exact ⟨List.prefix_rfl, .inl rfl⟩
  | rem t =>
    obtain ⟨-, rfl⟩ := infbufferRem_cases hs
    exact ⟨List.prefix_rfl, .inl rfl⟩
  | step t =>
    obtain ⟨_, _, -, rfl⟩ | ⟨_, _, -, rfl⟩ | ⟨_, -, -, rfl⟩ | ⟨_, -, -, rfl⟩ | ⟨_, -, rfl⟩ :=
      infbufferNext_cases hs
    · exact ⟨List.prefix_append _ _, .inl rfl⟩
    · exact ⟨List.prefix_rfl, .inl rfl⟩
    · exact ⟨List.prefix_rfl, .inl rfl⟩
    · exact ⟨List.prefix_rfl, .inl rfl⟩
    · exact ⟨List.prefix_rfl, .inr ⟨_, _, rfl⟩⟩

/-- What is loaded from a slot that an earlier state had filled is the item of that state. -/
theorem run_laterLoads (h : InfInv s) (hq : Quiescent s) {as : List (InfAction τ α)}
    (hs : Machine.run InfThreads.step s as = some s') : LaterLoads s s' := by
  obtain ⟨-, hstored⟩ := h.add.quiescent hq
  have hfilled : ∀ i < s.buf.widx, ∃ e ∈ s.adds, e.idx = i ∧ (i, e.item) ∈ s.stores := by
    intro i hi
    obtain ⟨e, he, rfl⟩ := h.add.issued.exists_of_lt (lt_of_lt_of_le hi h.add.widx_le)
    exact ⟨e, he, rfl, hstored e he⟩
  -- the stores made up to `s` are still there when a later load is made
  have hstep : ∀ u a u', (InfInv u ∧ s.stores <+: u.stores ∧ LaterLoads s u) →
      InfThreads.step u a = some u' → InfInv u' ∧ s.stores <+: u'.stores ∧ LaterLoads s u' := by
    rintro u a u' ⟨hinv, hpre, new, hnew, hvalues⟩ hu
    obtain ⟨hpre', hloads⟩ := infStep_loads hu
    refine ⟨infStep_inv u a u' hinv hu, hpre.trans hpre', ?_⟩
    rcases hloads with hloads | ⟨t, idx, hloads⟩
    · exact ⟨new, hloads.trans hnew, hvalues⟩
    · refine ⟨new ++ [⟨t, idx, u.buf.data idx⟩], by rw [hloads, hnew, List.append_assoc], ?_⟩
      intro l hl hlt
      rcases List.mem_append.mp hl with hl | hl
      · exact hvalues l hl hlt
      · rw [List.mem_singleton.mp hl] at hlt ⊢
        obtain ⟨e, he, hei, hst⟩ := hfilled idx hlt
        exact ⟨e, he, hei, hinv.add.cell_stored (idx, e.item) (hpre.subset hst)⟩
  have h0 : InfInv s ∧ s.stores <+: s.stores ∧ LaterLoads s s :=
    ⟨h, List.prefix_rfl, [], (List.append_nil _).symm, by simp⟩
  exact (Machine.run_invariant hstep h0 hs).2.2

/-- **Nothing is lost or doubled**: with at most `items` adds, every reachable state has no slot
used twice and none outside the array, and what is loaded after a quiescent state from the slots
counted there is what was added. -/
theorem infbuffer_no_loss (items : Nat) (as : List (InfAction τ α)) (s : InfThreads τ α)
    (hitems : as.countP InfAction.isAdd ≤ items)
    (hs : Machine.run InfThreads.step (InfThreads.init τ α) as = some s) :
    NoLoss items s ∧ (Quiescent s → ∀ as' s', Machine.run InfThreads.step s as' = some s' →
      LaterLoads s s') := by
  have h := run_infInv hs
  have htidx : s.buf.tidx ≤ items := by
    rw [run_tidx hs]
    simpa [InfThreads.init, infbufferInit] using hitems
  have hwidx := h.add.widx_le
  refine ⟨?_, fun hq as' s' hs' => run_laterLoads h hq hs'⟩
  constructor
  case adds_distinct => exact h.add.issued.nodup
  case stores_distinct => exact h.add.stores_nodup
  case rems_distinct => exact h.rem.issued.nodup
  case loads_distinct => exact h.rem.loads_nodup
  case widx_eq => exact h.add.widx_eq
  case widx_le => exact hwidx
  case store_lt => exact fun p hp => lt_of_lt_of_le (h.add.stored_lt hp) htidx
  case load_lt =>
    intro l hl
    have hlt := h.rem.load_lt l hl
    omega
  case rems_idx => exact h.rem.issued
  case not_skipped =>
    intro i hi
    obtain ⟨q, hq, rfl⟩ := h.rem.issued.exists_of_lt hi
    exact (h.rem.accounted q hq).imp_right fun hphase => ⟨q.1, hphase⟩
  case slots =>
    intro hq
    obtain ⟨hlen, hstored⟩ := h.add.quiescent hq
    refine ⟨hlen, ?_⟩
    intro i hi
    have hcell := h.add.cell_stored _ (hstored _ (List.getElem_mem hi))
    rwa [h.add.issued.num_getElem hi] at hcell

end Steps

/-- Two adds and two rems by three threads, of which the second add is counted first. -/
theorem infbuffer_no_loss_crossed :
    ∃ s : InfThreads (Fin 3) Char, Machine.run InfThreads.step (InfThreads.init (Fin 3) Char)
      [.add 0 'a', .add 1 'b', .step 1, .step 1, .step 0, .step 0, .rem 2, .step 2, .step 2,
        .rem 0, .step 0, .step 0] = some s ∧ NoLoss 2 s := by
  refine ⟨_, rfl, ?_⟩
  exact (infbuffer_no_loss 2 [.add 0 'a', .add 1 'b', .step 1, .step 1, .step 0, .step 0, .rem 2,
    .step 2, .step 2, .rem 0, .step 0, .step 0] _ (by decide) rfl).1

end Twd
