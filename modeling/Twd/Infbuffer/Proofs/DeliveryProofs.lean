import Twd.Infbuffer.Proofs.InfbufferProofs

/-!
# When every rem gets an item

`widx` counts the adds that have stored their items but does not say which: when an add overtakes
another, a rem finds its slot below `widx` and still empty.
-/

namespace Twd

variable {τ α : Type*}

/-- The thread is about to make its second increment. -/
def Phase.isPublish : Phase α → Bool
  | .publish _ _ => true
  | _ => false

/-- If the step is a second increment, the slot that it lets the rems load has been stored to. -/
def PublishesFilled (s : InfThreads τ α) : InfAction τ α → Prop
  | .step t => (s.phase t).isPublish = true → (s.buf.data s.buf.widx).isSome = true
  | _ => True

instance (s : InfThreads τ α) : (a : InfAction τ α) → Decidable (PublishesFilled s a)
  | .add _ _ => isTrue trivial
  | .rem _ => isTrue trivial
  | .step t => inferInstanceAs (Decidable ((s.phase t).isPublish = true → _))

/-- Every slot below `widx` has been stored to, and what has been loaded is what was added. -/
structure DeliveryInv (s : InfThreads τ α) : Prop where
  inv : InfInv s
  filled : ∀ i < s.buf.widx, (s.buf.data i).isSome
  delivered : Delivered s

/-- The condition is met by an add that no other one overlaps. -/
theorem publishesFilled_of_alone {s : InfThreads τ α} (h : InfInv s) {t : τ}
    (halone : ∀ u, u ≠ t → (s.phase u).isAdd = false) : PublishesFilled s (.step t) := by
  intro hpublish
  cases ht : s.phase t with
  | publish item idx =>
    obtain ⟨hmem, hstored, hnew⟩ := h.add.publishing t item idx ht
    -- the slot that becomes visible has been claimed
    have hlt : s.buf.widx < s.buf.tidx := by
      have hsub : s.completed ++ [idx] ⊆ List.range s.buf.tidx := by
        intro i hi
        rcases List.mem_append.mp hi with hi | hi
        · exact List.mem_range.mpr (h.add.completed_lt hi)
        · rw [List.mem_singleton.mp hi]
          exact List.mem_range.mpr (h.add.issued.lt hmem)
      have hle := ((nodup_append_singleton h.add.completed_nodup hnew).subperm hsub).length_le
      rw [List.length_append, List.length_singleton, ← h.add.widx_eq, List.length_range] at hle
      exact hle
    have hcell : s.buf.widx ∈ s.stores.map Prod.fst := by
      obtain ⟨e, he, hei⟩ := h.add.issued.exists_of_lt hlt
      rw [← hei]
      rcases eq_or_ne e.thread t with hut | hut
      · rcases h.add.accounted e he with hc | hphase
        · exact h.add.completed_stored _ hc
        · rw [hut, ht] at hphase
          obtain hphase | hphase := hphase <;> cases hphase
          exact List.mem_map_of_mem hstored
      · have hidle := halone e.thread hut
        rcases h.add.accounted e he with hc | hphase | hphase
        · exact h.add.completed_stored _ hc
        · simp [hphase, Phase.isAdd] at hidle
        · simp [hphase, Phase.isAdd] at hidle
    obtain ⟨p, hp, hpi⟩ := List.mem_map.mp hcell
    rw [← hpi, h.add.cell_stored p hp]
    rfl
  | _ => simp [ht, Phase.isPublish] at hpublish

section Steps

variable [DecidableEq τ]

theorem infStep_delivery (s : InfThreads τ α) (a : InfAction τ α) (s' : InfThreads τ α)
    (h : DeliveryInv s) (hok : PublishesFilled s a) (hs : s.step a = some s') :
    DeliveryInv s' := by
  have hinv := infStep_inv s a s' h.inv hs
  cases a with
  | add t item =>
    obtain ⟨-, rfl⟩ := infbufferAdd_cases hs
    refine ⟨hinv, h.filled, ?_⟩
    intro l hl
    obtain ⟨e, he, hrest⟩ := h.delivered l hl
    exact ⟨e, List.mem_append_left _ he, hrest⟩
  | rem t =>
    obtain ⟨-, rfl⟩ := infbufferRem_cases hs
    exact ⟨hinv, h.filled, h.delivered⟩
  | step t =>
    obtain ⟨item, idx, -, rfl⟩ | ⟨item, idx, ht, rfl⟩ | ⟨idx, -, -, rfl⟩ | ⟨idx, -, -, rfl⟩ |
      ⟨idx, ht, rfl⟩ := infbufferNext_cases hs
    · refine ⟨hinv, ?_, h.delivered⟩
      intro i hi
      rcases eq_or_ne i idx with rfl | hne
      · simp
      · simp only [Function.update_of_ne hne]
        exact h.filled i hi
    · refine ⟨hinv, ?_, h.delivered⟩
      intro i hi
      rcases Nat.lt_succ_iff_lt_or_eq.mp hi with hlt | rfl
      · exact h.filled i hlt
      · exact hok (by rw [ht]; rfl)
    · exact h
    · exact ⟨hinv, h.filled, h.delivered⟩
    · refine ⟨hinv, h.filled, ?_⟩
      intro l hl
      rcases List.mem_append.mp hl with hl | hl
      · exact h.delivered l hl
      · rw [List.mem_singleton.mp hl]
        obtain ⟨-, -, hlt⟩ := h.inv.rem.loading t idx ht
        exact h.inv.item_of_isSome (h.filled idx hlt)

/-- **Every rem gets the item of its slot**, in every run in which no second increment lets the rems
load a slot that has not been stored to. -/
theorem infbuffer_delivers (as : List (InfAction τ α)) (s : InfThreads τ α)
    (hok : Machine.Meets InfThreads.step PublishesFilled (InfThreads.init τ α) as)
    (hs : Machine.run InfThreads.step (InfThreads.init τ α) as = some s) : Delivered s := by
  have h0 : DeliveryInv (InfThreads.init τ α) :=
    ⟨InfInv.init τ α, by simp [InfThreads.init, infbufferInit],
      by simp [Delivered, InfThreads.init]⟩
  exact (Machine.run_invariant_of_meets infStep_delivery h0 hok hs).delivered

/-- A whole rem of the next slot by a thread that is outside. -/
theorem run_rem {s : InfThreads τ α} {t : τ} (ht : s.phase t = .idle)
    (hlt : s.buf.ridx < s.buf.widx) :
    ∃ s', Machine.run InfThreads.step s [.rem t, .step t, .step t] = some s' ∧
      s'.phase t = .idle ∧ s'.buf = { s.buf with ridx := s.buf.ridx + 1 } ∧
      s'.loads = s.loads ++ [⟨t, s.buf.ridx, s.buf.data s.buf.ridx⟩] := by
  have hnot : ¬ s.buf.ridx ≥ s.buf.widx := by omega
  simp [InfThreads.step, infbufferRem, infbufferNext, ht, fetchThenAdd, hnot]

/-- A thread that is outside can take the slots one after the other until it has loaded slot `i`. -/
theorem exists_run_load {t : τ} {i : Nat} (k : Nat) :
    ∀ {s : InfThreads τ α}, s.phase t = .idle → s.buf.ridx + k = i → i < s.buf.widx →
      ∃ as s', Machine.run InfThreads.step s as = some s' ∧
        ⟨t, i, s.buf.data i⟩ ∈ s'.loads := by
  induction k with
  | zero =>
    intro s ht hi hlt
    obtain rfl : s.buf.ridx = i := hi
    obtain ⟨s', hs', -, -, hloads⟩ := run_rem ht hlt
    exact ⟨_, s', hs', by simp [hloads]⟩
  | succ k ih =>
    intro s ht hi hlt
    obtain ⟨s1, hs1, ht1, hbuf, -⟩ := run_rem ht (by omega)
    have hridx : s1.buf.ridx + k = i := by rw [hbuf]; simp only; omega
    obtain ⟨as, s', hs', hmem⟩ := ih ht1 hridx (by rw [hbuf]; exact hlt)
    rw [hbuf] at hmem
    exact ⟨_, s', Machine.run_trans hs1 hs', hmem⟩

/-- A thread that waits for a slot below `widx` loads it. -/
theorem run_wait_load {s : InfThreads τ α} {t : τ} {i : Nat} (ht : s.phase t = .wait i)
    (hlt : i < s.buf.widx) :
    ∃ s', Machine.run InfThreads.step s [.step t, .step t] = some s' ∧
      ⟨t, i, s.buf.data i⟩ ∈ s'.loads := by
  have hnot : ¬ i ≥ s.buf.widx := by omega
  simp [InfThreads.step, infbufferNext, ht, hnot]

omit [DecidableEq τ] in
theorem not_delivered {s : InfThreads τ α} {t : τ} {i : Nat} (h : ⟨t, i, none⟩ ∈ s.loads) :
    ¬ Delivered s := by
  intro hd
  obtain ⟨e, -, -, hvalue⟩ := hd _ h
  cases hvalue

/-- A step that does not meet the condition can be continued to a rem that loads the zero which
`calloc` left: either the slot has been claimed by a rem that waits for it, or the thread itself can
go and load it. -/
theorem exists_run_not_delivered {s s' : InfThreads τ α} (h : InfInv s) {a : InfAction τ α}
    (hbad : ¬ PublishesFilled s a) (hs : s.step a = some s') :
    ∃ as s'', Machine.run InfThreads.step s' as = some s'' ∧ ¬ Delivered s'' := by
  cases a with
  | add t item => exact absurd trivial hbad
  | rem t => exact absurd trivial hbad
  | step t =>
    simp only [PublishesFilled, Classical.not_imp, Bool.not_eq_true, Option.isSome_eq_false_iff,
      Option.isNone_iff_eq_none] at hbad
    obtain ⟨hpublish, hempty⟩ := hbad
    obtain ⟨item, idx, ht, hs'⟩ | ⟨item, idx, ht, hs'⟩ | ⟨idx, ht, -, hs'⟩ | ⟨idx, ht, -, hs'⟩ |
      ⟨idx, ht, hs'⟩ := infbufferNext_cases hs
    case inr.inl =>
      have hidle : s'.phase t = .idle := by rw [hs']; exact Function.update_self ..
      have hother : ∀ u, u ≠ t → s'.phase u = s.phase u := by
        intro u hut
        rw [hs']
        exact Function.update_of_ne hut ..
      have hwidx : s'.buf.widx = s.buf.widx + 1 := by rw [hs']
      have hridx : s'.buf.ridx = s.buf.ridx := by rw [hs']
      have hslot : s'.buf.data s.buf.widx = none := by rw [hs']; exact hempty
      by_cases hclaimed : s.buf.widx < s.buf.ridx
      · obtain ⟨⟨u, i⟩, hu, rfl⟩ := h.rem.issued.exists_of_lt hclaimed
        rcases h.rem.accounted _ hu with hloaded | hwait | hload
        · obtain ⟨l, hl, hli⟩ := List.mem_map.mp hloaded
          exact absurd hli (h.rem.load_lt l hl).ne
        · have hut : u ≠ t := by
            rintro rfl
            rw [ht] at hwait
            cases hwait
          obtain ⟨s'', hs'', hmem⟩ := run_wait_load ((hother u hut).trans hwait) (by omega)
          exact ⟨_, s'', hs'', not_delivered (hslot ▸ hmem)⟩
        · exact absurd (h.rem.loading u _ hload).2.2 (lt_irrefl _)
      · obtain ⟨as, s'', hs'', hmem⟩ := exists_run_load (i := s.buf.widx)
          (s.buf.widx - s.buf.ridx) hidle (by omega) (by omega)
        exact ⟨as, s'', hs'', not_delivered (hslot ▸ hmem)⟩
    all_goals
      rw [ht] at hpublish
      cases hpublish

end Steps

/-- Two adds that follow one another, and the two rems that fetch their items. -/
def inOrder : List (InfAction (Fin 3) Char) :=
  [.add 0 'a', .rem 2, .step 0, .step 0, .add 1 'b', .step 2, .step 2, .step 1, .step 1,
    .rem 2, .step 2, .step 2]

theorem infbuffer_delivers_inOrder :
    ∃ s, Machine.run InfThreads.step (InfThreads.init (Fin 3) Char) inOrder = some s ∧
      Delivered s := by
  exact ⟨_, rfl, infbuffer_delivers inOrder _ (by decide +kernel) rfl⟩

/-- The add by thread 1 overtakes the one by thread 0, and thread 2 loads the slot of the latter. -/
def overtaking : List (InfAction (Fin 3) Char) :=
  [.add 0 'a', .add 1 'b', .step 1, .step 1, .rem 2, .step 2, .step 2]

/-- With two writers a rem can return the zero that `calloc` left. -/
theorem infbuffer_not_delivers :
    ¬ ∀ (as : List (InfAction (Fin 3) Char)) (s : InfThreads (Fin 3) Char),
      as.countP InfAction.isAdd ≤ 2 →
      Machine.run InfThreads.step (InfThreads.init (Fin 3) Char) as = some s → Delivered s := by
  intro h
  obtain ⟨e, -, -, hvalue⟩ := h overtaking _ (by decide) rfl ⟨2, 0, none⟩ (by decide)
  exact absurd hvalue (by simp)

end Twd
