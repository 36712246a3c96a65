import Mathlib.Data.List.Perm.Subperm
import Twd.Infbuffer.Proofs.StepProofs
import Twd.Tickets.Tickets

/-!
# The adds and their slots

Every claim made through `tidx` belongs to a call that has stored nothing yet, that has stored its
item, or that has returned.
-/

namespace Twd

open Tickets

variable {τ α : Type*}

/-- The adds and their slots. -/
structure AddInv (s : InfThreads τ α) : Prop where
  issued : Issued s.adds Added.idx s.buf.tidx
  storing : ∀ t item i, s.phase t = .store item i →
    ⟨t, item, i⟩ ∈ s.adds ∧ i ∉ s.stores.map Prod.fst
  publishing : ∀ t item i, s.phase t = .publish item i →
    ⟨t, item, i⟩ ∈ s.adds ∧ (i, item) ∈ s.stores ∧ i ∉ s.completed
  accounted : ∀ e ∈ s.adds, e.idx ∈ s.completed ∨
    s.phase e.thread = .store e.item e.idx ∨ s.phase e.thread = .publish e.item e.idx
  widx_eq : s.buf.widx = s.completed.length
  completed_nodup : s.completed.Nodup
  completed_stored : ∀ i ∈ s.completed, i ∈ s.stores.map Prod.fst
  stores_nodup : (s.stores.map Prod.fst).Nodup
  stores_added : ∀ p ∈ s.stores, ∃ t, ⟨t, p.2, p.1⟩ ∈ s.adds
  cell_stored : ∀ p ∈ s.stores, s.buf.data p.1 = some p.2
  cell_empty : ∀ i, i ∉ s.stores.map Prod.fst → s.buf.data i = none

namespace AddInv

variable {s s' : InfThreads τ α}

theorem init (τ α : Type*) : AddInv (InfThreads.init τ α) := by
  constructor
  case issued => exact issued_nil
  all_goals simp [InfThreads.init, infbufferInit]

theorem stored_lt (h : AddInv s) {p : Nat × α} (hp : p ∈ s.stores) : p.1 < s.buf.tidx := by
  obtain ⟨t, ht⟩ := h.stores_added p hp
  exact h.issued.lt ht

theorem completed_lt (h : AddInv s) {i : Nat} (hi : i ∈ s.completed) : i < s.buf.tidx := by
  obtain ⟨p, hp, rfl⟩ := List.mem_map.mp (h.completed_stored i hi)
  exact h.stored_lt hp

theorem widx_le (h : AddInv s) : s.buf.widx ≤ s.buf.tidx := by
  have hsub : s.completed ⊆ List.range s.buf.tidx := fun i hi =>
    List.mem_range.mpr (h.completed_lt hi)
  have hle := (h.completed_nodup.subperm hsub).length_le
  rwa [← h.widx_eq, List.length_range] at hle

/-- Without an add on its way, every claimed slot has been counted, and its item stored. -/
theorem quiescent (h : AddInv s) (hq : Quiescent s) :
    s.buf.widx = s.adds.length ∧ ∀ e ∈ s.adds, (e.idx, e.item) ∈ s.stores := by
  have hcomp : ∀ e ∈ s.adds, e.idx ∈ s.completed := by
    intro e he
    rcases h.accounted e he with hc | hs | hp
    · exact hc
    · exact absurd hs (hq e.thread e.item e.idx).1
    · exact absurd hp (hq e.thread e.item e.idx).2
  refine ⟨le_antisymm (h.issued.length_eq ▸ h.widx_le) ?_, fun e he => ?_⟩
  · have hsub : s.adds.map Added.idx ⊆ s.completed := by
      intro i hi
      obtain ⟨e, he, rfl⟩ := List.mem_map.mp hi
      exact hcomp e he
    have hle := (h.issued.nodup.subperm hsub).length_le
    rwa [List.length_map, ← h.widx_eq] at hle
  · obtain ⟨p, hp, hpi⟩ := List.mem_map.mp (h.completed_stored _ (hcomp e he))
    obtain ⟨t, ht⟩ := h.stores_added p hp
    have heq := h.issued.eq_of_num ht he hpi
    rwa [← heq]

theorem ne_of_thread_ne (h : AddInv s) {t u : τ} {item item' : α} {i j : Nat}
    (ht : ⟨t, item, i⟩ ∈ s.adds) (hu : ⟨u, item', j⟩ ∈ s.adds) (hut : u ≠ t) : j ≠ i := by
  intro hij
  exact hut (congrArg Added.thread (h.issued.eq_of_num hu ht hij))

section Steps

variable [DecidableEq τ] {t : τ}

/-- What the adds see does not depend on the rems. -/
theorem frame (h : AddInv s) {p : Phase α} (hp : p.isAdd = false)
    (ht : (s.phase t).isAdd = false) (hphase : s'.phase = Function.update s.phase t p)
    (hadds : s'.adds = s.adds) (hstores : s'.stores = s.stores)
    (hcompleted : s'.completed = s.completed) (htidx : s'.buf.tidx = s.buf.tidx)
    (hwidx : s'.buf.widx = s.buf.widx) (hdata : s'.buf.data = s.buf.data) : AddInv s' := by
  have hold : ∀ u q, q.isAdd = true → (s'.phase u = q ↔ s.phase u = q) := by
    intro u q hq
    rcases eq_or_ne u t with rfl | hu
    · rw [hphase, Function.update_self]
      constructor <;> rintro rfl <;> simp_all
    · rw [hphase, Function.update_of_ne hu]
  constructor
  · rw [hadds, htidx]
    exact h.issued
  · intro u item i hu
    rw [hadds, hstores]
    exact h.storing u item i ((hold u _ rfl).mp hu)
  · intro u item i hu
    rw [hadds, hstores, hcompleted]
    exact h.publishing u item i ((hold u _ rfl).mp hu)
  · intro e he
    rw [hadds] at he
    rw [hcompleted, hold _ _ rfl, hold _ _ rfl]
    exact h.accounted e he
  · rw [hwidx, hcompleted]
    exact h.widx_eq
  · rw [hcompleted]
    exact h.completed_nodup
  · rw [hcompleted, hstores]
    exact h.completed_stored
  · rw [hstores]
    exact h.stores_nodup
  · rw [hstores, hadds]
    exact h.stores_added
  · rw [hstores, hdata]
    exact h.cell_stored
  · rw [hstores, hdata]
    exact h.cell_empty

theorem claim (h : AddInv s) {item : α} (ht : s.phase t = .idle) :
    AddInv { s with
      buf := { s.buf with tidx := s.buf.tidx + 1 }
      phase := Function.update s.phase t (.store item s.buf.tidx)
      adds := s.adds ++ [⟨t, item, s.buf.tidx⟩] } := by
  constructor
  case issued => exact h.issued.draw rfl
  case storing =>
    intro u it i hu
    obtain ⟨rfl, hp⟩ | ⟨-, hu⟩ := update_phase hu
    · cases hp
      refine ⟨by simp, ?_⟩
      intro hi
      obtain ⟨p, hp, hpi⟩ := List.mem_map.mp hi
      exact (h.stored_lt hp).ne hpi
    · obtain ⟨hmem, hnot⟩ := h.storing u it i hu
      exact ⟨List.mem_append_left _ hmem, hnot⟩
  case publishing =>
    intro u it i hu
    obtain ⟨-, hp⟩ | ⟨-, hu⟩ := update_phase hu
    · cases hp
    · obtain ⟨hmem, hrest⟩ := h.publishing u it i hu
      exact ⟨List.mem_append_left _ hmem, hrest⟩
  case accounted =>
    intro e he
    rcases List.mem_append.mp he with hold | hnew
    · rcases eq_or_ne e.thread t with rfl | hut
      · refine .inl ?_
        simpa [ht] using h.accounted e hold
      · simpa only [Function.update_of_ne hut] using h.accounted e hold
    · rw [List.mem_singleton.mp hnew]
      exact .inr (.inl (Function.update_self ..))
  case stores_added =>
    intro p hp
    obtain ⟨u, hu⟩ := h.stores_added p hp
    exact ⟨u, List.mem_append_left _ hu⟩
  case widx_eq => exact h.widx_eq
  case completed_nodup => exact h.completed_nodup
  case completed_stored => exact h.completed_stored
  case stores_nodup => exact h.stores_nodup
  case cell_stored => exact h.cell_stored
  case cell_empty => exact h.cell_empty

theorem store (h : AddInv s) {item : α} {idx : Nat} (ht : s.phase t = .store item idx) :
    AddInv { s with
      buf := { s.buf with data := Function.update s.buf.data idx (some item) }
      phase := Function.update s.phase t (.publish item idx)
      stores := s.stores ++ [(idx, item)] } := by
  obtain ⟨hmem, hnew⟩ := h.storing t item idx ht
  have hne : ∀ p ∈ s.stores, p.1 ≠ idx := fun p hp hpi => hnew (hpi ▸ List.mem_map_of_mem hp)
  constructor
  case issued => exact h.issued
  case storing =>
    intro u it i hu
    obtain ⟨-, hp⟩ | ⟨hut, hu⟩ := update_phase hu
    · cases hp
    · obtain ⟨humem, hnot⟩ := h.storing u it i hu
      refine ⟨humem, ?_⟩
      intro hi
      rw [List.map_append, List.mem_append, List.map_singleton, List.mem_singleton] at hi
      exact hi.elim hnot (h.ne_of_thread_ne hmem humem hut)
  case publishing =>
    intro u it i hu
    obtain ⟨rfl, hp⟩ | ⟨-, hu⟩ := update_phase hu
    · cases hp
      exact ⟨hmem, by simp, fun hc => hnew (h.completed_stored _ hc)⟩
    · obtain ⟨humem, hstored, hnot⟩ := h.publishing u it i hu
      exact ⟨humem, List.mem_append_left _ hstored, hnot⟩
  case accounted =>
    intro e he
    rcases eq_or_ne e.thread t with rfl | hut
    · have hacc := h.accounted e he
      rw [ht] at hacc
      simp only [Function.update_self]
      rcases hacc with hc | hst | hpub
      · exact .inl hc
      · cases hst
        exact .inr (.inr rfl)
      · cases hpub
    · simpa only [Function.update_of_ne hut] using h.accounted e he
  case widx_eq => exact h.widx_eq
  case completed_nodup => exact h.completed_nodup
  case completed_stored =>
    intro i hi
    rw [List.map_append]
    exact List.mem_append_left _ (h.completed_stored i hi)
  case stores_nodup =>
    rw [List.map_append, List.map_singleton]
    exact nodup_append_singleton h.stores_nodup hnew
  case stores_added =>
    intro p hp
    rcases List.mem_append.mp hp with hp | hp
    · exact h.stores_added p hp
    · rw [List.mem_singleton.mp hp]
      exact ⟨t, hmem⟩
  case cell_stored =>
    intro p hp
    rcases List.mem_append.mp hp with hp | hp
    · simp only [Function.update_of_ne (hne p hp)]
      exact h.cell_stored p hp
    · rw [List.mem_singleton.mp hp]
      exact Function.update_self ..
  case cell_empty =>
    intro i hi
    rw [List.map_append, List.mem_append, not_or, List.map_singleton, List.mem_singleton] at hi
    simp only [Function.update_of_ne hi.2]
    exact h.cell_empty i hi.1

theorem publish (h : AddInv s) {item : α} {idx : Nat} (ht : s.phase t = .publish item idx) :
    AddInv { s with
      buf := { s.buf with widx := s.buf.widx + 1 }
      phase := Function.update s.phase t .idle
      completed := s.completed ++ [idx] } := by
  obtain ⟨hmem, hstored, hnew⟩ := h.publishing t item idx ht
  constructor
  case issued => exact h.issued
  case storing =>
    intro u it i hu
    obtain ⟨-, hp⟩ | ⟨-, hu⟩ := update_phase hu
    · cases hp
    · exact h.storing u it i hu
  case publishing =>
    intro u it i hu
    obtain ⟨-, hp⟩ | ⟨hut, hu⟩ := update_phase hu
    · cases hp
    · obtain ⟨humem, hustored, hnot⟩ := h.publishing u it i hu
      refine ⟨humem, hustored, ?_⟩
      intro hi
      rw [List.mem_append, List.mem_singleton] at hi
      exact hi.elim hnot (h.ne_of_thread_ne hmem humem hut)
  case accounted =>
    intro e he
    rcases eq_or_ne e.thread t with rfl | hut
    · have hacc := h.accounted e he
      rw [ht] at hacc
      rcases hacc with hc | hst | hpub
      · exact .inl (List.mem_append_left _ hc)
      · cases hst
      · cases hpub
        exact .inl (by simp)
    · rcases h.accounted e he with hc | hrest
      · exact .inl (List.mem_append_left _ hc)
      · simp only [Function.update_of_ne hut]
        exact .inr hrest
  case widx_eq => simp [h.widx_eq]
  case completed_nodup => exact nodup_append_singleton h.completed_nodup hnew
  case completed_stored =>
    intro i hi
    rcases List.mem_append.mp hi with hi | hi
    · exact h.completed_stored i hi
    · rw [List.mem_singleton.mp hi]
      exact List.mem_map_of_mem hstored
  case stores_nodup => exact h.stores_nodup
  case stores_added => exact h.stores_added
  case cell_stored => exact h.cell_stored
  case cell_empty => exact h.cell_empty

end Steps

end AddInv

end Twd
