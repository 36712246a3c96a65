import Twd.Infbuffer.Proofs.StepProofs
import Twd.Tickets.Tickets

/-!
# The rems and their slots

Every claim made through `ridx` belongs to a call that waits, that has seen `widx` past its slot, or
that has loaded it.
-/

namespace Twd

open Tickets

variable {τ α : Type*}

/-- The rems and their slots. -/
structure RemInv (s : InfThreads τ α) : Prop where
  issued : Issued s.rems Prod.snd s.buf.ridx
  waiting : ∀ t i, s.phase t = .wait i → (t, i) ∈ s.rems ∧ i ∉ s.loads.map Loaded.idx
  loading : ∀ t i, s.phase t = .load i →
    (t, i) ∈ s.rems ∧ i ∉ s.loads.map Loaded.idx ∧ i < s.buf.widx
  accounted : ∀ p ∈ s.rems, p.2 ∈ s.loads.map Loaded.idx ∨
    s.phase p.1 = .wait p.2 ∨ s.phase p.1 = .load p.2
  loads_nodup : (s.loads.map Loaded.idx).Nodup
  load_lt : ∀ l ∈ s.loads, l.idx < s.buf.widx
  loads_claimed : ∀ l ∈ s.loads, l.idx < s.buf.ridx

namespace RemInv

variable {s s' : InfThreads τ α}

theorem init (τ α : Type*) : RemInv (InfThreads.init τ α) := by
  constructor
  case issued => exact issued_nil
  all_goals simp [InfThreads.init, infbufferInit]

section Steps

variable [DecidableEq τ] {t : τ}

/-- What the rems see does not depend on the adds, as long as `widx` does not go back. -/
theorem frame (h : RemInv s) {p : Phase α} (hp : p.isRem = false)
    (ht : (s.phase t).isRem = false) (hphase : s'.phase = Function.update s.phase t p)
    (hrems : s'.rems = s.rems) (hloads : s'.loads = s.loads) (hridx : s'.buf.ridx = s.buf.ridx)
    (hwidx : s.buf.widx ≤ s'.buf.widx) : RemInv s' := by
  have hold : ∀ u q, q.isRem = true → (s'.phase u = q ↔ s.phase u = q) := by
    intro u q hq
    rcases eq_or_ne u t with rfl | hu
    · rw [hphase, Function.update_self]
      constructor <;> rintro rfl <;> simp_all
    · rw [hphase, Function.update_of_ne hu]
  constructor
  · rw [hrems, hridx]
    exact h.issued
  · intro u i hu
    rw [hrems, hloads]
    exact h.waiting u i ((hold u _ rfl).mp hu)
  · intro u i hu
    obtain ⟨hmem, hnot, hlt⟩ := h.loading u i ((hold u _ rfl).mp hu)
    rw [hrems, hloads]
    exact ⟨hmem, hnot, by omega⟩
  · intro q hq
    rw [hrems] at hq
    rw [hloads, hold _ _ rfl, hold _ _ rfl]
    exact h.accounted q hq
  · rw [hloads]
    exact h.loads_nodup
  · rw [hloads]
    exact fun l hl => lt_of_lt_of_le (h.load_lt l hl) hwidx
  · rw [hloads, hridx]
    exact h.loads_claimed

theorem claim (h : RemInv s) (ht : s.phase t = .idle) :
    RemInv { s with
      buf := { s.buf with ridx := s.buf.ridx + 1 }
      phase := Function.update s.phase t (.wait s.buf.ridx)
      rems := s.rems ++ [(t, s.buf.ridx)] } := by
  have hclaimed : s.buf.ridx ∉ s.loads.map Loaded.idx := by
    intro hi
    obtain ⟨l, hl, hli⟩ := List.mem_map.mp hi
    exact (h.loads_claimed l hl).ne hli
  constructor
  case issued => exact h.issued.draw rfl
  case waiting =>
    intro u i hu
    obtain ⟨rfl, hp⟩ | ⟨-, hu⟩ := update_phase hu
    · cases hp
      exact ⟨by simp, hclaimed⟩
    · obtain ⟨hmem, hnot⟩ := h.waiting u i hu
      exact ⟨List.mem_append_left _ hmem, hnot⟩
  case loading =>
    intro u i hu
    obtain ⟨-, hp⟩ | ⟨-, hu⟩ := update_phase hu
    · cases hp
    · obtain ⟨hmem, hrest⟩ := h.loading u i hu
      exact ⟨List.mem_append_left _ hmem, hrest⟩
  case accounted =>
    intro q hq
    rcases List.mem_append.mp hq with hold | hnew
    · rcases eq_or_ne q.1 t with rfl | hut
      · refine .inl ?_
        simpa [ht] using h.accounted q hold
      · simpa only [Function.update_of_ne hut] using h.accounted q hold
    · rw [List.mem_singleton.mp hnew]
      exact .inr (.inl (Function.update_self ..))
  case loads_nodup => exact h.loads_nodup
  case load_lt => exact h.load_lt
  case loads_claimed => exact fun l hl => Nat.lt_succ_of_lt (h.loads_claimed l hl)

theorem wait (h : RemInv s) {idx : Nat} (ht : s.phase t = .wait idx) (hlt : idx < s.buf.widx) :
    RemInv { s with phase := Function.update s.phase t (.load idx) } := by
  obtain ⟨hmem, hnot⟩ := h.waiting t idx ht
  constructor
  case issued => exact h.issued
  case waiting =>
    intro u i hu
    obtain ⟨-, hp⟩ | ⟨-, hu⟩ := update_phase hu
    · cases hp
    · exact h.waiting u i hu
  case loading =>
    intro u i hu
    obtain ⟨rfl, hp⟩ | ⟨-, hu⟩ := update_phase hu
    · cases hp
      exact ⟨hmem, hnot, hlt⟩
    · exact h.loading u i hu
  case accounted =>
    intro q hq
    rcases eq_or_ne q.1 t with rfl | hut
    · have hacc := h.accounted q hq
      rw [ht] at hacc
      simp only [Function.update_self]
      rcases hacc with hl | hw | hl
      · exact .inl hl
      · cases hw
        exact .inr (.inr rfl)
      · cases hl
    · simpa only [Function.update_of_ne hut] using h.accounted q hq
  case loads_nodup => exact h.loads_nodup
  case load_lt => exact h.load_lt
  case loads_claimed => exact h.loads_claimed

theorem load (h : RemInv s) {idx : Nat} (ht : s.phase t = .load idx) :
    RemInv { s with
      phase := Function.update s.phase t .idle
      loads := s.loads ++ [⟨t, idx, s.buf.data idx⟩] } := by
  obtain ⟨hmem, hnew, hlt⟩ := h.loading t idx ht
  have hkeep : ∀ u i, u ≠ t → (u, i) ∈ s.rems → i ∉ s.loads.map Loaded.idx →
      i ∉ (s.loads ++ [(⟨t, idx, s.buf.data idx⟩ : Loaded τ α)]).map Loaded.idx := by
    intro u i hut humem hnot hi
    rw [List.map_append, List.mem_append, List.map_singleton, List.mem_singleton] at hi
    rcases hi with hi | hi
    · exact hnot hi
    · exact hut (congrArg Prod.fst (h.issued.eq_of_num humem hmem hi))
  constructor
  case issued => exact h.issued
  case waiting =>
    intro u i hu
    obtain ⟨-, hp⟩ | ⟨hut, hu⟩ := update_phase hu
    · cases hp
    · obtain ⟨humem, hnot⟩ := h.waiting u i hu
      exact ⟨humem, hkeep u i hut humem hnot⟩
  case loading =>
    intro u i hu
    obtain ⟨-, hp⟩ | ⟨hut, hu⟩ := update_phase hu
    · cases hp
    · obtain ⟨humem, hnot, hult⟩ := h.loading u i hu
      exact ⟨humem, hkeep u i hut humem hnot, hult⟩
  case accounted =>
    intro q hq
    rcases eq_or_ne q.1 t with rfl | hut
    · have hacc := h.accounted q hq
      rw [ht] at hacc
      rcases hacc with hl | hw | hl
      · exact .inl (by rw [List.map_append]; exact List.mem_append_left _ hl)
      · cases hw
      · cases hl
        exact .inl (by simp)
    · rcases h.accounted q hq with hl | hrest
      · exact .inl (by rw [List.map_append]; exact List.mem_append_left _ hl)
      · simp only [Function.update_of_ne hut]
        exact .inr hrest
  case loads_nodup =>
    rw [List.map_append, List.map_singleton]
    exact nodup_append_singleton h.loads_nodup hnew
  case load_lt =>
    intro l hl
    rcases List.mem_append.mp hl with hl | hl
    · exact h.load_lt l hl
    · rw [List.mem_singleton.mp hl]
      exact hlt
  case loads_claimed =>
    intro l hl
    rcases List.mem_append.mp hl with hl | hl
    · exact h.loads_claimed l hl
    · rw [List.mem_singleton.mp hl]
      exact h.issued.lt hmem

end Steps

end RemInv

end Twd
