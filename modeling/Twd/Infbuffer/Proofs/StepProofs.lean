import Mathlib.Data.List.Nodup
import Twd.Infbuffer.Infbuffer

/-!
# What one step of a thread does

Every step of a thread is one of seven changes of the state, each of which moves that thread's phase
and no other's.
-/

namespace Twd

variable {τ α : Type*}

/-- A call of `infbuffer_add` that has not returned. -/
def Phase.isAdd : Phase α → Bool
  | .store _ _ | .publish _ _ => true
  | _ => false

/-- A call of `infbuffer_rem` that has not returned. -/
def Phase.isRem : Phase α → Bool
  | .wait _ | .load _ => true
  | _ => false

section Cases

variable [DecidableEq τ] {s s' : InfThreads τ α} {t : τ}

theorem infbufferAdd_cases {item : α} (h : infbufferAdd s t item = some s') :
    s.phase t = .idle ∧ s' = { s with
      buf := { s.buf with tidx := s.buf.tidx + 1 }
      phase := Function.update s.phase t (.store item s.buf.tidx)
      adds := s.adds ++ [⟨t, item, s.buf.tidx⟩] } := by
  unfold infbufferAdd at h
  cases hp : s.phase t with
  | idle =>
    rw [hp] at h
    exact ⟨rfl, (Option.some.inj h).symm⟩
  | _ => simp [hp] at h

theorem infbufferRem_cases (h : infbufferRem s t = some s') :
    s.phase t = .idle ∧ s' = { s with
      buf := { s.buf with ridx := s.buf.ridx + 1 }
      phase := Function.update s.phase t (.wait s.buf.ridx)
      rems := s.rems ++ [(t, s.buf.ridx)] } := by
  unfold infbufferRem at h
  cases hp : s.phase t with
  | idle =>
    rw [hp] at h
    exact ⟨rfl, (Option.some.inj h).symm⟩
  | _ => simp [hp] at h

theorem infbufferNext_cases (h : infbufferNext s t = some s') :
    (∃ item idx, s.phase t = .store item idx ∧ s' = { s with
      buf := { s.buf with data := Function.update s.buf.data idx (some item) }
      phase := Function.update s.phase t (.publish item idx)
      stores := s.stores ++ [(idx, item)] }) ∨
    (∃ item idx, s.phase t = .publish item idx ∧ s' = { s with
      buf := { s.buf with widx := s.buf.widx + 1 }
      phase := Function.update s.phase t .idle
      completed := s.completed ++ [idx] }) ∨
    (∃ idx, s.phase t = .wait idx ∧ s.buf.widx ≤ idx ∧ s' = s) ∨
    (∃ idx, s.phase t = .wait idx ∧ idx < s.buf.widx ∧
      s' = { s with phase := Function.update s.phase t (.load idx) }) ∨
    (∃ idx, s.phase t = .load idx ∧ s' = { s with
      phase := Function.update s.phase t .idle
      loads := s.loads ++ [⟨t, idx, s.buf.data idx⟩] }) := by
  unfold infbufferNext at h
  cases hp : s.phase t with
  | idle => simp [hp] at h
  | store item idx =>
    rw [hp] at h
    exact .inl ⟨item, idx, rfl, (Option.some.inj h).symm⟩
  | publish item idx =>
    rw [hp] at h
    exact .inr (.inl ⟨item, idx, rfl, (Option.some.inj h).symm⟩)
  | wait idx =>
    simp only [hp] at h
    split_ifs at h with hge
    · exact .inr (.inr (.inl ⟨idx, rfl, hge, (Option.some.inj h).symm⟩))
    · exact .inr (.inr (.inr (.inl ⟨idx, rfl, Nat.lt_of_not_le hge, (Option.some.inj h).symm⟩)))
  | load idx =>
    rw [hp] at h
    exact .inr (.inr (.inr (.inr ⟨idx, rfl, (Option.some.inj h).symm⟩)))

theorem update_phase {f : τ → Phase α} {p q : Phase α} {u : τ}
    (h : Function.update f t p u = q) : (u = t ∧ p = q) ∨ (u ≠ t ∧ f u = q) := by
  rcases eq_or_ne u t with rfl | hu
  · exact .inl ⟨rfl, by rwa [Function.update_self] at h⟩
  · exact .inr ⟨hu, by rwa [Function.update_of_ne hu] at h⟩

end Cases

theorem nodup_append_singleton {β : Type*} {l : List β} {a : β} (h : l.Nodup) (ha : a ∉ l) :
    (l ++ [a]).Nodup := by
  rw [← List.concat_eq_append]
  exact h.concat ha

end Twd
