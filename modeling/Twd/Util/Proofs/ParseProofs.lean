import Mathlib.Data.List.Induction
import Mathlib.Data.List.TakeWhile
import Mathlib.Tactic.Ring
import Twd.Util.Parse

/-!
# Proofs about reading milliseconds

The digits are read modulo `2 ^ 32`, and the loops behind the point cut or fill them to three.
-/

namespace Twd.Util

open Strtol

variable {string ds fs : List UInt8}

/-! ## Digits -/

/-- What a loop over characters of a kind leaves when another kind follows. -/
theorem span_append {p : UInt8 → Bool} {xs ys : List UInt8} (hxs : ∀ c ∈ xs, p c)
    (hys : ∀ c, ys.head? = some c → p c = false) :
    (xs ++ ys).takeWhile p = xs ∧ (xs ++ ys).dropWhile p = ys := by
  rw [List.takeWhile_append_of_pos hxs, List.dropWhile_append_of_pos hxs]
  cases ys with
  | nil => exact ⟨List.append_nil _, rfl⟩
  | cons c ys =>
    have hc : ¬ p c = true := by simp [hys c rfl]
    rw [List.takeWhile_cons_of_neg hc, List.dropWhile_cons_of_neg hc]
    exact ⟨List.append_nil _, rfl⟩

theorem isBlank_of_dropWhile {s : List UInt8} (h : s.dropWhile isBlank = []) :
    ∀ c ∈ s, isBlank c := by
  intro c hc
  have hall := List.takeWhile_append_dropWhile (p := isBlank) (l := s)
  rw [h, List.append_nil] at hall
  rw [← hall] at hc
  exact List.mem_takeWhile_imp hc

end Twd.Util
