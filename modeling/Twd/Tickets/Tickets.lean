import Mathlib.Data.List.Nodup
import Mathlib.Data.List.Range

/-!
# Numbers drawn from a counter

A counter that is read and incremented in one step hands out the numbers `0, 1, 2, …`, each of them
once. The claims made so far are a list in the order of the draws.
-/

namespace Tickets

variable {β : Type*} {claims : List β} {num : β → Nat} {n : Nat}

/-- The claims have got the numbers below `n`, in order. -/
def Issued (claims : List β) (num : β → Nat) (n : Nat) : Prop := claims.map num = List.range n

theorem issued_nil : Issued ([] : List β) num 0 := rfl

namespace Issued

/-- The next claim gets the number the counter shows. -/
theorem draw (h : Issued claims num n) {b : β} (hb : num b = n) :
    Issued (claims ++ [b]) num (n + 1) := by
  rw [Issued, List.map_append, List.map_singleton, hb, List.range_succ]
  exact congrArg (· ++ [n]) h

theorem nodup (h : Issued claims num n) : (claims.map num).Nodup := by
  rw [h]
  exact List.nodup_range

theorem eq_of_num (h : Issued claims num n) {a b : β} (ha : a ∈ claims) (hb : b ∈ claims)
    (hab : num a = num b) : a = b :=
  List.inj_on_of_nodup_map h.nodup ha hb hab

theorem lt (h : Issued claims num n) {b : β} (hb : b ∈ claims) : num b < n :=
  List.mem_range.mp (h ▸ List.mem_map_of_mem hb)

theorem exists_of_lt (h : Issued claims num n) {i : Nat} (hi : i < n) : ∃ b ∈ claims, num b = i :=
  List.mem_map.mp (h ▸ List.mem_range.mpr hi)

theorem length_eq (h : Issued claims num n) : claims.length = n := by
  have hlen := congrArg List.length h
  rwa [List.length_map, List.length_range] at hlen

theorem num_getElem (h : Issued claims num n) {i : Nat} (hi : i < claims.length) :
    num claims[i] = i := by
  have hget : (claims.map num)[i]? = some i := by
    rw [h, List.getElem?_range (h.length_eq ▸ hi)]
  simpa [hi] using hget

/-- What holds between each claim and the later ones holds between those of a smaller and of a
larger number. -/
theorem rel_of_lt (h : Issued claims num n) {R : β → β → Prop} (hR : claims.Pairwise R) {a b : β}
    (ha : a ∈ claims) (hb : b ∈ claims) (hab : num a < num b) : R a b := by
  obtain ⟨i, hi, rfl⟩ := List.getElem_of_mem ha
  obtain ⟨j, hj, rfl⟩ := List.getElem_of_mem hb
  rw [h.num_getElem hi, h.num_getElem hj] at hab
  exact List.pairwise_iff_getElem.mp hR i j hi hj hab

end Issued

end Tickets
