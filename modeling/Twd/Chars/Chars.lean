import Mathlib.Data.List.Basic

/-!
# Strings in a buffer

The bytes of a local array, read and written at offsets that may be computed to lie outside of it,
and the strings in it, each of which ends at a zero byte.
-/

namespace Chars

/-- A string: its bytes up to the terminating zero. -/
structure CString where
  bytes : List UInt8
  nul_free : 0 ∉ bytes

/-- `':'` -/
def colon : UInt8 := 58

/-- The byte at offset `i`; `none` outside the array. -/
def get (buf : List UInt8) (i : Int) : Option UInt8 :=
  if 0 ≤ i then buf[i.toNat]? else none

/-- The array after a write at offset `i`; `none` outside the array. -/
def put (buf : List UInt8) (i : Int) (b : UInt8) : Option (List UInt8) :=
  if 0 ≤ i ∧ i.toNat < buf.length then some (buf.set i.toNat b) else none

/-- The string that starts at offset `i`; `none` if it does not end in the array. -/
def stringAt (buf : List UInt8) (i : Int) : Option (List UInt8) :=
  if 0 ≤ i ∧ 0 ∈ buf.drop i.toNat then some ((buf.drop i.toNat).takeWhile (· ≠ 0)) else none

/-- `memrchr`: the offset of the last `c` among the first `n` bytes. -/
def memrchr (buf : List UInt8) (c : UInt8) : Nat → Option Nat
  | 0 => none
  | n + 1 => if buf[n]? = some c then some n else memrchr buf c n

section Last

variable {α : Type*} {c : α}

/-- Every list that has a `c` is split at its last one. -/
theorem exists_last {l : List α} (h : c ∈ l) : ∃ pre post, l = pre ++ c :: post ∧ c ∉ post := by
  induction l with
  | nil => simp at h
  | cons a l ih =>
    by_cases hl : c ∈ l
    · obtain ⟨pre, post, rfl, hpost⟩ := ih hl
      exact ⟨a :: pre, post, rfl, hpost⟩
    · rcases List.mem_cons.mp h with rfl | h
      · exact ⟨[], l, rfl, hl⟩
      · exact absurd h hl

theorem last_unique {pre pre' post post' : List α} (h : pre ++ c :: post = pre' ++ c :: post')
    (hpost : c ∉ post) (hpost' : c ∉ post') : pre = pre' ∧ post = post' := by
  induction pre generalizing pre' with
  | nil =>
    cases pre' with
    | nil => exact ⟨rfl, (List.cons.inj h).2⟩
    | cons a pre' =>
      have htail := (List.cons.inj h).2
      exact absurd (htail ▸ List.mem_append_right _ List.mem_cons_self) hpost
  | cons a pre ih =>
    cases pre' with
    | nil =>
      have htail := (List.cons.inj h).2
      exact absurd (htail ▸ List.mem_append_right _ List.mem_cons_self) hpost'
    | cons a' pre' =>
      obtain ⟨rfl, htail⟩ := List.cons.inj h
      obtain ⟨rfl, rfl⟩ := ih htail
      exact ⟨rfl, rfl⟩

end Last

variable {pre post rest : List UInt8} {b c : UInt8}

theorem memrchr_eq_none {buf : List UInt8} {n : Nat} (h : c ∉ buf.take n) :
    memrchr buf c n = none := by
  induction n with
  | zero => rfl
  | succ n ih =>
    have hn : buf[n]? ≠ some c := fun hget =>
      h (List.mem_take_iff_getElem.mpr (by
        obtain ⟨hlt, heq⟩ := List.getElem?_eq_some_iff.mp hget
        exact ⟨n, by omega, heq⟩))
    rw [memrchr, if_neg hn]
    exact ih fun hmem => h (List.take_subset_take_left _ (Nat.le_succ n) hmem)

theorem memrchr_append (h : c ∉ post) :
    memrchr (pre ++ c :: post ++ rest) c (pre ++ c :: post).length = some pre.length := by
  suffices hn : ∀ n ≤ post.length,
      memrchr (pre ++ c :: post ++ rest) c (pre.length + 1 + n) = some pre.length by
    rw [List.length_append, List.length_cons, show pre.length + (post.length + 1) =
      pre.length + 1 + post.length by omega]
    exact hn _ (Nat.le_refl _)
  intro n
  induction n with
  | zero =>
    intro _
    simp [memrchr]
  | succ n ih =>
    intro hn
    have hget : (pre ++ c :: post ++ rest)[pre.length + 1 + n]? = some post[n] := by
      rw [List.append_assoc, List.getElem?_append_right (by omega),
        show pre.length + 1 + n - pre.length = n + 1 by omega, List.cons_append,
        List.getElem?_cons_succ, List.getElem?_append_left (by omega),
        List.getElem?_eq_getElem (by omega)]
    have hne : (pre ++ c :: post ++ rest)[pre.length + 1 + n]? ≠ some c := by
      rw [hget]
      exact fun heq => h (Option.some.inj heq ▸ List.getElem_mem _)
    rw [← Nat.add_assoc, memrchr, if_neg hne]
    exact ih (by omega)

theorem get_append : get (pre ++ b :: post) pre.length = some b := by
  simp [get]

theorem put_append : put (pre ++ b :: post) pre.length c = some (pre ++ c :: post) := by
  simp [put]

theorem stringAt_append (pre post : List UInt8) {s : List UInt8} (h : 0 ∉ s) :
    stringAt (pre ++ (s ++ 0 :: post)) pre.length = some s := by
  have hne : ∀ a ∈ s, (!decide (a = 0)) = true := by
    intro a ha
    simpa using ne_of_mem_of_not_mem ha h
  simp [stringAt, List.takeWhile_append_of_pos hne]

end Chars
