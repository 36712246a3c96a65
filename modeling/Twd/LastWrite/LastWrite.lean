import Mathlib.Data.List.Basic
import Mathlib.Data.Set.Insert

/-!
# The last write to a variable

A loop over a list each of whose steps either writes to a variable, a value that depends on the
element only, or leaves it. After the loop the variable holds what the last write left.
-/

namespace LastWrite

variable {σ ι β : Type*} {f : σ → ι → σ} {v : σ → β}

/-- The write of an element is `w i`, if it makes one. -/
theorem foldl_eq {w : ι → Option β} (h : ∀ s i, v (f s i) = (w i).getD (v s)) (is : List ι) :
    ∀ s, v (is.foldl f s) = (is.filterMap w).getLast?.getD (v s) := by
  induction is with
  | nil =>
    intro s
    rfl
  | cons i is ih =>
    intro s
    rw [List.foldl_cons, ih, h]
    cases hw : w i with
    | none => rw [List.filterMap_cons_none hw, Option.getD_none]
    | some val => rw [List.filterMap_cons_some hw, List.getLast?_cons, Option.getD_some,
        Option.getD_some]

/-- The elements that make a write are those of a kind. -/
theorem foldl_eq_of_kind {kind : ι → Bool} {val : ι → β}
    (h : ∀ s i, v (f s i) = if kind i then val i else v s) (is : List ι) (s : σ) :
    v (is.foldl f s) = ((is.filter kind).getLast?.map val).getD (v s) := by
  have hw : ∀ s i, v (f s i) = (if kind i then some (val i) else none).getD (v s) := by
    intro s i
    rw [h]
    split_ifs <;> rfl
  rw [foldl_eq hw, ← List.getLast?_map, ← List.filterMap_eq_map, List.filterMap_filter]
  rfl

/-- After the loop the value `z`, which also stands for no value, is replaced by `g`. That keeps the
last value written, and takes `g` only where no other value than `z` has been written, unless `z`
has been written last. -/
theorem fallback_iff [DecidableEq β] {vals : List β} {z g b : β}
    (hb : b = if vals.getLast?.getD z = z then g else vals.getLast?.getD z) :
    ((∃ a ∈ vals, a ≠ z) → some b = vals.getLast?) ∧ ((∀ a ∈ vals, a = z) → b = g) ↔
      (vals.getLast? = some z → (∀ a ∈ vals, a = z) ∨ g = z) := by
  cases hlast : vals.getLast? with
  | none =>
    rw [hlast, Option.getD_none, if_pos rfl] at hb
    simp [List.getLast?_eq_none_iff.mp hlast, hb]
  | some last =>
    have hmem : last ∈ vals := List.mem_of_getLast? hlast
    rw [hlast, Option.getD_some] at hb
    by_cases hz : last = z
    · rw [if_pos hz] at hb
      subst hb hz
      by_cases hall : ∀ a ∈ vals, a = last
      · constructor
        · intro _ _
          exact .inl hall
        · intro _
          refine ⟨?_, fun _ => rfl⟩
          rintro ⟨a, ha, hne⟩
          exact absurd (hall a ha) hne
      · have hsome : ∃ a ∈ vals, a ≠ last := by simpa using hall
        simp [hall, hsome]
    · rw [if_neg hz] at hb
      have hall : ¬ ∀ a ∈ vals, a = z := fun h => hz (h last hmem)
      simp [hall, hb, hz]

/-! ## Sets of indices -/

section Sets

variable {α : Type*} [DecidableEq α] {op : Set α → ι → Set α} {index : ι → α} {set : α → ι}

/-- The operation inserts its index if it is the one that sets it, and removes it otherwise. -/
theorem mem_op_eq (hset : ∀ s i, i = set (index i) → op s i = insert (index i) s)
    (hclear : ∀ s i, i ≠ set (index i) → op s i = s \ {index i}) (s : Set α) (i : ι) (b : α) :
    (b ∈ op s i) = if decide (index i = b) then i = set b else b ∈ s := by
  by_cases hi : i = set (index i)
  · rw [hset s i hi, Set.mem_insert_iff]
    by_cases hb : index i = b
    · have hset' : i = set b := hb ▸ hi
      simp [hb, ← hset']
    · simp [hb, Ne.symm hb]
  · rw [hclear s i hi, Set.mem_sdiff, Set.mem_singleton_iff]
    by_cases hb : index i = b
    · have hset' : i ≠ set b := hb ▸ hi
      simp [hb, hset']
    · simp [hb, Ne.symm hb]

/-- After operations on a set, an index is in it just if the last operation on the index has set it;
but for an index without an operation, which must not have been in the set from the start. -/
theorem mem_foldl_iff (hset : ∀ s i, i = set (index i) → op s i = insert (index i) s)
    (hclear : ∀ s i, i ≠ set (index i) → op s i = s \ {index i}) (is : List ι) (s : Set α) (b : α) :
    (b ∈ is.foldl op s ↔ (is.filter fun i => index i = b).getLast? = some (set b)) ↔
      ((∀ i ∈ is, index i ≠ b) → b ∉ s) := by
  have hfold : (b ∈ is.foldl op s) =
      (((is.filter fun i => index i = b).getLast?.map fun i => i = set b).getD (b ∈ s)) :=
    foldl_eq_of_kind (v := fun s : Set α => b ∈ s)
      (fun s i => mem_op_eq hset hclear s i b) is s
  rw [hfold]
  cases hlast : (is.filter fun i => index i = b).getLast? with
  | none =>
    have hnone : ∀ i ∈ is, index i ≠ b := by
      simpa [List.getLast?_eq_none_iff, List.filter_eq_nil_iff] using hlast
    constructor
    · intro h _ hb
      cases h.mp hb
    · intro h
      simp [h hnone]
  | some i =>
    have hmem := List.mem_filter.mp (List.mem_of_getLast? hlast)
    have hsome : ¬ ∀ i ∈ is, index i ≠ b := fun h => h i hmem.1 (by simpa using hmem.2)
    simp [hsome]

end Sets

end LastWrite
