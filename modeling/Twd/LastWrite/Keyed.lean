import Mathlib.Data.List.Induction

/-!
# Writes with keys

Steps that each write to what their key names: steps with different keys can be taken in either
order, and of two with the same key only the second counts. Then a run of steps leaves what the last
step with each key does.
-/

namespace LastWrite

variable {σ ι κ : Type*} {f : σ → ι → σ} {key : ι → κ} {P : ι → Prop}

/-- The steps of the kind `P` write to what their key names. -/
structure Keyed (f : σ → ι → σ) (key : ι → κ) (P : ι → Prop) : Prop where
  comm : ∀ s i j, P i → P j → key i ≠ key j → f (f s i) j = f (f s j) i
  absorb : ∀ s i j, P i → P j → key i = key j → f (f s i) j = f s j

namespace Keyed

variable (h : Keyed f key P)

include h

/-- A step can be taken after those behind it that have other keys. -/
theorem foldl_comm {x : ι} (hx : P x) (is : List ι) (his : ∀ i ∈ is, P i)
    (hne : ∀ i ∈ is, key i ≠ key x) (s : σ) : is.foldl f (f s x) = f (is.foldl f s) x := by
  induction is generalizing s with
  | nil => rfl
  | cons i is ih =>
    obtain ⟨hi, his⟩ := List.forall_mem_cons.mp his
    obtain ⟨hnei, hne⟩ := List.forall_mem_cons.mp hne
    rw [List.foldl_cons, List.foldl_cons, h.comm s x i hx hi (Ne.symm hnei)]
    exact ih his hne (f s i)

section Filter

variable [DecidableEq κ]

/-- The steps with the key of the last one do not count. -/
theorem foldl_filter {x : ι} (hx : P x) (is : List ι) (his : ∀ i ∈ is, P i) (s : σ) :
    f (is.foldl f s) x = f ((is.filter fun i => key i ≠ key x).foldl f s) x := by
  induction is using List.reverseRecOn with
  | nil => rfl
  | append_singleton is i ih =>
    have hrest := ih fun j hj => his j (List.mem_append_left _ hj)
    have hi : P i := his i (by simp)
    rw [List.foldl_append, List.filter_append, List.foldl_append]
    by_cases hkey : key i = key x
    · rw [List.filter_cons_of_neg (by simpa using hkey), List.filter_nil, List.foldl_nil, ← hrest]
      exact h.absorb _ i x hi hx hkey
    · rw [List.filter_cons_of_pos (by simpa using hkey), List.filter_nil]
      calc f (f (is.foldl f s) i) x = f (f (is.foldl f s) x) i := h.comm _ i x hi hx hkey
        _ = f (f ((is.filter fun i => key i ≠ key x).foldl f s) x) i := by rw [hrest]
        _ = f (f ((is.filter fun i => key i ≠ key x).foldl f s) i) x :=
          (h.comm _ i x hi hx hkey).symm

/-- The last step with a key is taken last, and the others with the key are left out. -/
theorem foldl_last {x : ι} {js : List ι} (hjs : ∀ j ∈ js, P j)
    (hlast : (js.filter fun j => key j = key x).getLast? = some x) (s : σ) :
    js.foldl f s = f ((js.filter fun j => key j ≠ key x).foldl f s) x := by
  obtain ⟨init, hinit⟩ := List.getLast?_eq_some_iff.mp hlast
  obtain ⟨pre, post, rfl, -, hpost⟩ := List.filter_eq_append_iff.mp hinit
  obtain ⟨mid, rest, rfl, hmid, -, hrest⟩ := List.filter_eq_cons_iff.mp hpost
  have hne : ∀ j ∈ mid ++ rest, key j ≠ key x := by
    intro j hj
    rcases List.mem_append.mp hj with hj | hj
    · simpa using hmid j hj
    · simpa using List.filter_eq_nil_iff.mp hrest j hj
  have hx : P x := hjs x (by simp)
  have hpre : ∀ j ∈ pre ++ (mid ++ rest), P j := by
    intro j hj
    refine hjs j ?_
    simp only [List.mem_append, List.mem_cons] at hj ⊢
    tauto
  have hmove : (pre ++ (mid ++ x :: rest)).foldl f s = f ((pre ++ (mid ++ rest)).foldl f s) x := by
    rw [List.foldl_append, List.foldl_append, List.foldl_cons,
      h.foldl_comm hx rest (fun j hj => hjs j (by simp [hj]))
        (fun j hj => hne j (List.mem_append_right _ hj)),
      List.foldl_append, List.foldl_append]
  have hfilter : (pre ++ (mid ++ x :: rest)).filter (fun j => decide (key j ≠ key x)) =
      (pre ++ (mid ++ rest)).filter fun j => key j ≠ key x := by
    simp
  rw [hmove, h.foldl_filter hx _ hpre, hfilter]

/-- Two runs in which the last step with each key is the same end in the same state. -/
theorem foldl_eq_of_last (n : Nat) : ∀ (is js : List ι), is.length ≤ n → (∀ i ∈ is, P i) →
    (∀ j ∈ js, P j) → (∀ k, (is.filter fun i => key i = k).getLast? =
      (js.filter fun j => key j = k).getLast?) → ∀ s, is.foldl f s = js.foldl f s := by
  induction n with
  | zero =>
    intro is js hlen his hjs hlast s
    obtain rfl := List.eq_nil_of_length_eq_zero (Nat.le_zero.mp hlen)
    cases js with
    | nil => rfl
    | cons j js =>
      have hnone := hlast (key j)
      rw [List.filter_nil, List.getLast?_nil] at hnone
      have hnil := List.getLast?_eq_none_iff.mp hnone.symm
      rw [List.filter_cons_of_pos (by simp)] at hnil
      cases hnil
  | succ n ih =>
    intro is js hlen his hjs hlast s
    rcases List.eq_nil_or_concat is with rfl | ⟨is, x, hconcat⟩
    · exact ih [] js (Nat.zero_le n) his hjs hlast s
    rw [List.concat_eq_append] at hconcat
    subst hconcat
    have hislast : ((is ++ [x]).filter fun i => key i = key x).getLast? = some x := by
      rw [List.filter_append, List.filter_cons_of_pos (by simp)]
      simp
    rw [h.foldl_last his hislast, h.foldl_last hjs ((hlast (key x)).symm.trans hislast)]
    refine congrArg (fun t => f t x) (ih _ _ ?_ ?_ ?_ ?_ s)
    · rw [List.filter_append, List.filter_cons_of_neg (by simp), List.filter_nil, List.append_nil]
      rw [List.length_append, List.length_singleton] at hlen
      exact Nat.le_trans (List.length_filter_le ..) (Nat.le_of_succ_le_succ hlen)
    · exact fun i hi => his i (List.mem_filter.mp hi).1
    · exact fun j hj => hjs j (List.mem_filter.mp hj).1
    · intro k
      rw [List.filter_filter, List.filter_filter]
      by_cases hk : k = key x
      · have hnone : ∀ l : List ι,
            l.filter (fun i => decide (key i = k) && decide (key i ≠ key x)) = [] := by
          intro l
          rw [List.filter_eq_nil_iff]
          intro i _
          simp [hk]
        rw [hnone, hnone]
      · have hsame : ∀ l : List ι,
            l.filter (fun i => decide (key i = k) && decide (key i ≠ key x)) =
              l.filter fun i => key i = k := by
          intro l
          refine List.filter_congr fun i _ => ?_
          by_cases hi : key i = k
          · simp [hi, hk]
          · simp [hi]
        rw [hsame, hsame]
        exact hlast k

end Filter

end Keyed

end LastWrite
