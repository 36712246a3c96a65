import Mathlib.Data.Fintype.Basic
import Twd.Infbuffer.Proofs.DeliveryProofs
import Twd.Infbuffer.Proofs.OrderProofs

/-!
# The array as a queue

When the adds do not overlap, as when one thread makes them all, the array is a queue that any
number of threads read from.
-/

namespace Twd

open Tickets

variable {τ α : Type*}

/-- An add starts when no other one is under way. -/
def AddsAlone (s : InfThreads τ α) : InfAction τ α → Prop
  | .add _ _ => ∀ u, (s.phase u).isAdd = false
  | .rem _ | .step _ => True

instance [Fintype τ] (s : InfThreads τ α) : (a : InfAction τ α) → Decidable (AddsAlone s a)
  | .add _ _ => inferInstanceAs (Decidable (∀ u, (s.phase u).isAdd = false))
  | .rem _ | .step _ => isTrue trivial

/-- What a queue with several readers does. -/
structure Fifo [DecidableEq τ] (s : InfThreads τ α) : Prop where
  /-- A rem returns the item whose number it has drawn. -/
  values : ∀ l ∈ s.loads, l.idx < s.adds.length ∧ l.value = (s.adds.map Added.item)[l.idx]?
  /-- Each thread gets its items in the order in which they were added. -/
  ordered : ∀ t, ((s.loads.filter (·.thread = t)).map Loaded.value).Sublist
    ((s.adds.map Added.item).map some)
  /-- When no rem is under way, the items that have been drawn have been returned, each once. -/
  drawn : (∀ t, (s.phase t).isRem = false) →
    (s.loads.map Loaded.value).Perm (((s.adds.map Added.item).take s.buf.ridx).map some)

theorem getElem?_sublist {β : Type*} (l : List β) {is : List Nat} (hsorted : is.Pairwise (· < ·))
    (hlt : ∀ i ∈ is, i < l.length) : (is.map (l[·]?)).Sublist (l.map some) := by
  obtain ⟨js, rfl⟩ : ∃ js : List (Fin l.length), js.map Fin.val = is :=
    ⟨is.pmap Fin.mk hlt, by simp [List.map_pmap]⟩
  rw [List.pairwise_map] at hsorted
  have hsub : (js.map (l[·])).Sublist l := List.map_getElem_sublist hsorted
  have hmap : (js.map Fin.val).map (l[·]?) = (js.map (l[·])).map some := by
    simp
  rw [hmap]
  exact hsub.map some

theorem map_getElem?_range {β : Type*} (l : List β) {n : Nat} (hn : n ≤ l.length) :
    (List.range n).map (l[·]?) = (l.take n).map some := by
  apply List.ext_getElem (by simp [hn])
  intro i h1 h2
  simp only [List.length_map, List.length_range] at h1
  have hi : i < l.length := by omega
  simp [hi]

/-- The state of a run whose adds do not overlap. -/
structure AloneInv (s : InfThreads τ α) : Prop where
  delivery : DeliveryInv s
  alone : ∀ t u, (s.phase t).isAdd = true → (s.phase u).isAdd = true → t = u

theorem AloneInv.publishesFilled {s : InfThreads τ α} (h : AloneInv s) (a : InfAction τ α) :
    PublishesFilled s a := by
  cases a with
  | step t =>
    intro hpublish
    refine publishesFilled_of_alone h.delivery.inv (fun u hu => ?_) hpublish
    have ht : (s.phase t).isAdd = true := by
      cases hp : s.phase t <;> simp [hp, Phase.isPublish, Phase.isAdd] at hpublish ⊢
    by_contra hne
    exact hu (h.alone u t (by simpa using hne) ht)
  | add t item | rem t => trivial

/-- The number of a load is below that of the adds, and its value is that add's item. -/
theorem AloneInv.value_eq {s : InfThreads τ α} (h : AloneInv s) {l : Loaded τ α}
    (hl : l ∈ s.loads) :
    l.idx < s.adds.length ∧ l.value = (s.adds.map Added.item)[l.idx]? := by
  obtain ⟨e, he, hidx, hvalue⟩ := h.delivery.delivered l hl
  have hissued := h.delivery.inv.add.issued
  obtain ⟨i, hi, rfl⟩ := List.getElem_of_mem he
  rw [hissued.num_getElem hi] at hidx
  subst hidx
  exact ⟨hi, by simp [hvalue, hi]⟩

theorem AloneInv.map_value {s : InfThreads τ α} (h : AloneInv s) {ls : List (Loaded τ α)}
    (hls : ls ⊆ s.loads) :
    ls.map Loaded.value = (ls.map Loaded.idx).map ((s.adds.map Added.item)[·]?) := by
  rw [List.map_map]
  exact List.map_congr_left fun l hl => (h.value_eq (hls hl)).2

/-- Without a rem under way, the slots drawn are the slots loaded. -/
theorem RemInv.loads_perm {s : InfThreads τ α} (h : RemInv s)
    (hnone : ∀ t, (s.phase t).isRem = false) :
    (s.loads.map Loaded.idx).Perm (List.range s.buf.ridx) := by
  refine (List.perm_ext_iff_of_nodup h.loads_nodup List.nodup_range).mpr fun i => ?_
  rw [List.mem_range]
  constructor
  · intro hi
    obtain ⟨l, hl, rfl⟩ := List.mem_map.mp hi
    exact h.loads_claimed l hl
  · intro hi
    obtain ⟨q, hq, rfl⟩ := h.issued.exists_of_lt hi
    rcases h.accounted q hq with hloaded | hwait | hload
    · exact hloaded
    · exact absurd (hnone q.1) (by simp [hwait, Phase.isRem])
    · exact absurd (hnone q.1) (by simp [hload, Phase.isRem])

section Steps

variable [DecidableEq τ]

/-- A step that starts no add. -/
theorem alone_update {f : τ → Phase α} (h : ∀ t u, (f t).isAdd = true → (f u).isAdd = true → t = u)
    {t : τ} {p : Phase α} (hp : p.isAdd = true → (f t).isAdd = true) (u v : τ)
    (hu : (Function.update f t p u).isAdd = true) (hv : (Function.update f t p v).isAdd = true) :
    u = v := by
  have hold : ∀ w, (Function.update f t p w).isAdd = true → (f w).isAdd = true := by
    intro w hw
    rcases eq_or_ne w t with rfl | hne
    · rw [Function.update_self] at hw
      exact hp hw
    · rwa [Function.update_of_ne hne] at hw
  exact h u v (hold u hu) (hold v hv)

theorem infStep_alone (s : InfThreads τ α) (a : InfAction τ α) (s' : InfThreads τ α)
    (h : AloneInv s) (hok : AddsAlone s a) (hs : s.step a = some s') : AloneInv s' := by
  refine ⟨infStep_delivery s a s' h.delivery (h.publishesFilled a) hs, ?_⟩
  cases a with
  | add t item =>
    obtain ⟨-, rfl⟩ := infbufferAdd_cases hs
    have honly : ∀ w, (Function.update s.phase t (.store item s.buf.tidx) w).isAdd = true →
        w = t := by
      intro w hw
      by_contra hne
      rw [Function.update_of_ne hne, hok w] at hw
      cases hw
    intro u v hu hv
    rw [honly u hu, honly v hv]
  | rem t =>
    obtain ⟨-, rfl⟩ := infbufferRem_cases hs
    exact alone_update h.alone (by simp [Phase.isAdd])
  | step t =>
    obtain ⟨item, idx, ht, rfl⟩ | ⟨item, idx, -, rfl⟩ | ⟨idx, -, -, rfl⟩ | ⟨idx, -, -, rfl⟩ |
      ⟨idx, -, rfl⟩ := infbufferNext_cases hs
    · exact alone_update h.alone (by simp [ht, Phase.isAdd])
    · exact alone_update h.alone (by simp [Phase.isAdd])
    · exact h.alone
    · exact alone_update h.alone (by simp [Phase.isAdd])
    · exact alone_update h.alone (by simp [Phase.isAdd])

theorem AloneInv.fifo {s : InfThreads τ α} (h : AloneInv s) (hord : LoadOrder s) : Fifo s := by
  refine ⟨fun l hl => h.value_eq hl, fun t => ?_, fun hnone => ?_⟩
  · rw [h.map_value (List.filter_sublist).subset]
    refine getElem?_sublist _ ?_ ?_
    · rw [List.pairwise_map]
      refine (hord.sorted.filter _).imp_of_mem ?_
      intro l m hl hm hlt
      have hlt' := (List.mem_filter.mp hl).2
      have hmt := (List.mem_filter.mp hm).2
      exact hlt ((of_decide_eq_true hlt').trans (of_decide_eq_true hmt).symm)
    · intro i hi
      obtain ⟨l, hl, rfl⟩ := List.mem_map.mp hi
      rw [List.length_map]
      exact (h.value_eq (List.mem_of_mem_filter hl)).1
  · have hrem := h.delivery.inv.rem
    have hperm := (hrem.loads_perm hnone).map ((s.adds.map Added.item)[·]?)
    have hlen : s.buf.ridx ≤ (s.adds.map Added.item).length := by
      rw [List.length_map]
      by_contra hlt
      have hmem : s.adds.length ∈ s.loads.map Loaded.idx :=
        (hrem.loads_perm hnone).mem_iff.mpr (List.mem_range.mpr (by omega))
      obtain ⟨l, hl, hli⟩ := List.mem_map.mp hmem
      exact absurd (h.value_eq hl).1 (by omega)
    rwa [← h.map_value (List.Subset.refl _), map_getElem?_range _ hlen] at hperm

/-- **The array is a queue** in every run whose adds do not overlap, however many threads read from
it: a rem returns the item whose number it has drawn, each thread gets its items in order, and
none is returned twice or passed over. -/
theorem infbuffer_fifo (as : List (InfAction τ α)) (s : InfThreads τ α)
    (halone : Machine.Meets InfThreads.step AddsAlone (InfThreads.init τ α) as)
    (hs : Machine.run InfThreads.step (InfThreads.init τ α) as = some s) : Fifo s := by
  have h0 : AloneInv (InfThreads.init τ α) :=
    ⟨⟨InfInv.init τ α, by simp [InfThreads.init, infbufferInit],
      by simp [Delivered, InfThreads.init]⟩, by simp [InfThreads.init, Phase.isAdd]⟩
  exact (Machine.run_invariant_of_meets infStep_alone h0 halone hs).fifo (run_loadOrder hs)

end Steps

/-- Two writers that do not overlap, and two readers that do. -/
def takeTurns : List (InfAction (Fin 4) Char) :=
  [.add 0 'a', .rem 2, .step 0, .step 0, .add 1 'b', .rem 3, .step 2, .step 1, .step 1, .step 3,
    .step 3, .step 2]

theorem infbuffer_fifo_takeTurns :
    ∃ s, Machine.run InfThreads.step (InfThreads.init (Fin 4) Char) takeTurns = some s ∧
      s.loads.map Loaded.value = [some 'b', some 'a'] ∧ Fifo s := by
  refine ⟨_, rfl, by decide, infbuffer_fifo takeTurns _ (by decide +kernel) rfl⟩

end Twd
