import Mathlib.Data.Nat.ModEq
import Twd.Ringbuffer.Proofs.QueueProofs

/-!
# When records are transferred whole

All calls use one amount. As long as it divides the ring size, the number of bytes in the ring stays
a multiple of it, and so does the space that is left.
-/

namespace Twd

/-- Writes and reads of `r` bytes. -/
def Call.UsesAmount (r : SizeT) : Call → Prop
  | .write src amount => amount = r ∧ r.toNat ≤ src.length
  | .read amount => amount = r
  | .peek _ | .reset | .used | .avail => False

/-- The count that a call returns. -/
def Result.returned : Result → Nat
  | .count n => n
  | .bytes n _ => n
  | .status _ => 0

theorem Call.UsesAmount.valid {r : SizeT} {c : Call} (hr : 0 < r) (h : c.UsesAmount r) :
    c.Valid := by
  cases c with
  | write src amount =>
    obtain ⟨rfl, hsrc⟩ := h
    exact ⟨hr, hsrc⟩
  | read amount =>
    obtain rfl : amount = r := h
    exact hr
  | _ => exact h.elim

/-- Only whole records are in the queue, and only whole records have been transferred. -/
structure WholeQueue {cap : Nat} (r : Nat) (t : QueueState cap) : Prop where
  dvd_length : r ∣ t.queue.items.length
  whole : ∀ res ∈ t.results, res.returned = 0 ∨ res.returned = r

/-- Of a multiple of `r`, either nothing is left or at least `r`. -/
theorem min_eq_zero_or {r d : Nat} (h : r ∣ d) : min d r = 0 ∨ min d r = r := by
  rcases Nat.eq_zero_or_pos d with rfl | hd
  · exact .inl (Nat.zero_min r)
  · exact .inr (Nat.min_eq_right (Nat.le_of_dvd hd h))

theorem onQueue_whole {cap : Nat} {r : SizeT} (hdvd : r.toNat ∣ cap) {t : QueueState cap} {c : Call}
    (h : WholeQueue r.toNat t) (hc : c.UsesAmount r) : WholeQueue r.toNat (c.onQueue t) := by
  obtain ⟨hlen, hwhole⟩ := h
  cases c with
  | write src amount =>
    obtain ⟨rfl, hsrc⟩ := hc
    have hn : min t.queue.avail amount.toNat = 0 ∨ min t.queue.avail amount.toNat = amount.toNat :=
      min_eq_zero_or (Nat.dvd_sub hdvd hlen)
    constructor
    · have hadded : (t.queue.write src amount.toNat).2.items.length =
          t.queue.items.length + min t.queue.avail amount.toNat := by
        rw [BoundedQueue.write_items, List.length_append, List.length_take]
        omega
      have hnew : amount.toNat ∣ min t.queue.avail amount.toNat := by
        rcases hn with hn | hn
        · rw [hn]
          exact dvd_zero _
        · rw [hn]
      exact hadded ▸ Nat.dvd_add hlen hnew
    · intro res hres
      rcases List.mem_append.mp hres with hres | hres
      · exact hwhole res hres
      · rw [List.mem_singleton.mp hres]
        exact hn
  | read amount =>
    obtain rfl : amount = r := hc
    have hn := min_eq_zero_or hlen
    constructor
    · have hleft : (t.queue.items.drop amount.toNat).length =
          t.queue.items.length - amount.toNat := List.length_drop
      exact hleft ▸ Nat.dvd_sub hlen (dvd_refl _)
    · intro res hres
      rcases List.mem_append.mp hres with hres | hres
      · exact hwhole res hres
      · have hcount : (t.queue.items.take amount.toNat).length =
            min t.queue.items.length amount.toNat := by
          rw [List.length_take, Nat.min_comm]
        rw [List.mem_singleton.mp hres]
        exact hcount ▸ hn
  | _ => exact hc.elim

/-- Writing as often as records fit leaves no room for another, and no empty ring. -/
theorem foldl_write {cap : Nat} {r : SizeT} {src : List UInt8} (hsrc : r.toNat ≤ src.length)
    (k : Nat) (hk : k * r.toNat ≤ cap) (t : QueueState cap) (ht : t.queue.items = []) :
    ((List.replicate k (.write src r)).foldl Call.onQueue t).queue.items.length = k * r.toNat := by
  induction k with
  | zero => simp [ht]
  | succ k ih =>
    rw [Nat.succ_mul] at hk
    have hfill := ih (by omega)
    rw [List.replicate_succ', List.foldl_append, List.foldl_cons, List.foldl_nil]
    set u := (List.replicate k (.write src r)).foldl Call.onQueue t with hu
    have hitems : (Call.onQueue u (.write src r)).queue.items =
        u.queue.items ++ src.take (min u.queue.avail r.toNat) := rfl
    rw [hitems, List.length_append, List.length_take, hfill, BoundedQueue.avail, hfill,
      Nat.succ_mul]
    omega

theorem count_last_write {cap : Nat} {r : SizeT} {src : List UInt8} (hsrc : r.toNat ≤ src.length)
    (hr : 0 < r.toNat) :
    queueResults cap (List.replicate (cap / r.toNat + 1) (.write src r)) =
      queueResults cap (List.replicate (cap / r.toNat) (.write src r)) ++
        [.count (cap % r.toNat)] := by
  have hfill := foldl_write hsrc (cap / r.toNat) (Nat.div_mul_le_self _ _)
    (⟨.empty, []⟩ : QueueState cap) rfl
  have hmod := Nat.mod_lt cap hr
  have hdiv := Nat.div_add_mod' cap r.toNat
  rw [queueResults, List.replicate_succ', List.foldl_append, List.foldl_cons, List.foldl_nil]
  set u := (List.replicate (cap / r.toNat) (Call.write src r)).foldl Call.onQueue
    (⟨.empty, []⟩ : QueueState cap) with hu
  have hcount : min u.queue.avail r.toNat = cap % r.toNat := by
    rw [BoundedQueue.avail, hfill]
    omega
  rw [← hcount]
  rfl

/-- **When records are transferred whole**: if the record size divides the ring size, every call
transfers nothing or a record; if it does not, some run has a write of a part of one. -/
theorem records_whole_iff (size r : SizeT) (hr : 0 < r) (hrs : r ≤ size)
    (hlt : 2 * size.toNat < 2 ^ 64) (mem : Memory) (tries : Nat) :
    (r.toNat ∣ size.toNat → ∀ calls : List Call, (∀ c ∈ calls, c.UsesAmount r) →
      ∃ s, Machine.run (Call.exec (tries + 1)) (RingState.init size mem) calls = some s ∧
        ∀ res ∈ s.results, res.returned = 0 ∨ res.returned = r.toNat) ∧
    (¬ r.toNat ∣ size.toNat → ∃ calls : List Call, (∀ c ∈ calls, c.UsesAmount r) ∧
      ∃ s, Machine.run (Call.exec (tries + 1)) (RingState.init size mem) calls = some s ∧
        ∃ n, .count n ∈ s.results ∧ 0 < n ∧ n < r.toNat) := by
  have hr' : 0 < r.toNat := BitVec.lt_def.mp hr
  have hrs' : r.toNat ≤ size.toNat := BitVec.le_def.mp hrs
  have hpos : 0 < size.toNat := by omega
  constructor
  · intro hdvd calls hcalls
    obtain ⟨s, hrun, hs⟩ :=
      run_simulates hpos hlt mem tries fun c hc => (hcalls c hc).valid hr
    have hwhole : WholeQueue r.toNat
        (calls.foldl Call.onQueue (⟨.empty, []⟩ : QueueState size.toNat)) := by
      refine List.foldlRecOn calls Call.onQueue ⟨dvd_zero _, by simp⟩ ?_
      intro t ht c hc
      exact onQueue_whole hdvd ht (hcalls c hc)
    exact ⟨s, hrun, hs.results ▸ hwhole.whole⟩
  · intro hndvd
    -- the last of these writes finds room for a part of a record
    let src := List.replicate r.toNat (0 : UInt8)
    have hsrc : r.toNat ≤ src.length := by simp [src]
    let k := size.toNat / r.toNat
    let calls := List.replicate (k + 1) (Call.write src r)
    have hcalls : ∀ c ∈ calls, c.UsesAmount r := by
      intro c hc
      rw [List.eq_of_mem_replicate hc]
      exact ⟨rfl, hsrc⟩
    obtain ⟨s, hrun, hs⟩ :=
      run_simulates hpos hlt mem tries fun c hc => (hcalls c hc).valid hr
    have hresults : s.results = queueResults size.toNat calls := hs.results
    refine ⟨calls, hcalls, s, hrun, size.toNat % r.toNat, ?_, ?_, Nat.mod_lt _ hr'⟩
    · rw [hresults, count_last_write hsrc hr']
      exact List.mem_append_right _ (List.mem_singleton_self _)
    · exact Nat.pos_of_ne_zero fun h0 => hndvd (Nat.dvd_of_mod_eq_zero h0)

/-- A page does not hold a whole number of 12-byte records. -/
theorem records_whole_iff_page : ∃ calls : List Call, (∀ c ∈ calls, c.UsesAmount 12) ∧
    ∃ s, Machine.run (Call.exec 1) (RingState.init 4096 fun _ => 0) calls = some s ∧
      ∃ n, .count n ∈ s.results ∧ 0 < n ∧ n < 12 :=
  (records_whole_iff 4096 12 (by decide) (by decide) (by decide) (fun _ => 0) 0).2 (by decide)

end Twd
