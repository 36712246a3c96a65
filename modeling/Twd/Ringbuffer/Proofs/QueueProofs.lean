import Twd.Ringbuffer.Proofs.IndicesProofs

/-!
# The ring buffer is a bounded queue

Every call that runs alone keeps the correspondence between the two indices, the mirrored cells and
a queue of bytes, and returns what the queue returns.
-/

namespace Twd

/-- The ring holds the bytes `items`, the oldest first. -/
structure Holds (rbuf : Ringbuffer) (mem : Memory) (items : List UInt8) : Prop where
  size_pos : 0 < rbuf.size.toNat
  size_lt : 2 * rbuf.size.toNat < 2 ^ 64
  ridx_le : rbuf.ridx.toNat ≤ rbuf.size.toNat
  widx_eq : rbuf.widx.toNat = rbuf.ridx.toNat + items.length
  length_le : items.length ≤ rbuf.size.toNat
  cells : Mirror.load rbuf.size.toNat mem rbuf.ridx.toNat items.length = items

theorem take_min_length (items : List UInt8) (n : Nat) :
    items.take (min items.length n) = items.take n := by
  rw [Nat.min_comm, ← List.take_eq_take_min]

theorem drop_min_length (items : List UInt8) (n : Nat) :
    items.drop (min items.length n) = items.drop n := by
  rcases Nat.le_total items.length n with h | h
  · rw [Nat.min_eq_left h, List.drop_length, List.drop_of_length_le h]
  · rw [Nat.min_eq_right h]

namespace Holds

variable {rbuf : Ringbuffer} {mem : Memory} {items : List UInt8}

theorem init (size : SizeT) (mem : Memory) (hpos : 0 < size.toNat)
    (hlt : 2 * size.toNat < 2 ^ 64) : Holds (ringbufferInit size) mem [] where
  size_pos := hpos
  size_lt := hlt
  ridx_le := by simp [ringbufferInit]
  widx_eq := by simp [ringbufferInit]
  length_le := by simp
  cells := by simp

theorem indexed (h : Holds rbuf mem items) : rbuf.Indexed where
  size_lt := h.size_lt
  ridx_le := h.ridx_le
  ridx_le_widx := by rw [h.widx_eq]; exact Nat.le_add_right _ _
  widx_le := by rw [h.widx_eq]; exact Nat.add_le_add_left h.length_le _

theorem widx_sub (h : Holds rbuf mem items) :
    rbuf.widx.toNat - rbuf.ridx.toNat = items.length := by
  rw [h.widx_eq, Nat.add_sub_cancel_left]

theorem used_toNat (h : Holds rbuf mem items) : (ringbufferUsed rbuf).toNat = items.length := by
  rw [h.indexed.used_toNat, h.widx_sub]

theorem avail_toNat (h : Holds rbuf mem items) :
    (rbuf.size - ringbufferUsed rbuf).toNat = rbuf.size.toNat - items.length := by
  rw [h.indexed.free_toNat, h.widx_sub]

theorem append (h : Holds rbuf mem items) {bytes : List UInt8} {len : SizeT}
    (hlen : len.toNat = bytes.length) (hfit : items.length + bytes.length ≤ rbuf.size.toNat) :
    Holds { rbuf with widx := rbuf.widx + len }
      (Mirror.store rbuf.size.toNat mem rbuf.widx.toNat bytes) (items ++ bytes) := by
  have hw := h.widx_eq
  have hadd : (rbuf.widx + len).toNat = rbuf.widx.toNat + len.toNat :=
    (h.indexed.append (by rw [h.widx_sub, hlen]; exact hfit)).1
  refine ⟨h.size_pos, h.size_lt, h.ridx_le, ?_, by simpa using hfit, ?_⟩
  · simp only [hadd, List.length_append]
    omega
  · rw [List.length_append, hw, Mirror.load_store_append hfit, h.cells]

/-- The read index moves over `n` bytes without passing the end of the first mapping. -/
theorem advance (h : Holds rbuf mem items) {len : SizeT} (hlen : len.toNat ≤ items.length)
    (hle : (rbuf.ridx + len).toNat ≤ rbuf.size.toNat) :
    Holds { rbuf with ridx := rbuf.ridx + len } mem (items.drop len.toNat) := by
  have hw := h.widx_eq
  have hl := h.length_le
  have hadd := h.indexed.ridx_add (h.widx_sub.symm ▸ hlen)
  refine ⟨h.size_pos, h.size_lt, hle, ?_, ?_, ?_⟩
  · simp only [hadd, List.length_drop]
    omega
  · simp only [List.length_drop]
    omega
  · conv_rhs => rw [← h.cells, Mirror.drop_load hlen]
    simp only [hadd, List.length_drop]

/-- The read index passes the end of the first mapping and both indices are pulled back. -/
theorem wrap (h : Holds rbuf mem items) {len : SizeT} (hlen : len.toNat ≤ items.length)
    (hgt : rbuf.size.toNat < (rbuf.ridx + len).toNat) :
    Holds { rbuf with ridx := rbuf.ridx + len - rbuf.size, widx := rbuf.widx - rbuf.size } mem
      (items.drop len.toNat) := by
  have hw := h.widx_eq
  have hl := h.length_le
  have hadd := h.indexed.ridx_add (h.widx_sub.symm ▸ hlen)
  obtain ⟨hr', hw', hindexed⟩ := h.indexed.wrap (h.widx_sub.symm ▸ hlen) hgt
  refine ⟨h.size_pos, h.size_lt, hindexed.ridx_le, ?_, ?_, ?_⟩
  · simp only [hr', hw', List.length_drop]
    omega
  · simp only [List.length_drop]
    omega
  · conv_rhs => rw [← h.cells, Mirror.drop_load hlen]
    simp only [hr', List.length_drop]
    -- the offset before the wrap is the same cell
    refine Mirror.load_of_mod_eq _ ?_
    rw [show rbuf.ridx.toNat + len.toNat =
      (rbuf.ridx.toNat + len.toNat - rbuf.size.toNat) + rbuf.size.toNat by omega,
      Nat.add_mod_right, Nat.add_sub_cancel]

theorem afterRead (h : Holds rbuf mem items) {len : SizeT} (hlen : len.toNat ≤ items.length) :
    Holds (rbuf.afterRead len) mem (items.drop len.toNat) := by
  unfold Ringbuffer.afterRead
  split_ifs with hwrap
  · exact h.wrap hlen (BitVec.lt_def.mp hwrap)
  · exact h.advance hlen (Nat.not_lt.mp (BitVec.lt_def.not.mp hwrap))

/-- The number of bytes that a read or a peek copies, and the bytes. -/
theorem load_len (h : Holds rbuf mem items) {amount len : SizeT}
    (hlen : len = minSizeT (ringbufferUsed rbuf) amount) :
    len.toNat = min items.length amount.toNat ∧
      Mirror.load rbuf.size.toNat mem rbuf.ridx.toNat len.toNat = items.take amount.toNat := by
  have hn : len.toNat = min items.length amount.toNat := by
    rw [hlen, toNat_minSizeT, h.used_toNat]
  have hle : len.toNat ≤ items.length := hn ▸ Nat.min_le_left _ _
  exact ⟨hn, by rw [← Mirror.take_load hle, h.cells, hn, take_min_length]⟩

end Holds

variable {rbuf : Ringbuffer} {mem : Memory} {items : List UInt8}

theorem ringbufferWrite_spec (h : Holds rbuf mem items) {src : List UInt8} {amount : SizeT}
    (hpos : 0 < amount) (hsrc : amount.toNat ≤ src.length) :
    ∃ len rbuf' mem', ringbufferWrite rbuf mem src amount = some (len, rbuf', mem') ∧
      len.toNat = min (rbuf.size.toNat - items.length) amount.toNat ∧
      rbuf'.size = rbuf.size ∧ Holds rbuf' mem' (items ++ src.take len.toNat) := by
  set len := minSizeT (rbuf.size - ringbufferUsed rbuf) amount with hlen
  have hn : len.toNat = min (rbuf.size.toNat - items.length) amount.toNat := by
    rw [hlen, toNat_minSizeT, h.avail_toNat]
  have hbytes : len.toNat = (src.take len.toNat).length := by
    rw [List.length_take]
    omega
  have hfit : items.length + (src.take len.toNat).length ≤ rbuf.size.toNat := by
    have := h.length_le
    omega
  exact ⟨len, _, _, ringbufferWrite_eq h.indexed hpos hsrc hlen, hn, rfl, h.append hbytes hfit⟩

theorem ringbufferRead_spec (h : Holds rbuf mem items) {amount : SizeT} (hpos : 0 < amount)
    (tries : Nat) :
    ∃ len rbuf', ringbufferRead (tries + 1) rbuf mem amount =
        some (len, items.take amount.toNat, rbuf') ∧
      len.toNat = min items.length amount.toNat ∧
      rbuf'.size = rbuf.size ∧ Holds rbuf' mem (items.drop amount.toNat) := by
  set len := minSizeT (ringbufferUsed rbuf) amount with hlen
  obtain ⟨hn, hload⟩ := h.load_len hlen
  refine ⟨len, rbuf.afterRead len, ?_, hn, afterRead_size rbuf len, ?_⟩
  · rw [ringbufferRead_eq h.indexed hpos hlen, hload]
  · rw [← drop_min_length, ← hn]
    exact h.afterRead (hn ▸ Nat.min_le_left _ _)

theorem ringbufferPeek_spec (h : Holds rbuf mem items) {amount : SizeT} (hpos : 0 < amount) :
    ∃ len, ringbufferPeek rbuf mem amount = some (len, items.take amount.toNat) ∧
      len.toNat = min items.length amount.toNat := by
  set len := minSizeT (ringbufferUsed rbuf) amount with hlen
  obtain ⟨hn, hload⟩ := h.load_len hlen
  exact ⟨len, by rw [ringbufferPeek_eq h.indexed hpos hlen, hload], hn⟩

theorem ringbufferReset_spec (h : Holds rbuf mem items) :
    Holds (ringbufferReset rbuf).2 mem [] :=
  Holds.init rbuf.size mem h.size_pos h.size_lt

/-- The ring holds the queue, and both have returned the same so far. -/
structure Simulates {cap : Nat} (s : RingState) (t : QueueState cap) : Prop where
  holds : Holds s.rbuf s.mem t.queue.items
  size : s.rbuf.size.toNat = cap
  results : s.results = t.results

/-- Every valid call succeeds on the ring and keeps the correspondence. -/
theorem exec_simulates {cap : Nat} (tries : Nat) (s : RingState) (t : QueueState cap) (c : Call)
    (h : Simulates s t) (hc : c.Valid) :
    ∃ s', c.exec (tries + 1) s = some s' ∧ Simulates s' (c.onQueue t) := by
  obtain ⟨hh, hsize, hres⟩ := h
  cases c with
  | write src amount =>
    obtain ⟨len, rbuf', mem', hw, hn, hs', hh'⟩ := ringbufferWrite_spec hh hc.1 hc.2
    have hn' : len.toNat = min t.queue.avail amount.toNat := by
      rw [hn, hsize, BoundedQueue.avail]
    refine ⟨⟨rbuf', mem', s.results ++ [.count len.toNat]⟩, by simp [Call.exec, hw], ?_, ?_, ?_⟩
    · simpa [Call.onQueue, ← hn'] using hh'
    · exact hs' ▸ hsize
    · simp [Call.onQueue, BoundedQueue.write, hres, hn']
  | read amount =>
    obtain ⟨len, rbuf', hr, hn, hs', hh'⟩ := ringbufferRead_spec hh hc tries
    refine ⟨⟨rbuf', s.mem, s.results ++ [.bytes len.toNat (t.queue.items.take amount.toNat)]⟩,
      by simp [Call.exec, hr], ?_, hs' ▸ hsize, ?_⟩
    · simpa [Call.onQueue] using hh'
    · simp [Call.onQueue, BoundedQueue.read, BoundedQueue.peek, hres, hn, Nat.min_comm]
  | peek amount =>
    obtain ⟨len, hp, hn⟩ := ringbufferPeek_spec hh hc
    refine ⟨⟨s.rbuf, s.mem, s.results ++ [.bytes len.toNat (t.queue.items.take amount.toNat)]⟩,
      by simp [Call.exec, hp], hh, hsize, ?_⟩
    simp [Call.onQueue, BoundedQueue.peek, hres, hn, Nat.min_comm]
  | reset =>
    refine ⟨⟨(ringbufferReset s.rbuf).2, s.mem, s.results ++ [.status 0]⟩, rfl,
      ringbufferReset_spec hh, hsize, ?_⟩
    simp [Call.onQueue, hres]
  | used =>
    refine ⟨⟨s.rbuf, s.mem, s.results ++ [.count (ringbufferUsed s.rbuf).toNat]⟩, rfl, hh, hsize,
      ?_⟩
    simp [Call.onQueue, BoundedQueue.used, hres, hh.used_toNat]
  | avail =>
    have ha : (ringbufferAvail s.rbuf).toNat = s.rbuf.size.toNat - t.queue.items.length :=
      hh.avail_toNat
    refine ⟨⟨s.rbuf, s.mem, s.results ++ [.count (ringbufferAvail s.rbuf).toNat]⟩, rfl, hh, hsize,
      ?_⟩
    simp [Call.onQueue, BoundedQueue.avail, hres, ha, hsize]

/-- Every sequence of valid calls is a run of the ring, and keeps the correspondence. -/
theorem run_simulates {size : SizeT} (hpos : 0 < size.toNat) (hlt : 2 * size.toNat < 2 ^ 64)
    (mem : Memory) (tries : Nat) {calls : List Call} (hcalls : ∀ c ∈ calls, c.Valid) :
    ∃ s, Machine.run (Call.exec (tries + 1)) (RingState.init size mem) calls = some s ∧
      Simulates s (calls.foldl Call.onQueue (⟨.empty, []⟩ : QueueState size.toNat)) := by
  have h0 : Simulates (RingState.init size mem) (⟨.empty, []⟩ : QueueState size.toNat) :=
    ⟨Holds.init size mem hpos hlt, rfl, rfl⟩
  exact Machine.run_simulation (fun s t c => exec_simulates tries s t c) h0 hcalls

/-- **The ring buffer refines a bounded queue of bytes**: whatever calls follow the initialisation,
none of them leaves the mapping or loops, and all return what the queue returns. -/
theorem ringbuffer_refines_queue (size : SizeT) (hpos : 0 < size.toNat)
    (hlt : 2 * size.toNat < 2 ^ 64) (mem : Memory) (tries : Nat) (calls : List Call)
    (hcalls : ∀ c ∈ calls, c.Valid) :
    (Machine.run (fun s c => Call.exec (tries + 1) s c) (RingState.init size mem) calls).map
      RingState.results = some (queueResults size.toNat calls) := by
  obtain ⟨s', hrun, hs'⟩ := run_simulates hpos hlt mem tries hcalls
  rw [hrun, Option.map_some, hs'.results]
  rfl

/-- A ring of four bytes whose second write straddles the end of the first mapping, and whose
second read pulls both indices back. -/
theorem ringbuffer_refines_queue_straddle :
    (Machine.run (fun s c => Call.exec 1 s c) (RingState.init 4 fun _ => 0)
      [.write [1, 2, 3] 3, .read 2, .write [4, 5, 6, 7] 4, .used, .peek 3, .read 9, .avail]).map
      RingState.results = some [.count 3, .bytes 2 [1, 2], .count 3, .count 4,
        .bytes 3 [3, 4, 5], .bytes 4 [3, 4, 5, 6], .count 4] :=
  ringbuffer_refines_queue 4 (by decide) (by decide) (fun _ => 0) 0 _ (by simp [Call.Valid])

end Twd
