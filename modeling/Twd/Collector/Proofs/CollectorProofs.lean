import Twd.Collector.Collector
import Twd.Ringbuffer.Proofs.QueueProofs

/-!
# When all results are collected

The records go through the copy of the ring, and the indices of the caller's ring move with the
reads of its owner only.
-/

namespace Twd

@[simp] theorem PerPacketInfo.length_encode (p : PerPacketInfo) : p.encode.length = 48 := by
  simp [PerPacketInfo.encode, Timespec.encode]

variable {rbuf : Ringbuffer} {mem : Memory} {items : List UInt8}

theorem Holds.contents_eq (h : Holds rbuf mem items) : contents rbuf mem = items := by
  rw [contents, h.used_toNat, h.cells]

theorem Holds.of_mem (h : Holds rbuf mem items) (mem' : Memory) :
    Holds rbuf mem' (Mirror.load rbuf.size.toNat mem' rbuf.ridx.toNat items.length) where
  size_pos := h.size_pos
  size_lt := h.size_lt
  ridx_le := h.ridx_le
  widx_eq := by rw [Mirror.load_length, h.widx_eq]
  length_le := by rw [Mirror.load_length]; exact h.length_le
  cells := by rw [Mirror.load_length]

@[simp] theorem recvDscpLoop_rbuf (s : Collect) : (recvDscpLoop s).rbuf = s.rbuf := by
  unfold recvDscpLoop
  split <;> rfl

@[simp] theorem recvDscpLoop_mem (s : Collect) : (recvDscpLoop s).mem = s.mem := by
  unfold recvDscpLoop
  split <;> rfl

@[simp] theorem recvDscpLoop_drained (s : Collect) : (recvDscpLoop s).drained = s.drained := by
  unfold recvDscpLoop
  split <;> rfl

/-- A turn of `recv_dscp` leaves the ring of its caller as it is. -/
theorem sendResultTo_rbuf {s s' : Collect} (hs : sendResultTo s = some s') :
    s'.rbuf = s.rbuf ∧ s'.drained = s.drained := by
  unfold sendResultTo at hs
  cases hpc : s.pc with
  | returned => simp [hpc] at hs
  | sending =>
    simp only [hpc] at hs
    obtain ⟨⟨count, collector, mem⟩, -, hs⟩ := Option.bind_eq_some_iff.mp hs
    simp only at hs
    split_ifs at hs <;> cases hs <;> simp

theorem drain_spec {s s' : Collect} {tries : Nat} {amount : SizeT}
    (h : Holds s.rbuf s.mem items) (hs : drain (tries + 1) s amount = some s') :
    ∃ n ≤ items.length, s' = { s with rbuf := s'.rbuf, drained := s.drained + n } ∧
      Holds s'.rbuf s.mem (items.drop n) := by
  by_cases hpos : 0 < amount
  · obtain ⟨len, rbuf', hread, hcount, -, hholds⟩ := ringbufferRead_spec h hpos tries
    simp only [drain, hread, Option.bind_eq_bind, Option.bind_some, Option.some.injEq] at hs
    subst hs
    refine ⟨len.toNat, by omega, rfl, ?_⟩
    rwa [hcount, drop_min_length]
  · have h0 : amount = 0#64 := by
      by_contra hne
      exact hpos ((BitVec.pos_iff_ne_zero amount).mpr hne)
    simp [drain, ringbufferRead, h0] at hs

/-- The ring of the caller holds `n` bytes less those that have been read. -/
def Drained (n : Nat) (s : Collect) : Prop :=
  ∃ items, Holds s.rbuf s.mem items ∧ items.length + s.drained = n

theorem step_drained (n tries : Nat) (s : Collect) (t : CollectTurn) (s' : Collect)
    (h : Drained n s) (hs : Collect.step (tries + 1) s t = some s') : Drained n s' := by
  obtain ⟨items, hholds, hn⟩ := h
  cases t with
  | send =>
    obtain ⟨hrbuf, hdrained⟩ := sendResultTo_rbuf hs
    refine ⟨_, hrbuf ▸ hholds.of_mem s'.mem, ?_⟩
    rwa [Mirror.load_length, hdrained]
  | drain amount =>
    obtain ⟨k, hk, hs', hholds'⟩ := drain_spec hholds hs
    rw [hs']
    refine ⟨_, hholds', ?_⟩
    simp only [List.length_drop]
    omega

/-- Without packets there are only reads. -/
def OnlyDrained (mem : Memory) (items : List UInt8) (s : Collect) : Prop :=
  s.pc = .returned ∧ s.mem = mem ∧ s.drained ≤ items.length ∧
    Holds s.rbuf mem (items.drop s.drained)

theorem step_onlyDrained (tries : Nat) (s : Collect) (t : CollectTurn) (s' : Collect)
    (h : OnlyDrained mem items s) (hs : Collect.step (tries + 1) s t = some s') :
    OnlyDrained mem items s' := by
  obtain ⟨hpc, rfl, hle, hholds⟩ := h
  cases t with
  | send => simp [Collect.step, sendResultTo, hpc] at hs
  | drain amount =>
    obtain ⟨k, hk, hs', hholds'⟩ := drain_spec hholds hs
    rw [hs']
    rw [List.length_drop] at hk
    refine ⟨hpc, rfl, ?_, ?_⟩
    · simp only
      omega
    · simpa only [List.drop_drop] using hholds'

theorem takenPackets_ne_nil {packets : List PacketIn} (h : packets ≠ []) :
    takenPackets packets ≠ [] := by
  cases packets with
  | nil => exact absurd rfl h
  | cons l packets =>
    rw [takenPackets]
    split_ifs <;> simp

theorem length_flatMap_encode (packets : List PacketIn) :
    (packets.flatMap fun l => l.result.encode).length = 48 * packets.length := by
  induction packets with
  | nil => rfl
  | cons l packets ih =>
    rw [List.flatMap_cons, List.length_append, PerPacketInfo.length_encode, ih, List.length_cons]
    ring

/-- **When all results are collected**: whatever the ring holds at the start and however its owner
reads, if and only if no packet is received. -/
theorem recvDscp_collects_iff (h : Holds rbuf mem items) (tries : Nat) (packets : List PacketIn) :
    CollectsAll (tries + 1) rbuf mem packets ↔ packets = [] := by
  constructor
  · rintro ⟨⟨turns, s, hs, hpc⟩, hall⟩
    by_contra hne
    have h0 : Drained items.length (recvDscp rbuf mem packets) := by
      refine ⟨items, ?_, by simp [recvDscp]⟩
      simpa [recvDscp] using h
    obtain ⟨items', hholds, hn⟩ := Machine.run_invariant (step_drained items.length tries) h0 hs
    have hlen := congrArg List.length (hall turns s hs hpc)
    have hpos : 0 < (takenPackets packets).length := List.length_pos_iff.mpr (takenPackets_ne_nil hne)
    rw [hholds.contents_eq, h.contents_eq, List.length_drop, List.length_append,
      length_flatMap_encode] at hlen
    omega
  · rintro rfl
    have h0 : OnlyDrained mem items (recvDscp rbuf mem []) := ⟨rfl, rfl, Nat.zero_le _, h⟩
    refine ⟨⟨[], _, rfl, rfl⟩, ?_⟩
    intro turns s hs _
    obtain ⟨-, hmem, -, hholds⟩ := Machine.run_invariant (step_onlyDrained tries) h0 hs
    rw [hmem, hholds.contents_eq, h.contents_eq]
    simp [takenPackets]

/-- A packet that is the last, and an empty ring. -/
def lastPacket : PacketIn := ⟨1, ⟨10, 20⟩, 7, 64, 8⟩

theorem recvDscp_collects_iff_last :
    CollectsAll 1 (ringbufferInit 4096) (fun _ => 0) [lastPacket] ↔ [lastPacket] = [] :=
  recvDscp_collects_iff (Holds.init 4096 _ (by decide) (by decide)) 0 [lastPacket]

/-- Its result does not reach the ring of the caller. -/
theorem recvDscp_not_collects :
    ¬ ∀ packets, CollectsAll 1 (ringbufferInit 4096) (fun _ => 0) packets := by
  intro h
  have hall := (h [lastPacket]).2 [.send] _ rfl (by decide +kernel)
  have hlen := congrArg List.length hall
  revert hlen
  decide +kernel

end Twd
