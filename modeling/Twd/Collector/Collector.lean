import Twd.Machine.Run
import Twd.Packet.Packet
import Twd.Ringbuffer.Ringbuffer

/-!
# Collecting the results of received packets

Translation of `recv_dscp` and `send_result_to` of `test_simple.c`. `recv_dscp` takes the ring by
value: the copy has indices of its own and shares the cells. A turn of `recv_dscp` is one call of
`ringbuffer_write` with the code up to the next; between its turns the owner of the ring reads from
it.
-/

namespace Twd

/-- `per_packet_info_t` -/
structure PerPacketInfo where
  flags : BitVec 32
  ts : Timespec
  rtt : Timespec
  seqno : BitVec 32
  ttl : UInt8
  tos : UInt8
  deriving DecidableEq, Repr

/-- The bytes of a `timespec_t`. -/
def Timespec.encode (ts : Timespec) : List UInt8 :=
  LittleEndian.encode 8 ts.tvSec.toNat ++ LittleEndian.encode 8 ts.tvNsec.toNat

/-- The bytes of a `per_packet_info_t`, with the padding after `flags` and at the end. -/
def PerPacketInfo.encode (p : PerPacketInfo) : List UInt8 :=
  LittleEndian.encode 4 p.flags.toNat ++ List.replicate 4 0 ++ p.ts.encode ++ p.rtt.encode ++
    LittleEndian.encode 4 p.seqno.toNat ++ [p.ttl, p.tos] ++ List.replicate 2 0

/-- The members of the packet `l` that `recv_dscp` looks at after `recv_pbuffer`. -/
structure PacketIn where
  flags : BitVec 32
  ts : Timespec
  seqno : BitVec 32
  ttl : UInt8
  tos : UInt8
  deriving DecidableEq, Repr

/-- Where `recv_dscp` is. -/
inductive RecvDscp
  /-- In the loop of `send_result_to`. -/
  | sending
  | returned
  deriving DecidableEq, Repr

/-- `recv_dscp`, the ring of its caller and the owner of the ring. -/
structure Collect where
  /-- The ring of the caller. -/
  rbuf : Ringbuffer
  /-- The parameter of `recv_dscp`. -/
  collector : Ringbuffer
  mem : Memory
  pc : RecvDscp
  results : PerPacketInfo
  /-- The flags of the last packet, `l.flags`. -/
  flags : BitVec 32
  /-- The packets that `recv_pbuffer` still returns; after them it returns no positive count. -/
  packets : List PacketIn
  /-- How many bytes the owner has read. -/
  drained : Nat

/-- What happens next. -/
inductive CollectTurn
  | send
  | drain (amount : SizeT)
  deriving DecidableEq, Repr

/-- The head of the loop of `recv_dscp`, and its body up to the call of `send_result_to`. The member
`flags` of the results is left as it is. -/
def recvDscpLoop (s : Collect) : Collect :=
  match s.packets with
  | [] => { s with pc := .returned }
  | l :: packets => { s with
      pc := .sending
      packets := packets
      flags := l.flags
      results := { s.results with seqno := l.seqno, ttl := l.ttl, ts := l.ts, tos := l.tos } }

/-- `recv_dscp` up to its first call of `send_result_to`. -/
def recvDscp (rbuf : Ringbuffer) (mem : Memory) (packets : List PacketIn) : Collect :=
  recvDscpLoop {
    rbuf := rbuf
    collector := rbuf
    mem := mem
    pc := .sending
    results := ⟨0, ⟨0, 0⟩, ⟨0, 0⟩, 0, 0, 0⟩
    flags := 0
    packets := packets
    drained := 0 }

/-- One round of the loop of `send_result_to`, and when it ends the rest of the body of the loop of
`recv_dscp`. -/
def sendResultTo (s : Collect) : Option Collect :=
  match s.pc with
  | .returned => none
  | .sending => do
    let (count, collector, mem) ← ringbufferWrite s.collector s.mem s.results.encode 48
    let s := { s with collector := collector, mem := mem }
    if count = 0 then some s -- sched_yield()
    else if s.flags ≠ 0 then some { s with pc := .returned }
    else some (recvDscpLoop s)

/-- A read by the owner of the ring. -/
def drain (tries : Nat) (s : Collect) (amount : SizeT) : Option Collect := do
  let (count, _, rbuf) ← ringbufferRead tries s.rbuf s.mem amount
  some { s with rbuf := rbuf, drained := s.drained + count.toNat }

/-- One turn. -/
def Collect.step (tries : Nat) (s : Collect) : CollectTurn → Option Collect
  | .send => sendResultTo s
  | .drain amount => drain tries s amount

/-- The packets that `recv_dscp` takes: those up to the first with flags. -/
def takenPackets : List PacketIn → List PacketIn
  | [] => []
  | l :: packets => if l.flags ≠ 0 then [l] else l :: takenPackets packets

/-- The result that a packet stands for. -/
def PacketIn.result (l : PacketIn) : PerPacketInfo :=
  ⟨0, l.ts, ⟨0, 0⟩, l.seqno, l.ttl, l.tos⟩

/-- The bytes that a ring holds. -/
def contents (rbuf : Ringbuffer) (mem : Memory) : List UInt8 :=
  Mirror.load rbuf.size.toNat mem rbuf.ridx.toNat (ringbufferUsed rbuf).toNat

/-- `recv_dscp` can return, and whenever it has, the ring of its caller holds what it held before
and one record for each packet, less what has been read. -/
def CollectsAll (tries : Nat) (rbuf : Ringbuffer) (mem : Memory) (packets : List PacketIn) : Prop :=
  (∃ turns s, Machine.run (Collect.step tries) (recvDscp rbuf mem packets) turns = some s ∧
    s.pc = .returned) ∧
  ∀ turns s, Machine.run (Collect.step tries) (recvDscp rbuf mem packets) turns = some s →
    s.pc = .returned →
    contents s.rbuf s.mem = (contents rbuf mem ++
      (takenPackets packets).flatMap fun l => l.result.encode).drop s.drained

end Twd
