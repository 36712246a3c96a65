import Twd.LastWrite.LastWrite
import Twd.Packet.Packet

/-!
# What `recv_pbuffer` extracts from the control messages

Each step of the loop writes to at most one of the three fields, so each field ends up with what the
last message of its kind has left there: for the timestamp that is what the message carries, for the
other two it is where the message lies.
-/

namespace Twd

variable {clock : Clock} {r : Received}

/-! ## The loop of a receiver -/

/-- The body of the loop writes the address of the data to the TTL or the TOS, or a time to the
timestamp, as the message's kind is. -/
structure WritesByKind (r : Received) (time : Nat → Option Timespec)
    (body : Pbuffer → Nat → Pbuffer) : Prop where
  ttl : ∀ p cmsg, (body p cmsg).header.ttl =
    if isTtl r cmsg then dataPointer r cmsg else p.header.ttl
  tos : ∀ p cmsg, (body p cmsg).header.tos =
    if isTos r cmsg then dataPointer r cmsg else p.header.tos
  ts : ∀ p cmsg, (body p cmsg).ts = (time cmsg).getD p.ts

/-- The packet has what the last messages have written, and the local time where that is zero. -/
structure LastWritten (r : Received) (times : List Timespec) (gettime : Timespec) (p : Pbuffer) :
    Prop where
  ttl : p.header.ttl = ((lastMessage r (isTtl r)).map (dataPointer r)).getD 0
  tos : p.header.tos = ((lastMessage r (isTos r)).map (dataPointer r)).getD 0
  ts : p.ts = if times.getLast?.getD ⟨0, 0⟩ = ⟨0, 0⟩ then gettime else times.getLast?.getD ⟨0, 0⟩

theorem WritesByKind.lastWritten {time : Nat → Option Timespec} {body : Pbuffer → Nat → Pbuffer}
    (h : WritesByKind r time body) (gettime : Timespec) {p q : Pbuffer}
    (hq : q = (Cmsg.walk r.control r.controllen).foldl body
      { p with header := { p.header with ttl := 0, tos := 0 }, ts := ⟨0, 0⟩ }) :
    LastWritten r ((Cmsg.walk r.control r.controllen).filterMap time) gettime
      (if q.ts = ⟨0, 0⟩ then { q with ts := gettime } else q) := by
  have httl : q.header.ttl = ((lastMessage r (isTtl r)).map (dataPointer r)).getD 0 := by
    rw [hq]
    exact LastWrite.foldl_eq_of_kind (v := fun p : Pbuffer => p.header.ttl) h.ttl _ _
  have htos : q.header.tos = ((lastMessage r (isTos r)).map (dataPointer r)).getD 0 := by
    rw [hq]
    exact LastWrite.foldl_eq_of_kind (v := fun p : Pbuffer => p.header.tos) h.tos _ _
  have hts : q.ts =
      ((Cmsg.walk r.control r.controllen).filterMap time).getLast?.getD ⟨0, 0⟩ := by
    rw [hq]
    exact LastWrite.foldl_eq (v := Pbuffer.ts) h.ts _ _
  by_cases hzero : q.ts = ⟨0, 0⟩
  · rw [if_pos hzero]
    exact ⟨httl, htos, by rw [← hts, if_pos hzero]⟩
  · rw [if_neg hzero]
    exact ⟨httl, htos, by rw [← hts, if_neg hzero]⟩

/-! ## `recv_pbuffer` -/

theorem recvCmsg_writesByKind
    (hclock : ∀ t, clock.timeval2timespec t = convertTimeval2timespec t) :
    WritesByKind r (carriedTime r) (recvCmsg clock r) := by
  constructor
  · intro p cmsg
    simp only [recvCmsg, isTtl, isOfKind]
    split_ifs <;>
      simp_all [solSocket, ipprotoIp, ipprotoIpv6, ipTtl, ipTos, ipv6Hoplimit, ipv6Tclass]
  · intro p cmsg
    simp only [recvCmsg, isTos, isOfKind]
    split_ifs <;>
      simp_all [solSocket, ipprotoIp, ipprotoIpv6, ipTtl, ipTos, ipv6Hoplimit, ipv6Tclass]
  · intro p cmsg
    simp only [recvCmsg, carriedTime]
    split_ifs <;> simp_all

theorem recvPbuffer_lastWritten (clock : Clock)
    (hclock : ∀ t, clock.timeval2timespec t = convertTimeval2timespec t) (hn : 0 < r.n)
    (p : Pbuffer) (data : List UInt8) (size : Int) :
    LastWritten r (carriedTimes r) clock.gettime (recvPbuffer clock r p data size).2.1 := by
  simp only [recvPbuffer, hn, true_and, if_true]
  exact (recvCmsg_writesByKind hclock).lastWritten clock.gettime rfl

/-- A field of the header is right if what is stored, the address, happens to be. -/
theorem stored_eq_carried_iff (kind : Nat → Bool) :
    ((lastMessage r kind).map (dataPointer r)).getD 0 = carriedOctet r kind ↔
      PointerAgrees r kind := by
  unfold carriedOctet PointerAgrees
  cases lastMessage r kind with
  | none => simp
  | some cmsg => simp

/-- **What `recv_pbuffer` extracts**: the fields of the packet are those carried by the last control
messages of their kinds exactly when the addresses of two of them agree with what lies there, and
the last timestamp decides. -/
theorem recvPbuffer_extracts_iff (clock : Clock)
    (hclock : ∀ t, clock.timeval2timespec t = convertTimeval2timespec t) (r : Received)
    (hn : 0 < r.n) (p : Pbuffer) (data : List UInt8) (size : Int) :
    Extracts r clock.gettime (recvPbuffer clock r p data size).2.1 ↔
      PointerAgrees r (isTtl r) ∧ PointerAgrees r (isTos r) ∧ LastTimeCounts r clock.gettime := by
  obtain ⟨httl, htos, hts⟩ := recvPbuffer_lastWritten clock hclock hn p data size
  rw [← stored_eq_carried_iff, ← stored_eq_carried_iff, ← httl, ← htos, LastTimeCounts,
    ← LastWrite.fallback_iff hts]
  constructor
  · intro h
    exact ⟨h.ttl, h.tos, h.ts, h.gettime⟩
  · rintro ⟨h1, h2, h3, h4⟩
    exact ⟨h1, h2, h3, h4⟩

/-- A datagram of one octet and the control messages that come with it. -/
def received (addr : Nat) (msgs : List Cmsg.Message) : Received where
  n := 1
  payload := [0]
  addr := addr
  control i := (Cmsg.encodeAll msgs).getD i 0
  controllen := (Cmsg.encodeAll msgs).length

/-- A clock that is at zero. -/
def clockAtZero : Clock where
  timeval2timespec := convertTimeval2timespec
  gettime := ⟨0, 0⟩

/-- The TTL is 64, and so is the end of the address it is found at. -/
theorem recvPbuffer_extracts_aligned :
    Extracts (received 48 [⟨ipprotoIp, ipTtl, [64, 0, 0, 0]⟩]) ⟨0, 0⟩
      (recvPbuffer clockAtZero (received 48 [⟨ipprotoIp, ipTtl, [64, 0, 0, 0]⟩])
        ⟨3, ipprotoIp, ⟨0, 0⟩, ⟨0, 0⟩⟩ [] 0).2.1 :=
  (recvPbuffer_extracts_iff clockAtZero (fun _ => rfl) _ (by decide) _ _ _).mpr (by decide)

/-- At another address the same message does not give its TTL. -/
theorem recvPbuffer_not_extracts :
    ¬ ∀ r p data size, 0 < r.n →
      Extracts r ⟨0, 0⟩ (recvPbuffer clockAtZero r p data size).2.1 := by
  intro h
  have httl := (h (received 4096 [⟨ipprotoIp, ipTtl, [64, 0, 0, 0]⟩])
    ⟨3, ipprotoIp, ⟨0, 0⟩, ⟨0, 0⟩⟩ [] 0 (by decide)).ttl
  exact absurd httl (by decide)

end Twd
