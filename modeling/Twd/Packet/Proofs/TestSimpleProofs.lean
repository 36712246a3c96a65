import Twd.Packet.Proofs.ExtractProofs
import Twd.Packet.TestSimple

/-!
# When the two receivers agree

Both leave in the packet what the last message of each kind has left, but the timestamps are of
another kind for each.
-/

namespace Twd

variable {conv : Timeval → Option Timespec} {r : Received}

namespace TestSimple

theorem recvCmsg_writesByKind : WritesByKind r (storedTime conv r) (recvCmsg conv r) := by
  constructor
  · intro p cmsg
    simp only [recvCmsg, isTtl, isOfKind]
    split_ifs <;> simp_all [ipprotoIp, ipprotoIpv6, ipTtl, ipTos, ipv6Hoplimit, ipv6Tclass]
  · intro p cmsg
    simp only [recvCmsg, isTos, isOfKind]
    split_ifs <;> simp_all [ipprotoIp, ipprotoIpv6, ipTtl, ipTos, ipv6Hoplimit, ipv6Tclass]
  · intro p cmsg
    simp only [recvCmsg, storedTime]
    split_ifs <;> simp_all [ipprotoIp, ipprotoIpv6, ipTtl, ipTos, ipv6Hoplimit, ipv6Tclass,
      soTimestamp, soTimestampns]

theorem recvPbuffer_lastWritten (r : Received) (hn : 0 < r.n) (gettime : Timespec) (p : Pbuffer) :
    LastWritten r (storedTimes conv r) gettime (recvPbuffer conv gettime r p) := by
  simp only [recvPbuffer, hn, if_true]
  exact recvCmsg_writesByKind.lastWritten gettime rfl

end TestSimple

/-! ## The local time -/

/-- A receiver takes the local time if zero has been written last, or nothing. -/
theorem LastWritten.fallsBack_iff {times : List Timespec} {recv : Timespec → Pbuffer}
    (h : ∀ gettime, LastWritten r times gettime (recv gettime)) :
    FallsBack recv ↔ times.getLast?.getD ⟨0, 0⟩ = ⟨0, 0⟩ := by
  constructor
  · intro hback
    by_contra hne
    have hts := (h ⟨0, 0⟩).ts
    rw [if_neg hne, hback] at hts
    exact hne hts.symm
  · intro hzero gettime
    rw [(h gettime).ts, if_pos hzero]

/-- Two receivers leave the same time, whatever the local time, if the same has been written
last. -/
theorem LastWritten.ts_eq_iff {r' : Received} {times times' : List Timespec}
    {recv recv' : Timespec → Pbuffer} (h : ∀ gettime, LastWritten r times gettime (recv gettime))
    (h' : ∀ gettime, LastWritten r' times' gettime (recv' gettime)) :
    (∀ gettime, (recv gettime).ts = (recv' gettime).ts) ↔
      times.getLast?.getD ⟨0, 0⟩ = times'.getLast?.getD ⟨0, 0⟩ := by
  constructor
  · intro hts
    have hback : FallsBack recv ↔ FallsBack recv' := by simp only [FallsBack, hts]
    rw [fallsBack_iff h, fallsBack_iff h'] at hback
    by_cases hzero : times.getLast?.getD ⟨0, 0⟩ = ⟨0, 0⟩
    · rw [hzero, hback.mp hzero]
    · have heq := hts ⟨0, 0⟩
      rwa [(h _).ts, (h' _).ts, if_neg hzero, if_neg (mt hback.mpr hzero)] at heq
  · intro heq gettime
    rw [(h gettime).ts, (h' gettime).ts, heq]

/-! ## The addresses -/

/-- The two addresses of a message end alike if those of the buffers do. -/
theorem dataPointer_eq_iff (addr' cmsg : Nat) :
    dataPointer r cmsg = dataPointer { r with addr := addr' } cmsg ↔
      r.addr % 256 = addr' % 256 := by
  simp only [dataPointer, ← UInt8.toNat_inj, UInt8.toNat_ofNat']
  omega

theorem stored_eq_iff (addr' : Nat) (kind : Nat → Bool) :
    ((lastMessage r kind).map (dataPointer r)).getD 0 =
        ((lastMessage r kind).map (dataPointer { r with addr := addr' })).getD 0 ↔
      lastMessage r kind = none ∨ r.addr % 256 = addr' % 256 := by
  cases lastMessage r kind with
  | none => simp
  | some cmsg => simp [dataPointer_eq_iff]

/-- **When the receivers agree**: `recv_pbuffer` of `packet.c` and that of `test_simple.c`, given the
same control messages in two buffers, agree exactly when the addresses do, as far as these are
stored, and when the timestamps of the socket level are matched by those of the IP levels. -/
theorem receivers_agree_iff (clock : Clock)
    (hclock : ∀ t, clock.timeval2timespec t = convertTimeval2timespec t)
    (conv : Timeval → Option Timespec) (r : Received) (hn : 0 < r.n) (addr' : Nat) (p p' : Pbuffer)
    (data : List UInt8) (size : Int) :
    ReceiversAgree r
        (fun gettime => (recvPbuffer { clock with gettime := gettime } r p data size).2.1)
        (fun gettime => TestSimple.recvPbuffer conv gettime { r with addr := addr' } p') ↔
      AddressesAgree r addr' ∧ TimesAgree conv r := by
  have h : ∀ gettime, LastWritten r (carriedTimes r) gettime
      (recvPbuffer { clock with gettime := gettime } r p data size).2.1 := by
    intro gettime
    exact recvPbuffer_lastWritten { clock with gettime := gettime } hclock hn p data size
  have h' : ∀ gettime, LastWritten { r with addr := addr' } (TestSimple.storedTimes conv r) gettime
      (TestSimple.recvPbuffer conv gettime { r with addr := addr' } p') := by
    intro gettime
    exact TestSimple.recvPbuffer_lastWritten { r with addr := addr' } hn gettime p'
  have httl := fun gettime => (Eq.congr (h gettime).ttl (h' gettime).ttl).trans
    (stored_eq_iff addr' (isTtl r))
  have htos := fun gettime => (Eq.congr (h gettime).tos (h' gettime).tos).trans
    (stored_eq_iff addr' (isTos r))
  have hts := LastWritten.ts_eq_iff h h'
  have hback := LastWritten.fallsBack_iff h
  have hback' := LastWritten.fallsBack_iff h'
  constructor
  · intro hagree
    refine ⟨?_, ?_, hts.mp hagree.ts⟩
    · rcases (httl ⟨0, 0⟩).mp (hagree.ttl ⟨0, 0⟩) with hnone | haddr
      · rcases (htos ⟨0, 0⟩).mp (hagree.tos ⟨0, 0⟩) with hnone' | haddr
        · exact .inl ⟨hnone, hnone'⟩
        · exact .inr haddr
      · exact .inr haddr
    · intro hlast
      have hne : carriedTimes r ≠ [] := List.ne_nil_of_mem (List.mem_of_getLast? hlast)
      exact (hagree.kept hne).1 (hback.mpr (by rw [hlast, Option.getD_some]))
  · rintro ⟨haddr, hlast, htimes⟩
    constructor
    case ttl => exact fun gettime => (httl gettime).mpr (haddr.imp_left And.left)
    case tos => exact fun gettime => (htos gettime).mpr (haddr.imp_left And.right)
    case ts => exact hts.mpr htimes
    case fallsBack => rw [hback, hback', htimes]
    case kept =>
      intro hne
      -- what has been written last is a timestamp that is not zero
      have hnonzero : (carriedTimes r).getLast?.getD ⟨0, 0⟩ ≠ ⟨0, 0⟩ := by
        rw [List.getLast?_eq_some_getLast hne] at hlast ⊢
        exact fun hzero => hlast (congrArg some hzero)
      exact ⟨mt hback.mp hnonzero, mt hback'.mp (htimes ▸ hnonzero)⟩

/-- Without a timestamp and with one message for the TTL, the receivers agree if their buffers lie
4096 bytes apart. -/
theorem receivers_agree_unstamped :
    ReceiversAgree (received 4096 [⟨ipprotoIp, ipTtl, [64, 0, 0, 0]⟩])
      (fun gettime => (recvPbuffer { clockAtZero with gettime := gettime }
        (received 4096 [⟨ipprotoIp, ipTtl, [64, 0, 0, 0]⟩]) ⟨3, ipprotoIp, ⟨0, 0⟩, ⟨0, 0⟩⟩ [] 0).2.1)
      (fun gettime => TestSimple.recvPbuffer (fun _ => none) gettime
        { received 4096 [⟨ipprotoIp, ipTtl, [64, 0, 0, 0]⟩] with addr := 8192 }
        ⟨3, ipprotoIp, ⟨0, 0⟩, ⟨0, 0⟩⟩) :=
  (receivers_agree_iff clockAtZero (fun _ => rfl) _ _ (by decide) 8192 _ _ _ _).mpr (by decide)

/-- A timestamp in nanoseconds as the kernel delivers it: the receiver of `test_simple.c` takes the
local time. -/
theorem receivers_not_agree :
    ¬ ∀ (r : Received) (p : Pbuffer), 0 < r.n →
      ReceiversAgree r
        (fun gettime => (recvPbuffer { clockAtZero with gettime := gettime } r p [] 0).2.1)
        (fun gettime => TestSimple.recvPbuffer (fun _ => none) gettime r p) := by
  intro h
  have hts := (h (received 4096 [⟨solSocket, soTimestampns,
    LittleEndian.encode 8 5 ++ LittleEndian.encode 8 7⟩]) ⟨3, ipprotoIp, ⟨0, 0⟩, ⟨0, 0⟩⟩
    (by decide)).ts ⟨9, 9⟩
  exact absurd hts (by decide)

end Twd
