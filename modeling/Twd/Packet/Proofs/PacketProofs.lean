import Twd.Packet.Packet

/-!
# A probe packet does not survive the round trip

`send_packet` makes room for half of its control list, and hands over the buffer that the list lies
in instead of the data; `recv_pbuffer` leaves the caller's buffer and length as they are.
-/

namespace Twd

variable {nxthdr : NextOfPointer} {pkt pkt' : List UInt8} {h : IpHeader}

/-- Whatever the second message is, the list ends after 40 bytes. -/
theorem putHeader_controllen {level tosType ttlType : BitVec 32} {controllen : Nat}
    (hput : putHeader nxthdr pkt level tosType ttlType h = some (pkt', controllen)) :
    controllen = 40 := by
  simp only [putHeader, Option.bind_eq_bind, Option.bind_eq_some_iff, Option.some.injEq,
    Prod.mk.injEq] at hput
  obtain ⟨c, -, pkt1, -, c2, -, pkt2, -, -, rfl⟩ := hput
  rfl

theorem sendPacket_controllen {p p' : Pbuffer} {data : List UInt8} {size : Nat} {m : SentMessage}
    (hsend : sendPacket nxthdr pkt p h data size = some (m, p')) : m.controllen = 40 := by
  unfold sendPacket at hsend
  split_ifs at hsend with htype
  · obtain ⟨⟨pkt1, controllen⟩, hput, hsend⟩ := Option.bind_eq_some_iff.mp hsend
    cases hsend
    exact putHeader_controllen hput
  · obtain ⟨⟨pkt1, controllen⟩, hput, hsend⟩ := Option.bind_eq_some_iff.mp hsend
    cases hsend
    exact putHeader_controllen hput

theorem headerMessages_length (family : BitVec 32) (h : IpHeader) :
    (headerMessages family h).length = 2 ∧
      ∀ m ∈ headerMessages family h, m.data.length = 4 := by
  unfold headerMessages
  split_ifs <;> simp

/-- The two messages do not fit the control list that is sent. -/
theorem not_sends (nxthdr : NextOfPointer) (pkt : List UInt8) (p : Pbuffer) (h : IpHeader)
    (payload : List UInt8) : ¬ Sends nxthdr pkt p h payload := by
  rintro ⟨m, p', hsend, -, hperm⟩
  obtain ⟨hlen, hdata⟩ := headerMessages_length p.type h
  obtain ⟨a, b, hab⟩ := List.length_eq_two.mp (hperm.length_eq.trans hlen)
  have hmem : ∀ x ∈ [a, b], x.data.length = 4 := fun x hx =>
    hdata x (hperm.subset (hab ▸ hx))
  have hle := Cmsg.le_controllen_of_two hab (hmem a (by simp)) (hmem b (by simp))
  rw [sendPacket_controllen hsend] at hle
  omega

/-- The header's messages alone, as a kernel delivers them. -/
def deliverHeader (family : BitVec 32) (h : IpHeader) (payload : List UInt8) : Received where
  n := payload.length
  payload := payload
  addr := 4096
  control i := (Cmsg.encodeAll (headerMessages family h)).getD i 0
  controllen := (Cmsg.encodeAll (headerMessages family h)).length

theorem deliverHeader_delivers (family : BitVec 32) (h : IpHeader) (payload : List UInt8) :
    Delivers family h payload (deliverHeader family h payload) where
  n := rfl
  payload := rfl
  control := by
    refine ⟨headerMessages family h, ?_, rfl, Cmsg.bytesAt_getD _ 0⟩
    have hall : ∀ m ∈ headerMessages family h, isHeaderMessage m := by
      unfold headerMessages
      split_ifs <;> simp [isHeaderMessage]
    rw [List.filter_eq_self.mpr hall]

/-- The caller's `*size` stays what it was, here something else than the payload's length. -/
theorem not_receives (clock : Clock) (family : BitVec 32) (h : IpHeader) (payload : List UInt8) :
    ¬ Receives clock family h payload := by
  intro hrecv
  obtain ⟨-, hsize, -⟩ := hrecv _ (deliverHeader_delivers family h payload)
    ⟨0, family, h, ⟨0, 0⟩⟩ [] (payload.length + 1)
  omega

/-- **No probe packet survives**: whatever the packet, its header and its payload, neither half of
the round trip does what it should. -/
theorem probe_never_round_trips (nxthdr : NextOfPointer) (pkt : List UInt8) (clock : Clock)
    (p : Pbuffer) (h : IpHeader) (payload : List UInt8) :
    ¬ Sends nxthdr pkt p h payload ∧ ¬ Receives clock p.type h payload :=
  ⟨not_sends nxthdr pkt p h payload, not_receives clock p.type h payload⟩

/-- A probe with three bytes of payload for an IPv4 socket. -/
theorem probe_not_round_trip :
    ¬ ∀ (h : IpHeader) (payload : List UInt8), payload.length ≤ maxMtu →
      Sends (fun _ _ => none) (List.replicate maxMtu 0) ⟨3, ipprotoIp, h, ⟨0, 0⟩⟩ h payload ∧
        ∀ clock, Receives clock ipprotoIp h payload := by
  intro hall
  exact not_sends _ _ _ _ _ (hall ⟨8, 64⟩ [1, 2, 3] (by decide)).1

end Twd
