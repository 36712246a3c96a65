import Twd.Protocol.Protocol

/-!
# When the parser implements the packet format

The loop of `parse_packet` runs while `bytes < p`, and `bytes` starts at `p`: the parser returns at
once, whatever the packet.
-/

namespace Twd

variable {o p : Nat} {packet : List UInt8}

/-- The loop of `parse_packet` is the one that stops where the packet starts. -/
theorem parseLoop_eq (fuel : Nat) (s : ParseState) :
    parseLoop o p packet fuel s = parseLoopTo o p packet p fuel s := by
  induction fuel generalizing s with
  | zero => rfl
  | succ fuel ih =>
    simp only [parseLoop, parseLoopTo, ih]

theorem parseLoopTo_of_le {stop : Nat} {s : ParseState} (h : stop ≤ s.bytes) (fuel : Nat) :
    parseLoopTo o p packet stop (fuel + 1) s = some s := by
  rw [parseLoopTo, if_neg (Nat.not_lt.mpr h)]

/-- The parser does nothing. -/
theorem parsePacket_succ (o p : Nat) (packet : List UInt8) (fuel size : Nat) :
    parsePacket o p packet (fuel + 1) size = some [] := by
  rw [parsePacket, parseLoop_eq, parseLoopTo_of_le (Nat.le_refl p)]
  rfl

theorem events_eq_nil {fuel size : Nat} {events : List ParseEvent}
    (h : parsePacket o p packet fuel size = some events) : events = [] := by
  cases fuel with
  | zero => simp [parsePacket, parseLoop] at h
  | succ fuel =>
    rw [parsePacket_succ] at h
    exact (Option.some.inj h).symm

/-- The sequences that ask for nothing. -/
theorem handles_nil_iff (a : Nat) (tlvs : List Tlv) :
    Handles a tlvs [] ↔ ∀ t ∈ tlvs, t.handled = none := by
  induction tlvs generalizing a with
  | nil => exact ⟨fun _ => by simp, fun _ => .nil a⟩
  | cons t ts ih =>
    rw [List.forall_mem_cons, ← ih (a + t.encode.length)]
    constructor
    · intro h
      cases h with
      | skip ht h => exact ⟨ht, h⟩
    · rintro ⟨ht, h⟩
      exact .skip ht h

/-- **When `parse_packet` implements the packet format**: if and only if no TLV of the packet has a
handler. -/
theorem parsePacket_grammar_iff (o p : Nat) (tlvs : List Tlv) :
    ImplementsGrammar o p tlvs ↔ ∀ t ∈ tlvs, t.handled = none := by
  rw [← handles_nil_iff p tlvs]
  constructor
  · rintro ⟨fuel, events, hparse, hevents⟩
    rwa [events_eq_nil hparse] at hevents
  · intro h
    exact ⟨1, [], parsePacket_succ .., h⟩

/-- A nonce, whose handler is not called. -/
theorem parsePacket_not_grammar :
    ¬ ∀ tlvs : List Tlv, ImplementsGrammar 0 4096 tlvs := by
  intro h
  obtain ⟨fuel, events, hparse, hevents⟩ :=
    h [.tlv 3 [1, 2, 3, 4] (by decide) (by decide)]
  rw [events_eq_nil hparse, handles_nil_iff] at hevents
  exact absurd (hevents _ (List.mem_singleton_self _)) (by decide)

end Twd
