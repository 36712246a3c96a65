import Twd.Protocol.Proofs.ProtocolProofs

/-!
# When the parser makes progress and stays in the packet

The body of the loop moves on by the type octet and not by a length. A type without a case does not
move it at all, and near the end of the packet a type can move it past the end.
-/

namespace Twd

variable {o p : Nat} {packet : List UInt8}

theorem deref_eq {i : Nat} {b : UInt8} (h : packet[i]? = some b) :
    deref p packet (p + i) = some b := by
  rw [deref, if_pos (Nat.le_add_right p i), Nat.add_sub_cancel_left, h]

/-- What the body does at an octet: it moves on by `bodyAdvance`, and the only part that it gives to
a handler is the octet's own. -/
theorem parseBody_spec {s : ParseState} {b : UInt8} (h : deref p packet s.bytes = some b) :
    ∃ s' new, parseBody o p packet s = some s' ∧ s'.bytes = s.bytes + bodyAdvance b ∧
      s'.events = s.events ++ new ∧
      ∀ type a size, .call type a size ∈ new →
        a = s.bytes ∧ size = b ∧ (TwdProtocol.ofByte b).isSome := by
  obtain ⟨bytes, rc, events⟩ := s
  simp only at h
  unfold parseBody bodyAdvance
  simp only [h, Option.bind_eq_bind, Option.bind_some]
  cases ht : TwdProtocol.ofByte b with
  | none => cases rc <;> simp
  | some t =>
    cases t with
    | pad => cases rc <;> simp
    | padn | randn => cases rc <;> simp [doADV, h]
    | _ => simp [doIT, doADV, h, parseNonce, parseAtime, parseRegister, parseCounterproposal,
        parseProbe, parseProbeack, parseLseen, parseCpu, parseLossrecord, parseTosrecord,
        parseClosewait, parseClose, parseNothing]

theorem bodyAdvance_pos {b : UInt8} (h : (TwdProtocol.ofByte b).isSome) : 0 < bodyAdvance b := by
  unfold bodyAdvance
  cases ht : TwdProtocol.ofByte b with
  | none => simp [ht] at h
  | some t =>
    have hne : t ≠ .pad → b.toNat ≠ 0 := by
      intro hpad hb
      rw [TwdProtocol.ofByte, hb] at ht
      exact hpad (Option.some.inj ht).symm
    cases t with
    | pad => exact Nat.one_pos
    | _ => exact Nat.pos_of_ne_zero (hne (by decide))

/-- For a type with a case, the body ends in the packet if so many octets are left as the type octet
says. -/
theorem bodyAdvance_le_iff {i : Nat} {b : UInt8} (hi : i < packet.length)
    (h : (TwdProtocol.ofByte b).isSome) :
    i + bodyAdvance b ≤ packet.length ↔ i + b.toNat ≤ packet.length := by
  unfold bodyAdvance
  cases ht : TwdProtocol.ofByte b with
  | none => simp [ht] at h
  | some t =>
    cases t with
    | pad =>
      have hb : b.toNat = 0 := by
        unfold TwdProtocol.ofByte at ht
        split at ht <;> simp_all
      simp only
      omega
    | _ => exact Iff.rfl

theorem bodyContained_iff {s : ParseState} {i : Nat} (hs : s.bytes = p + i)
    (hi : i < packet.length) : BodyContained o p packet s ↔ FitsAt packet i := by
  have hget : packet[i]? = some packet[i] := List.getElem?_eq_getElem hi
  obtain ⟨s', new, hbody, hbytes, hevents, hnew⟩ :=
    parseBody_spec (o := o) (hs ▸ deref_eq (p := p) hget)
  constructor
  · rintro ⟨s'', new', hbody', hlt, hle, -⟩
    obtain rfl : s' = s'' := Option.some.inj (hbody.symm.trans hbody')
    have hsome : (TwdProtocol.ofByte packet[i]).isSome := by
      rw [Option.isSome_iff_ne_none]
      intro hnone
      have hzero : bodyAdvance packet[i] = 0 := by rw [bodyAdvance, hnone]
      omega
    exact ⟨packet[i], hget, hsome, (bodyAdvance_le_iff hi hsome).mp (by omega)⟩
  · rintro ⟨b, hb, hsome, hle⟩
    obtain rfl : packet[i] = b := Option.some.inj (hget.symm.trans hb)
    have hpos := bodyAdvance_pos hsome
    have hadvance := (bodyAdvance_le_iff hi hsome).mpr hle
    refine ⟨s', new, hbody, by omega, by omega, hevents, ?_⟩
    intro type a size hcall
    obtain ⟨rfl, rfl, -⟩ := hnew type a size hcall
    omega

theorem parseLoopTo_stopped {stop fuel : Nat} {s s' : ParseState} (h : stop ≤ s.bytes)
    (hloop : parseLoopTo o p packet stop fuel s = some s') : s' = s := by
  cases fuel with
  | zero => cases hloop
  | succ fuel =>
    rw [parseLoopTo_of_le h] at hloop
    exact (Option.some.inj hloop).symm

/-- A loop that ends at the end of the packet has found only octets that fit. -/
theorem fitsAt_of_parseLoopTo {fuel : Nat} {s s' : ParseState} {i : Nat} (hs : s.bytes = p + i)
    (hloop : parseLoopTo o p packet (p + packet.length) fuel s = some s')
    (hend : s'.bytes = p + packet.length) :
    ∀ j, ReachesOffset packet i j → j < packet.length → FitsAt packet j := by
  induction fuel generalizing s i with
  | zero => cases hloop
  | succ fuel ih =>
    intro j hj hlt
    by_cases hi : i < packet.length
    · have hget : packet[i]? = some packet[i] := List.getElem?_eq_getElem hi
      obtain ⟨s1, new, hbody, hbytes, -, -⟩ :=
        parseBody_spec (o := o) (hs ▸ deref_eq (p := p) hget)
      have hguard : s.bytes < p + packet.length := by omega
      rw [parseLoopTo, if_pos hguard, hbody] at hloop
      have hs1 : s1.bytes = p + (i + bodyAdvance packet[i]) := by omega
      have hrest := ih hs1 hloop
      cases hj with
      | next hb hj =>
        obtain rfl := Option.some.inj (hget.symm.trans hb)
        exact hrest j hj hlt
      | here =>
        by_cases hsome : (TwdProtocol.ofByte packet[i]).isSome
        · refine ⟨packet[i], hget, hsome, (bodyAdvance_le_iff hi hsome).mp ?_⟩
          by_contra hgt
          have hstop := parseLoopTo_stopped (by omega) hloop
          rw [hstop] at hend
          omega
        · -- the octet does not move the cursor, so the loop is still there in the next round
          have hzero : bodyAdvance packet[i] = 0 := by
            rw [bodyAdvance, Option.not_isSome_iff_eq_none.mp hsome]
          rw [hzero] at hrest
          exact hrest i (.here i) hlt
    · cases hj with
      | here => exact absurd hlt hi
      | next hb hj =>
        rw [List.getElem?_eq_none (Nat.le_of_not_lt hi)] at hb
        cases hb

theorem RegionsInside.append {events new : List ParseEvent} (h : RegionsInside p packet events)
    (hnew : RegionsInside p packet new) : RegionsInside p packet (events ++ new) := by
  intro type b size hmem
  rcases List.mem_append.mp hmem with hmem | hmem
  · exact h type b size hmem
  · exact hnew type b size hmem

/-- As long as the octets fit, a loop of as many rounds as there are octets left comes to the end. -/
theorem parseLoopTo_of_fitsAt {fuel : Nat} {s : ParseState} {i : Nat} (hs : s.bytes = p + i)
    (hi : i ≤ packet.length) (hfuel : packet.length ≤ i + fuel)
    (hfits : ∀ j, ReachesOffset packet i j → j < packet.length → FitsAt packet j)
    (hregions : RegionsInside p packet s.events) :
    ∃ s', parseLoopTo o p packet (p + packet.length) (fuel + 1) s = some s' ∧
      s'.bytes = p + packet.length ∧ RegionsInside p packet s'.events := by
  induction fuel generalizing s i with
  | zero =>
    exact ⟨s, parseLoopTo_of_le (by omega) 0, by omega, hregions⟩
  | succ fuel ih =>
    by_cases hlt : i < packet.length
    · have hget : packet[i]? = some packet[i] := List.getElem?_eq_getElem hlt
      obtain ⟨s1, new, hbody, hmoves, hinside, hevents, hnew⟩ :=
        (bodyContained_iff (o := o) hs hlt).mpr (hfits i (.here i) hlt)
      obtain ⟨s2, new2, hbody2, hbytes, -, -⟩ :=
        parseBody_spec (o := o) (hs ▸ deref_eq (p := p) hget)
      obtain rfl : s1 = s2 := Option.some.inj (hbody.symm.trans hbody2)
      have hs1 : s1.bytes = p + (i + bodyAdvance packet[i]) := by omega
      have hnext : ∀ j, ReachesOffset packet (i + bodyAdvance packet[i]) j →
          j < packet.length → FitsAt packet j := by
        intro j hj hjlt
        exact hfits j (.next hget hj) hjlt
      obtain ⟨s', hloop, hend⟩ :=
        ih hs1 (by omega) (by omega) hnext (hevents ▸ hregions.append hnew)
      refine ⟨s', ?_, hend⟩
      rw [parseLoopTo, if_pos (by omega), hbody]
      exact hloop
    · exact ⟨s, parseLoopTo_of_le (by omega) _, by omega, hregions⟩

/-- **When the parser makes progress within the packet**: one execution of the body if and only if
the type it finds has a case and as many octets are left as the type octet says, and the loop over
the packet if and only if this is so at every offset that it reaches. -/
theorem parseBody_contained_iff (o p : Nat) (packet : List UInt8) :
    (∀ s : ParseState, ∀ i < packet.length, s.bytes = p + i →
      (BodyContained o p packet s ↔ FitsAt packet i)) ∧
    (LoopContained o p packet ↔
      ∀ i, ReachesOffset packet 0 i → i < packet.length → FitsAt packet i) := by
  constructor
  · intro s i hi hs
    exact bodyContained_iff hs hi
  · have hstart : (⟨p, false, []⟩ : ParseState).bytes = p + 0 := rfl
    constructor
    · rintro ⟨fuel, s', hloop, hend, -⟩
      exact fitsAt_of_parseLoopTo hstart hloop hend
    · intro hfits
      have hnone : RegionsInside p packet [] := by simp [RegionsInside]
      obtain ⟨s', hloop, hend, hregions⟩ := parseLoopTo_of_fitsAt (o := o) hstart (Nat.zero_le _)
        (Nat.le_add_left _ _) hfits hnone
      exact ⟨packet.length + 1, s', hloop, hend, hregions⟩

/-- A type without a case. -/
theorem parseBody_not_contained :
    ¬ ∀ (packet : List UInt8) (i : Nat), i < packet.length →
      BodyContained 0 4096 packet ⟨4096 + i, false, []⟩ := by
  intro h
  obtain ⟨b, hb, hsome, -⟩ := (bodyContained_iff rfl (by decide)).mp (h [13] 0 (by decide))
  obtain rfl : 13 = b := Option.some.inj hb
  exact absurd hsome (by decide)

end Twd
