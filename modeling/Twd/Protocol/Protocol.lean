import Mathlib.Data.List.Basic

/-!
# The protocol parser

Translation of `parse_packet` of `protocol.c` and of the types in `protocol.h`. Pointers are
addresses: the packet lies at `p`, and a read outside it is `none`.
-/

namespace Twd

/-- `enum TWD_protocol`. -/
inductive TwdProtocol
  | pad
  | padn
  | randn
  | nonce
  | atime
  | register
  | counterproposal
  | probe
  | probeack
  | lseen
  | cpu
  | lossrecord
  | tosrecord
  | closewait
  | close
  deriving DecidableEq, Repr

/-- The type that a byte stands for, if it is one of the `enum`. -/
def TwdProtocol.ofByte (b : UInt8) : Option TwdProtocol :=
  match b.toNat with
  | 0 => some .pad
  | 1 => some .padn
  | 2 => some .randn
  | 3 => some .nonce
  | 4 => some .atime
  | 5 => some .register
  | 6 => some .counterproposal
  | 7 => some .probe
  | 8 => some .probeack
  | 9 => some .lseen
  | 10 => some .cpu
  | 11 => some .lossrecord
  | 12 => some .tosrecord
  | 254 => some .closewait
  | 255 => some .close
  | _ => none

/-- A handler: what it returns when it is called with `o`, `b` and `size`. -/
abbrev Handler := Nat → Nat → UInt8 → Bool

/-- The body of every handler so far: `return(false)`. -/
def parseNothing : Handler := fun _ _ _ => false

def parseNonce : Handler := parseNothing
def parseAtime : Handler := parseNothing
def parseRegister : Handler := parseNothing
def parseCounterproposal : Handler := parseNothing
def parseProbe : Handler := parseNothing
def parseProbeack : Handler := parseNothing
def parseLseen : Handler := parseNothing
def parseCpu : Handler := parseNothing
def parseLossrecord : Handler := parseNothing
def parseTosrecord : Handler := parseNothing
def parseClosewait : Handler := parseNothing
def parseClose : Handler := parseNothing

/-- What `parse_packet` does that can be seen from outside. -/
inductive ParseEvent
  /-- The handler of a type is called with a pointer and a size. -/
  | call (type : TwdProtocol) (bytes : Nat) (size : UInt8)
  /-- `Error in message processing ignored` -/
  | errorIgnored
  deriving DecidableEq, Repr

/-- The variables of `parse_packet` between two rounds of its loop, and what it has done. -/
structure ParseState where
  bytes : Nat
  rc : Bool
  events : List ParseEvent
  deriving DecidableEq, Repr

section Parse

variable (o p : Nat) (packet : List UInt8)

/-- The byte at address `a`. -/
def deref (a : Nat) : Option UInt8 := if p ≤ a then packet[a - p]? else none

def doADV (b : Nat) : Option Nat := do
  let b0 ← deref p packet b
  some (b + b0.toNat)

def doIT (type : TwdProtocol) (parse : Handler) (s : ParseState) : Option ParseState := do
  let b0 ← deref p packet s.bytes
  let rc := parse o s.bytes b0
  let bytes ← doADV p packet s.bytes
  some { bytes := bytes, rc := rc, events := s.events ++ [.call type s.bytes b0] }

/-- The body of the loop of `parse_packet`. -/
def parseBody (s : ParseState) : Option ParseState := do
  let b ← deref p packet s.bytes
  let s ← match TwdProtocol.ofByte b with
    | some .pad => some { s with bytes := s.bytes + 1 }
    | some .padn | some .randn => do
      let bytes ← doADV p packet s.bytes
      some { s with bytes := bytes }
    | some .nonce => doIT o p packet .nonce parseNonce s
    | some .atime => doIT o p packet .atime parseAtime s
    | some .register => doIT o p packet .register parseRegister s
    | some .counterproposal => doIT o p packet .counterproposal parseCounterproposal s
    | some .probe => doIT o p packet .probe parseProbe s
    | some .probeack => doIT o p packet .probeack parseProbeack s
    | some .lseen => doIT o p packet .lseen parseLseen s
    | some .cpu => doIT o p packet .cpu parseCpu s
    | some .lossrecord => doIT o p packet .lossrecord parseLossrecord s
    | some .tosrecord => doIT o p packet .tosrecord parseTosrecord s
    | some .closewait => doIT o p packet .closewait parseClosewait s
    | some .close => doIT o p packet .close parseClose s
    | none => some s -- no case and no default
  if s.rc then some { s with events := s.events ++ [.errorIgnored] } else some s

/-- The loop of `parse_packet`, with a bound on its rounds. -/
def parseLoop : Nat → ParseState → Option ParseState
  | 0, _ => none
  | fuel + 1, s =>
    if s.bytes < p then do
      let s ← parseBody o p packet s
      parseLoop fuel s
    else some s

/-- The same body in a loop that runs while `bytes < stop`. -/
def parseLoopTo (stop : Nat) : Nat → ParseState → Option ParseState
  | 0, _ => none
  | fuel + 1, s =>
    if s.bytes < stop then do
      let s ← parseBody o p packet s
      parseLoopTo stop fuel s
    else some s

/-- `parse_packet`: what it has done when it returns. It does not look at `size`. -/
def parsePacket (fuel _size : Nat) : Option (List ParseEvent) := do
  let s ← parseLoop o p packet fuel { bytes := p, rc := false, events := [] }
  some s.events

end Parse

/-- A TLV of the packet format. -/
inductive Tlv
  | pad1
  | tlv (type : UInt8) (body : List UInt8) (type_ne : type ≠ 0) (length_lt : body.length < 256)

namespace Tlv

/-- The octets of a TLV. -/
def encode : Tlv → List UInt8
  | pad1 => [0]
  | tlv type body _ _ => type :: UInt8.ofNat body.length :: body

/-- The field `Length`. -/
def length : Tlv → UInt8
  | pad1 => 0
  | tlv _ body _ _ => UInt8.ofNat body.length

/-- The type whose handler has to be called for a TLV: neither padding nor unknown. -/
def handled : Tlv → Option TwdProtocol
  | pad1 => none
  | tlv type _ _ _ =>
    match TwdProtocol.ofByte type with
    | some .pad | some .padn | some .randn => none
    | t => t

end Tlv

/-- The octets of a sequence of TLVs. -/
def encodeTlvs (tlvs : List Tlv) : List UInt8 := tlvs.flatMap Tlv.encode

/-- The events that the TLVs from address `a` on ask for: one call for each that has a handler, with
a pointer into it and its length, and nothing else. -/
inductive Handles : Nat → List Tlv → List ParseEvent → Prop
  | nil (a : Nat) : Handles a [] []
  | skip {a : Nat} {t : Tlv} {ts : List Tlv} {events : List ParseEvent} :
    t.handled = none → Handles (a + t.encode.length) ts events → Handles a (t :: ts) events
  | call {a b : Nat} {t : Tlv} {type : TwdProtocol} {ts : List Tlv} {events : List ParseEvent} :
    t.handled = some type → a ≤ b → b < a + t.encode.length →
    Handles (a + t.encode.length) ts events →
    Handles a (t :: ts) (.call type b t.length :: events)

/-- How far the body moves `bytes` from an octet `b`. -/
def bodyAdvance (b : UInt8) : Nat :=
  match TwdProtocol.ofByte b with
  | some .pad => 1
  | some _ => b.toNat
  | none => 0

/-- The offsets that `bytes` has in a loop over the packet that is at offset `i`. -/
inductive ReachesOffset (packet : List UInt8) : Nat → Nat → Prop
  | here (i : Nat) : ReachesOffset packet i i
  | next {i j : Nat} {b : UInt8} : packet[i]? = some b →
    ReachesOffset packet (i + bodyAdvance b) j → ReachesOffset packet i j

/-- The octet at offset `i` is a type that has a case, and so many octets are left in the packet. -/
def FitsAt (packet : List UInt8) (i : Nat) : Prop :=
  ∃ b, packet[i]? = some b ∧ (TwdProtocol.ofByte b).isSome ∧ i + b.toNat ≤ packet.length

/-- Every handler called has been given a part of the packet. -/
def RegionsInside (p : Nat) (packet : List UInt8) (events : List ParseEvent) : Prop :=
  ∀ type b size, .call type b size ∈ events → p ≤ b ∧ b + size.toNat ≤ p + packet.length

/-- The body moves `bytes` on, within the packet, and gives handlers parts of the packet only. -/
def BodyContained (o p : Nat) (packet : List UInt8) (s : ParseState) : Prop :=
  ∃ s' new, parseBody o p packet s = some s' ∧ s.bytes < s'.bytes ∧
    s'.bytes ≤ p + packet.length ∧ s'.events = s.events ++ new ∧ RegionsInside p packet new

/-- A loop over the packet ends, exactly at its end, and gives handlers parts of the packet only. -/
def LoopContained (o p : Nat) (packet : List UInt8) : Prop :=
  ∃ fuel s', parseLoopTo o p packet (p + packet.length) fuel ⟨p, false, []⟩ = some s' ∧
    s'.bytes = p + packet.length ∧ RegionsInside p packet s'.events

/-- `parse_packet` returns and has done what the TLVs ask for. -/
def ImplementsGrammar (o p : Nat) (tlvs : List Tlv) : Prop :=
  ∃ fuel events, parsePacket o p (encodeTlvs tlvs) fuel (encodeTlvs tlvs).length = some events ∧
    Handles p tlvs events

end Twd
