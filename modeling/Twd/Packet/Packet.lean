import Twd.Cmsg.Cmsg

/-!
# Sending and receiving probe packets

Translation of `packet.c`: `send_packet` hands a message and its control list to `sendmsg`,
`recv_pbuffer` takes what `recvmsg` leaves and fills in the packet's header and time.
-/

namespace Twd

def maxMtu : Nat := 1500

/-! ## Levels and types of control messages -/

def solSocket : BitVec 32 := 1
def soTimestamp : BitVec 32 := 29
def soTimestampns : BitVec 32 := 35
def ipprotoIp : BitVec 32 := 0
def ipTos : BitVec 32 := 1
def ipTtl : BitVec 32 := 2
def ipprotoIpv6 : BitVec 32 := 41
def ipv6Hoplimit : BitVec 32 := 52
def ipv6Tclass : BitVec 32 := 67

/-! ## The structures of `packet.h` -/

/-- `timespec_t` -/
structure Timespec where
  tvSec : BitVec 64
  tvNsec : BitVec 64
  deriving DecidableEq, Repr

/-- `timeval_t` -/
structure Timeval where
  tvSec : BitVec 64
  tvUsec : BitVec 64
  deriving DecidableEq, Repr

/-- The members of `ip_header_t` that the two functions use. -/
structure IpHeader where
  tos : UInt8
  ttl : UInt8
  deriving DecidableEq, Repr

/-- The members of `pbuffer_t` that the two functions use. -/
structure Pbuffer where
  fd : BitVec 32
  type : BitVec 32
  header : IpHeader
  ts : Timespec
  deriving DecidableEq, Repr

/-- What `sendmsg` is called with. -/
structure SentMessage where
  fd : BitVec 32
  /-- The octets of the three elements of `msg_iov`. -/
  iov : List (List UInt8)
  /-- The bytes at `msg_control`. -/
  control : Nat → UInt8
  /-- `msg_controllen` -/
  controllen : Nat

/-! ## `send_packet` -/

section Send

/-- The bytes `bs` written at offset `off` of a buffer. -/
def overwrite (buf : List UInt8) (off : Nat) (bs : List UInt8) : List UInt8 :=
  buf.take off ++ bs ++ buf.drop (off + bs.length)

/-- The four assignments that make the control message at offset `c` of `pkt`; `none` if they leave
the buffer. -/
def putInt (pkt : List UInt8) (c : Nat) (level type : BitVec 32) (value : UInt8) :
    Option (List UInt8) :=
  if c + Cmsg.len 4 ≤ pkt.length then
    some (overwrite pkt c
      (Cmsg.header level type (Cmsg.len 4) ++ LittleEndian.encode 4 value.toNat))
  else none

/-- What `CMSG_NXTHDR(&msg,&c)` returns, the zero pointer or an offset in `pkt`, from the bytes of
`pkt` and `msg_controllen`. The macro is given the address of the variable `c` for that of a header,
so it is not `Cmsg.nxthdr`. -/
abbrev NextOfPointer := List UInt8 → Nat → Option Nat

variable (nxthdr : NextOfPointer)

/-- The statements of `send_packet` that build the control list, the same for both families: the
bytes of `pkt` and `msg_controllen` afterwards. -/
def putHeader (pkt : List UInt8) (level tosType ttlType : BitVec 32) (h : IpHeader) :
    Option (List UInt8 × Nat) := do
  let c ← Cmsg.firsthdr 1500 -- assert(c)
  let pkt ← putInt pkt c level tosType h.tos
  let controllen := Cmsg.len 4
  let c ← nxthdr pkt controllen
  let pkt ← putInt pkt c level ttlType h.ttl
  some (pkt, controllen + Cmsg.len 4)

/-- `send_packet`: the call of `sendmsg`, and the packet afterwards. The elements of `msg_iov` are
`pkt` and two empty ones, and `msg_control` is `pkt` too; neither `data` nor `size` is used. `pkt`
holds what the stack held. -/
def sendPacket (pkt : List UInt8) (p : Pbuffer) (h : IpHeader) (_data : List UInt8) (_size : Nat) :
    Option (SentMessage × Pbuffer) :=
  if p.type = ipprotoIp then do
    let (pkt, controllen) ← putHeader nxthdr pkt ipprotoIp ipTos ipTtl h
    some (⟨p.fd, [pkt, [], []], fun i => pkt.getD i 0, controllen⟩, p)
  else do
    let p := { p with type := ipprotoIpv6 } -- an assignment where a comparison is meant
    let (pkt, controllen) ← putHeader nxthdr pkt ipprotoIpv6 ipv6Tclass ipv6Hoplimit h
    some (⟨p.fd, [pkt, [], []], fun i => pkt.getD i 0, controllen⟩, p)

end Send

/-! ## `recv_pbuffer` -/

section Receive

/-- What `recvmsg` returns and leaves. -/
structure Received where
  n : Int
  /-- The octets of the datagram, which go to the local buffer `pkt`. -/
  payload : List UInt8
  /-- The address of the local buffer `buf`. -/
  addr : Nat
  /-- The bytes of `buf`. -/
  control : Nat → UInt8
  /-- `msg_controllen` -/
  controllen : Nat

/-- What `recv_pbuffer` calls: `timeval2timespec`, and the clock behind `twd_gettime`. -/
structure Clock where
  timeval2timespec : Timeval → Timespec
  gettime : Timespec

/-- The two eight-byte members of a time at offset `off`. -/
def timeMembers (buf : Nat → UInt8) (off : Nat) : BitVec 64 × BitVec 64 :=
  (BitVec.ofNat 64 (Cmsg.field buf off 8), BitVec.ofNat 64 (Cmsg.field buf (off + 8) 8))

/-- The low byte of the pointer `CMSG_DATA(cmsg)`: the assignments to `ttl` and `tos` store the
pointer and not what it points to. -/
def dataPointer (r : Received) (cmsg : Nat) : UInt8 := UInt8.ofNat (r.addr + Cmsg.dataAt cmsg)

/-- The body of the loop over the control messages. -/
def recvCmsg (clock : Clock) (r : Received) (p : Pbuffer) (cmsg : Nat) : Pbuffer :=
  let level := Cmsg.levelAt r.control cmsg
  let type := Cmsg.typeAt r.control cmsg
  if Cmsg.lenAt r.control cmsg = 0 then p
  else if level = solSocket then
    let (sec, frac) := timeMembers r.control (Cmsg.dataAt cmsg)
    if type = soTimestamp then { p with ts := clock.timeval2timespec ⟨sec, frac⟩ }
    else if type = soTimestampns then { p with ts := ⟨sec, frac⟩ }
    else p
  else if level = ipprotoIp then
    if type = ipTtl then { p with header := { p.header with ttl := dataPointer r cmsg } }
    else if type = ipTos then { p with header := { p.header with tos := dataPointer r cmsg } }
    else p
  else if level = ipprotoIpv6 then
    if type = ipv6Hoplimit then { p with header := { p.header with ttl := dataPointer r cmsg } }
    else if type = ipv6Tclass then { p with header := { p.header with tos := dataPointer r cmsg } }
    else p
  else p

/-- `recv_pbuffer`: what it returns, and the packet, `data` and `*size` afterwards. -/
def recvPbuffer (clock : Clock) (r : Received) (p : Pbuffer) (data : List UInt8) (size : Int) :
    Int × Pbuffer × List UInt8 × Int :=
  let p := { p with header := { p.header with ttl := 0, tos := 0 }, ts := ⟨0, 0⟩ }
  let p := if 0 < r.n then (Cmsg.walk r.control r.controllen).foldl (recvCmsg clock r) p else p
  let p := if 0 < r.n ∧ p.ts = ⟨0, 0⟩ then { p with ts := clock.gettime } else p
  (r.n, p, data, size)

end Receive

/-! ## What the control messages carry -/

section Carried

/-- `convert_timeval2timespec` of `twd_time.h`. -/
def convertTimeval2timespec (t2 : Timeval) : Timespec := ⟨t2.tvSec, t2.tvUsec * 1000⟩

variable (r : Received)

/-- Whether the message at `cmsg` is of the level and type, or of the other level and type. -/
def isOfKind (level type level' type' : BitVec 32) (cmsg : Nat) : Bool :=
  Cmsg.lenAt r.control cmsg ≠ 0 ∧
    ((Cmsg.levelAt r.control cmsg = level ∧ Cmsg.typeAt r.control cmsg = type) ∨
      (Cmsg.levelAt r.control cmsg = level' ∧ Cmsg.typeAt r.control cmsg = type'))

/-- An `IP_TTL` or `IPV6_HOPLIMIT` message. -/
def isTtl : Nat → Bool := isOfKind r ipprotoIp ipTtl ipprotoIpv6 ipv6Hoplimit

/-- An `IP_TOS` or `IPV6_TCLASS` message. -/
def isTos : Nat → Bool := isOfKind r ipprotoIp ipTos ipprotoIpv6 ipv6Tclass

/-- The last message of a kind. -/
def lastMessage (kind : Nat → Bool) : Option Nat :=
  ((Cmsg.walk r.control r.controllen).filter kind).getLast?

/-- The low eight bits of the integer that a message carries. -/
def carriedInt (cmsg : Nat) : UInt8 := UInt8.ofNat (Cmsg.field r.control (Cmsg.dataAt cmsg) 4)

/-- The time that the message at `cmsg` carries, if it is a timestamp. -/
def carriedTime (cmsg : Nat) : Option Timespec :=
  if Cmsg.lenAt r.control cmsg ≠ 0 ∧ Cmsg.levelAt r.control cmsg = solSocket then
    let (sec, frac) := timeMembers r.control (Cmsg.dataAt cmsg)
    if Cmsg.typeAt r.control cmsg = soTimestamp then some (convertTimeval2timespec ⟨sec, frac⟩)
    else if Cmsg.typeAt r.control cmsg = soTimestampns then some ⟨sec, frac⟩
    else none
  else none

/-- The times that came with the packet, in order. -/
def carriedTimes : List Timespec := (Cmsg.walk r.control r.controllen).filterMap (carriedTime r)

/-- The value of the last message of a kind, or 0. -/
def carriedOctet (kind : Nat → Bool) : UInt8 := ((lastMessage r kind).map (carriedInt r)).getD 0

/-- The packet has the fields that its control messages carry, and the local time if no message
carries another time than zero. -/
structure Extracts (gettime : Timespec) (p : Pbuffer) : Prop where
  ttl : p.header.ttl = carriedOctet r (isTtl r)
  tos : p.header.tos = carriedOctet r (isTos r)
  ts : (∃ t ∈ carriedTimes r, t ≠ ⟨0, 0⟩) → some p.ts = (carriedTimes r).getLast?
  gettime : (∀ t ∈ carriedTimes r, t = ⟨0, 0⟩) → p.ts = gettime

/-- The address of the data of the last message of a kind ends in the octet that it carries. -/
def PointerAgrees (kind : Nat → Bool) : Prop :=
  ∀ cmsg, lastMessage r kind = some cmsg → dataPointer r cmsg = carriedInt r cmsg

/-- If the last timestamp is zero, so are those before it, or the local clock is at zero. -/
def LastTimeCounts (gettime : Timespec) : Prop :=
  (carriedTimes r).getLast? = some ⟨0, 0⟩ →
    (∀ t ∈ carriedTimes r, t = ⟨0, 0⟩) ∨ gettime = ⟨0, 0⟩

instance (kind : Nat → Bool) : Decidable (PointerAgrees r kind) :=
  inferInstanceAs (Decidable (∀ cmsg ∈ lastMessage r kind, dataPointer r cmsg = carriedInt r cmsg))

instance (gettime : Timespec) : Decidable (LastTimeCounts r gettime) :=
  inferInstanceAs (Decidable (_ → _))

end Carried

/-! ## The round trip -/

section RoundTrip

/-- The control messages that carry the TOS and TTL values of a header. -/
def headerMessages (family : BitVec 32) (h : IpHeader) : List Cmsg.Message :=
  if family = ipprotoIp then
    [⟨ipprotoIp, ipTos, LittleEndian.encode 4 h.tos.toNat⟩,
      ⟨ipprotoIp, ipTtl, LittleEndian.encode 4 h.ttl.toNat⟩]
  else
    [⟨ipprotoIpv6, ipv6Tclass, LittleEndian.encode 4 h.tos.toNat⟩,
      ⟨ipprotoIpv6, ipv6Hoplimit, LittleEndian.encode 4 h.ttl.toNat⟩]

/-- A message about the TOS or TTL of a packet. -/
def isHeaderMessage (m : Cmsg.Message) : Bool :=
  (m.level = ipprotoIp ∧ (m.type = ipTos ∨ m.type = ipTtl)) ∨
    (m.level = ipprotoIpv6 ∧ (m.type = ipv6Tclass ∨ m.type = ipv6Hoplimit))

/-- `send_packet` calls `sendmsg`, with the payload for its data and the header's values, in some
order, for its control list. -/
def Sends (nxthdr : NextOfPointer) (pkt : List UInt8) (p : Pbuffer) (h : IpHeader)
    (payload : List UInt8) : Prop :=
  ∃ m p', sendPacket nxthdr pkt p h payload payload.length = some (m, p') ∧
    m.iov.flatten = payload ∧
    (Cmsg.messages m.control m.controllen).Perm (headerMessages p.type h)

/-- `recvmsg` delivers the datagram, and its header in any order and among any other control
messages. -/
structure Delivers (family : BitVec 32) (h : IpHeader) (payload : List UInt8) (r : Received) :
    Prop where
  n : r.n = payload.length
  payload : r.payload = payload
  control : ∃ msgs, (msgs.filter isHeaderMessage).Perm (headerMessages family h) ∧
    r.controllen = (Cmsg.encodeAll msgs).length ∧
    Cmsg.bytesAt r.control 0 r.controllen = Cmsg.encodeAll msgs

/-- Whatever the receiver's variables hold before, `recv_pbuffer` leaves the payload, its length and
the header's values in them. -/
def Receives (clock : Clock) (family : BitVec 32) (h : IpHeader) (payload : List UInt8) : Prop :=
  ∀ r, Delivers family h payload r → ∀ p data size,
    let (_, p', data', size') := recvPbuffer clock r p data size
    data'.take payload.length = payload ∧ size' = payload.length ∧
      p'.header.tos = h.tos ∧ p'.header.ttl = h.ttl

end RoundTrip

end Twd
