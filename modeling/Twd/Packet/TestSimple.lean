import Twd.Packet.Packet

/-!
# The other receiver

Translation of `recv_pbuffer` of `test_simple.c`, a copy of the one in `packet.c` that looks for
timestamps among the messages of the two IP levels.
-/

namespace Twd

namespace TestSimple

/-- The body of the loop over the control messages. `converttimeval2timespec` is given `p->ts` and
not its address; it is what the call leaves there, if anything. -/
def recvCmsg (converttimeval2timespec : Timeval → Option Timespec) (r : Received) (p : Pbuffer)
    (cmsg : Nat) : Pbuffer :=
  let level := Cmsg.levelAt r.control cmsg
  let type := Cmsg.typeAt r.control cmsg
  let (sec, frac) := timeMembers r.control (Cmsg.dataAt cmsg)
  if Cmsg.lenAt r.control cmsg = 0 then p
  else if level = ipprotoIp then
    if type = ipTtl then { p with header := { p.header with ttl := dataPointer r cmsg } }
    else if type = ipTos then { p with header := { p.header with tos := dataPointer r cmsg } }
    else if type = soTimestamp then
      { p with ts := (converttimeval2timespec ⟨sec, frac⟩).getD p.ts }
    else if type = soTimestampns then { p with ts := ⟨sec, frac⟩ }
    else p
  else if level = ipprotoIpv6 then
    if type = ipv6Hoplimit then { p with header := { p.header with ttl := dataPointer r cmsg } }
    else if type = ipv6Tclass then { p with header := { p.header with tos := dataPointer r cmsg } }
    else if type = soTimestamp then
      { p with ts := (converttimeval2timespec ⟨sec, frac⟩).getD p.ts }
    else if type = soTimestampns then { p with ts := ⟨sec, frac⟩ }
    else p
  else p

/-- `recv_pbuffer`: the packet afterwards. -/
def recvPbuffer (converttimeval2timespec : Timeval → Option Timespec) (gettime : Timespec)
    (r : Received) (p : Pbuffer) : Pbuffer :=
  let p := { p with header := { p.header with ttl := 0, tos := 0 }, ts := ⟨0, 0⟩ }
  let p :=
    if 0 < r.n then
      (Cmsg.walk r.control r.controllen).foldl (recvCmsg converttimeval2timespec r) p
    else p
  if p.ts = ⟨0, 0⟩ then { p with ts := gettime } else p

/-- The time that the message at `cmsg` leaves in `p->ts`, if it leaves one. -/
def storedTime (converttimeval2timespec : Timeval → Option Timespec) (r : Received) (cmsg : Nat) :
    Option Timespec :=
  let level := Cmsg.levelAt r.control cmsg
  if Cmsg.lenAt r.control cmsg ≠ 0 ∧ (level = ipprotoIp ∨ level = ipprotoIpv6) then
    let (sec, frac) := timeMembers r.control (Cmsg.dataAt cmsg)
    if Cmsg.typeAt r.control cmsg = soTimestamp then converttimeval2timespec ⟨sec, frac⟩
    else if Cmsg.typeAt r.control cmsg = soTimestampns then some ⟨sec, frac⟩
    else none
  else none

def storedTimes (converttimeval2timespec : Timeval → Option Timespec) (r : Received) :
    List Timespec :=
  (Cmsg.walk r.control r.controllen).filterMap (storedTime converttimeval2timespec r)

end TestSimple

/-- The packet has the local time, whatever that is. -/
def FallsBack (recv : Timespec → Pbuffer) : Prop := ∀ gettime, (recv gettime).ts = gettime

/-- Two receivers that leave the same in the packet, whatever the local time, and take the local
time for the same control messages, among which there is no timestamp. -/
structure ReceiversAgree (r : Received) (recv recv' : Timespec → Pbuffer) : Prop where
  ttl : ∀ gettime, (recv gettime).header.ttl = (recv' gettime).header.ttl
  tos : ∀ gettime, (recv gettime).header.tos = (recv' gettime).header.tos
  ts : ∀ gettime, (recv gettime).ts = (recv' gettime).ts
  fallsBack : FallsBack recv ↔ FallsBack recv'
  kept : carriedTimes r ≠ [] → ¬ FallsBack recv ∧ ¬ FallsBack recv'

/-- There is no message about TTL or TOS, or the addresses of the two buffers end alike. -/
def AddressesAgree (r : Received) (addr' : Nat) : Prop :=
  (lastMessage r (isTtl r) = none ∧ lastMessage r (isTos r) = none) ∨ r.addr % 256 = addr' % 256

/-- The last timestamp of the socket level is not zero, and it is the last one of the IP levels too;
if there is none, there is none of the IP levels either, or that is zero. -/
def TimesAgree (converttimeval2timespec : Timeval → Option Timespec) (r : Received) : Prop :=
  (carriedTimes r).getLast? ≠ some ⟨0, 0⟩ ∧
    (carriedTimes r).getLast?.getD ⟨0, 0⟩ =
      (TestSimple.storedTimes converttimeval2timespec r).getLast?.getD ⟨0, 0⟩

instance (r : Received) (addr' : Nat) : Decidable (AddressesAgree r addr') :=
  inferInstanceAs (Decidable (_ ∨ _))

instance (converttimeval2timespec : Timeval → Option Timespec) (r : Received) :
    Decidable (TimesAgree converttimeval2timespec r) :=
  inferInstanceAs (Decidable (_ ∧ _))

end Twd
