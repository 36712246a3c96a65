import Mathlib.Logic.Function.Basic
import Twd.Strtol.Strtol

/-!
# Sockets for a service

Translation of `netlib_connectsock` and `netlib_errstr` of `network.c`. What the resolver and the
system answer is a parameter, and so are the codes for errors and `BAD_SOCKET`, which are not
defined with them.
-/

namespace Twd.Network

open Strtol

/-- The `NL_` codes. -/
structure Codes where
  noService : Int
  noHost : Int
  noProto : Int
  noSock : Int
  noSockOpt : Int
  noConnect : Int

/-- What the calls on a socket have set. -/
structure Socket where
  family : Int
  socktype : Int
  protocol : Int
  reuseaddr : Bool
  bound : Option (List UInt8)
  peer : Option (List UInt8)
  tos : Option Int
  tclass : Option Int
  nodelay : Bool
  nonblock : Bool
  deriving DecidableEq, Repr

/-- The sockets behind the open descriptors. -/
abbrev Descriptors := Int → Option Socket

/-- `struct addrinfo` -/
structure Addrinfo where
  family : Int
  socktype : Int
  protocol : Int
  addr : List UInt8

/-- The members of `hints` that are set. -/
structure Hints where
  family : Int
  socktype : Int
  protocol : Int
  passive : Bool

/-- How the calls for an address turn out: the descriptor of the new socket, and whether
`setsockopt` and `bind` or `connect` succeed. -/
structure Answers where
  socket : Option Int
  reuseaddr : Bool
  attach : Bool

/-- How the other calls turn out. -/
structure Net where
  getprotobyname : List UInt8 → Option Int
  getaddrinfo : List UInt8 → List UInt8 → Hints → Except Int (List (Addrinfo × Answers))
  tos : Bool
  tclass : Bool
  nodelay : Bool
  nonblock : Bool

def SOCK_STREAM : Int := 1

def SOCK_DGRAM : Int := 2

/-- `socket` -/
def socket (fds : Descriptors) (rp : Addrinfo) : Option Int → Int × Descriptors
  | none => (-1, fds)
  | some s => (s, Function.update fds s (some ⟨rp.family, rp.socktype, rp.protocol, false, none,
      none, none, none, false, false⟩))

/-- A call that sets something on a socket, if it succeeds. -/
def set (fds : Descriptors) (s : Int) (f : Socket → Socket) (succeeds : Bool) : Descriptors :=
  if succeeds then Function.update fds s ((fds s).map f) else fds

def close (fds : Descriptors) (s : Int) : Descriptors := Function.update fds s none

/-! ## The functions -/

def socktype (protocol : List UInt8) : Int :=
  if protocol = ascii "udp" then SOCK_DGRAM else SOCK_STREAM

/-- The calls for an address, up to the end of the body of the loop: `ret`, or `none` for the
`break`. -/
def attach (codes : Codes) (bindMe : Bool) (fds : Descriptors) (s : Int) (rp : Addrinfo)
    (ans : Answers) : Option Int × Descriptors :=
  if s < 0 then (some codes.noSock, fds)
  else
    let fds := set fds s (fun o => { o with reuseaddr := true }) ans.reuseaddr
    if ¬ ans.reuseaddr then (some codes.noSockOpt, fds)
    else
      let fds :=
        if bindMe then set fds s (fun o => { o with bound := some rp.addr }) ans.attach
        else set fds s (fun o => { o with peer := some rp.addr }) ans.attach
      (if ans.attach then none else some codes.noConnect, fds)

/-- All calls for the address succeed, and `s` is its descriptor. -/
def Answers.Succeed (ans : Answers) (s : Int) : Prop :=
  ans.socket = some s ∧ ans.reuseaddr = true ∧ ans.attach = true

/-- The codes are told from descriptors by their sign, and `BAD_SOCKET` does so. -/
structure Codes.Kept (codes : Codes) (badSocket : Int → Bool) : Prop where
  noHost : codes.noHost < 0
  noSock : codes.noSock < 0
  noSockOpt : codes.noSockOpt < 0
  noConnect : codes.noConnect < 0
  badSocket : ∀ s, badSocket s = true ↔ s < 0

/-- The resolver succeeds with some address only, and a new socket gets a descriptor that was not in
use. -/
structure Net.Kept (net : Net) (fds : Descriptors) (host service : List UInt8) (h : Hints) :
    Prop where
  nonempty : net.getaddrinfo host service h ≠ .ok []
  descriptor : ∀ result, net.getaddrinfo host service h = .ok result → ∀ r ∈ result, ∀ s,
    r.2.socket = some s → 0 ≤ s ∧ fds s = none

end Twd.Network
