import Twd.Chars.Chars

/-!
# Parsing an address with a port

Translation of `to_addr_port` of `parse_addr.c`. Pointers into the local array `ipaddr` are offsets;
an access outside the array is `none`. `getaddrinfo` is a parameter.
-/

namespace Twd

open Chars

/-! ## Characters and error numbers -/

def bracketOpen : UInt8 := 91
def bracketClose : UInt8 := 93

def einval : Nat := 22
def enomem : Nat := 12
def eaddrnotavail : Nat := 99

/-! ## `to_addr_port` -/

/-- `twdip__t` -/
inductive TwdIp
  | any
  | v4
  | v6
  deriving DecidableEq, Repr

/-- The members of `hints` that are set; the type is `SOCK_DGRAM` and the protocol `IPPROTO_UDP`. -/
structure Hints where
  aiFamily : TwdIp
  aiSocktype : Nat
  aiProtocol : Nat
  deriving DecidableEq, Repr

/-- `getaddrinfo`: the octets of the first address found, or an error. -/
abbrev GetAddrInfo := List UInt8 → List UInt8 → Hints → Except Int (List UInt8)

/-- What a call of `to_addr_port` has done. -/
structure AddrPort where
  rc : Nat
  /-- The strings `taddr` and `tport` that `getaddrinfo` was given, if it was called. -/
  lookup : Option (List UInt8 × List UInt8)
  /-- The octets copied to `*sockaddr`, if it was written. -/
  copied : Option (List UInt8)
  deriving DecidableEq, Repr

/-- The hints of `to_addr_port`. -/
def addrPortHints (atype : TwdIp) : Hints where
  aiFamily := atype
  aiSocktype := 2 -- SOCK_DGRAM
  aiProtocol := 17 -- IPPROTO_UDP

/-- The part of `to_addr_port` from the lookup on. -/
def lookupAddrPort (getaddrinfo : GetAddrInfo) (atype : TwdIp) (ipaddr : List UInt8)
    (taddr tport : Int) : Option AddrPort := do
  let taddr ← stringAt ipaddr taddr
  let tport ← stringAt ipaddr tport
  match getaddrinfo taddr tport (addrPortHints atype) with
  | .ok addr => some ⟨0, some (taddr, tport), some addr⟩
  | .error _ => some ⟨eaddrnotavail, some (taddr, tport), none⟩

def toAddrPort (getaddrinfo : GetAddrInfo) (addrport : CString) (atype : TwdIp) :
    Option AddrPort :=
  let len := addrport.bytes.length
  let ipaddr := addrport.bytes ++ [0]
  match memrchr ipaddr colon len with
  | none => some ⟨einval, none, none⟩
  | some k => do
    let tport : Int := k
    let ipaddr ← put ipaddr tport 0
    let tport := tport + 1
    let first ← get ipaddr 0
    if first = bracketOpen then do
      let c ← get ipaddr (tport - 2)
      if c ≠ bracketClose then some ⟨einval, none, none⟩
      else do
        let ipaddr ← put ipaddr (tport - 2) 0
        lookupAddrPort getaddrinfo atype ipaddr 1 tport
    else lookupAddrPort getaddrinfo atype ipaddr 0 tport

/-- The string has no colon, or it starts with a bracket and the character just before its last
colon does not close it. -/
def Rejected (s : List UInt8) : Prop :=
  colon ∉ s ∨ (s.head? = some bracketOpen ∧
    ∃ pre c tport, s = pre ++ c :: colon :: tport ∧ colon ∉ tport ∧ c ≠ bracketClose)

/-- The string is `taddr:tport`, or `[taddr]:tport` if it starts with a bracket. -/
def SplitsAt (s taddr tport : List UInt8) : Prop :=
  colon ∉ tport ∧
    if s.head? = some bracketOpen then
      s = bracketOpen :: (taddr ++ bracketClose :: colon :: tport)
    else s = taddr ++ colon :: tport

/-- What `to_addr_port` should do with the string `s`. -/
structure SplitsExactly (getaddrinfo : GetAddrInfo) (atype : TwdIp) (s : List UInt8)
    (r : AddrPort) : Prop where
  rejected : (r.rc = einval ∧ r.lookup = none) ↔ Rejected s
  lookup : ¬ Rejected s → ∃ taddr tport, r.lookup = some (taddr, tport) ∧
    SplitsAt s taddr tport ∧
    ∀ taddr' tport', SplitsAt s taddr' tport' → taddr' = taddr ∧ tport' = tport
  plain : ∀ h p, colon ∉ h → h.head? ≠ some bracketOpen → colon ∉ p → s = h ++ colon :: p →
    r.lookup = some (h, p)
  bracketed : ∀ h p, colon ∉ p → s = bracketOpen :: (h ++ bracketClose :: colon :: p) →
    r.lookup = some (h, p)
  copied : ∀ addr, r.copied = some addr → ∃ taddr tport, r.lookup = some (taddr, tport) ∧
    getaddrinfo taddr tport (addrPortHints atype) = .ok addr
  found : ∀ taddr tport addr, r.lookup = some (taddr, tport) →
    getaddrinfo taddr tport (addrPortHints atype) = .ok addr → r.rc = 0 ∧ r.copied = some addr
  failed : ∀ taddr tport err, r.lookup = some (taddr, tport) →
    getaddrinfo taddr tport (addrPortHints atype) = .error err →
    r.rc = eaddrnotavail ∧ r.copied = none

end Twd
