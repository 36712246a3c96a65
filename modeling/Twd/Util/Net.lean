import Twd.Chars.Chars
import Twd.Strtol.Decimal
import Twd.Strtol.Strtol
import Twd.Util.Prefix

/-!
# Prefixes as text

Translation of `parse_address`, `parse_net` and `format_prefix` of `util.c`. `inet_pton` and
`inet_ntop` are parameters.
-/

namespace Twd

open Chars Strtol

/-- The octets of an IPv4 address. -/
structure Address4 where
  bytes : List UInt8
  length_bytes : bytes.length = 4
  deriving DecidableEq, Repr

/-- `inet_pton` for the two families, where `none` is that it does not return 1, and `inet_ntop`. -/
structure InetText where
  pton4 : List UInt8 → Option Address4
  pton6 : List UInt8 → Option Address
  ntop4 : Address4 → List UInt8
  ntop6 : Address → List UInt8

/-- `AF_INET` and `AF_INET6` -/
inductive NetFamily
  | inet
  | inet6
  deriving DecidableEq, Repr

/-- `v4tov6`, as an address. -/
def Address4.mapped (a : Address4) : Address :=
  ⟨v4tov6 a.bytes, by simp [v4tov6, v4Prefix, a.length_bytes]⟩

/-- `prefix + 12` -/
def Address.v4 (a : Address) : Address4 := ⟨a.bytes.drop 12, by simp [a.length_bytes]⟩

def inet6AddrStrLen : Nat := 46

def slash : UInt8 := 47

/-- What `parse_address` leaves; `none` when it returns -1. -/
def parseAddress (env : InetText) (address : List UInt8) : Option (Address × NetFamily) :=
  match env.pton4 address with
  | some ina => some (ina.mapped, .inet)
  | none =>
    match env.pton6 address with
    | some ina6 => some (ina6, .inet6)
    | none => none

/-- What `parse_net` leaves. -/
structure Net where
  pre : List UInt8
  plen : UInt8
  family : NetFamily
  deriving DecidableEq, Repr

/-- The length behind the slash, when it is one. -/
def parseLength (text : List UInt8) (max : Int) : Option Int :=
  let r := strtol 0 text
  if r.2 ≠ [] ∨ r.1 < 0 ∨ max < r.1 then none else some r.1

/-- The part of `parse_net` before the mask; `none` when it returns -1. -/
def parseNetParts (env : InetText) (net : List UInt8) : Option (Address × Int × NetFamily) :=
  if net = ascii "default" then some (⟨List.replicate 16 0, rfl⟩, 0, .inet6)
  else if slash ∉ net then do
    let (pre, af) ← parseAddress env net
    some (pre, 128, af)
  else
    let buf := net.takeWhile (· ≠ slash)
    let tail := (net.dropWhile (· ≠ slash)).tail
    if inet6AddrStrLen ≤ buf.length then none
    else
      match env.pton4 buf with
      | some ina => do
        let plen ← parseLength tail 32
        some (ina.mapped, plen + 96, .inet)
      | none =>
        match env.pton6 buf with
        | some ina6 => do
          let plen ← parseLength tail 128
          some (ina6, plen, .inet6)
        | none => none

/-- `none` when it returns -1. -/
def parseNet (env : InetText) (net : CString) : Option Net := do
  let (pre, plen, af) ← parseNetParts env net.bytes
  let plen := UInt8.ofNat plen.toNat
  let masked ← maskPrefix pre plen
  some ⟨masked, plen, af⟩

/-- `snprintf(buf + n, size - n, "/%d", plen)`, where `buf` holds a string of `n` characters. -/
def appendLength (buf : List UInt8) (plen : Nat) : List UInt8 :=
  buf ++ (slash :: Decimal.text plen).take (inet6AddrStrLen + 4 - buf.length - 1)

def formatPrefix (env : InetText) (pre : Address) (plen : UInt8) : List UInt8 :=
  if 96 ≤ plen.toNat ∧ v4mapped pre then appendLength (env.ntop4 pre.v4) (plen.toNat - 96)
  else appendLength (env.ntop6 pre) plen.toNat

/-! ## Reading what has been written -/

/-- What is documented of the two functions, for an address: its text stands for this address, and
the text of an IPv6 address for no IPv4 address; a text has neither a slash nor a zero and it fits
into `INET6_ADDRSTRLEN` characters with the zero behind it. -/
structure InetText.Faithful (env : InetText) (a : Address) : Prop where
  pton4 : env.pton4 (env.ntop4 a.v4) = some a.v4
  pton6 : env.pton6 (env.ntop6 a) = some a
  disjoint : env.pton4 (env.ntop6 a) = none
  no_slash4 : slash ∉ env.ntop4 a.v4
  no_slash6 : slash ∉ env.ntop6 a
  nul_free4 : 0 ∉ env.ntop4 a.v4
  nul_free6 : 0 ∉ env.ntop6 a
  length4 : (env.ntop4 a.v4).length < inet6AddrStrLen
  length6 : (env.ntop6 a).length < inet6AddrStrLen

/-- The family that a prefix is written in. -/
def familyOf (pre : Address) (plen : UInt8) : NetFamily :=
  if 96 ≤ plen.toNat ∧ v4mapped pre then .inet else .inet6

end Twd
