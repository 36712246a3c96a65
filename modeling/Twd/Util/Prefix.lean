import Twd.Blocks.Blocks

/-!
# Prefixes of addresses

Translation of `in_prefix`, `mask_prefix`, `prefixes_cmp`, `martian_prefix`, `v4mapped` and `v4tov6`
of `util.c`. An access outside the 16 octets of an address is `none`.
-/

namespace Twd

/-- The octets of an IPv6 address. -/
@[ext] structure Address where
  bytes : List UInt8
  length_bytes : bytes.length = 16
  deriving DecidableEq, Repr

def inPrefix (address pre : Address) (plen : UInt8) : Option Bool :=
  let plen := if 128 < plen.toNat then 128 else plen.toNat
  if address.bytes.take (plen / 8) ≠ pre.bytes.take (plen / 8) then some false
  else if plen % 8 = 0 then some true
  else do
    let m := UInt8.ofNat (0xFF <<< (8 - plen % 8))
    let a ← address.bytes[plen / 8]?
    let p ← pre.bytes[plen / 8]?
    some (a &&& m = p &&& m)

/-- The octets of `ret`. -/
def maskPrefix (pre : Address) (plen : UInt8) : Option (List UInt8) :=
  if 128 ≤ plen.toNat then some pre.bytes
  else
    let ret := List.replicate 16 0
    let ret := pre.bytes.take (plen.toNat / 8) ++ ret.drop (plen.toNat / 8)
    if plen.toNat % 8 ≠ 0 then do
      let p ← pre.bytes[plen.toNat / 8]?
      some (ret.set (plen.toNat / 8) (p &&& UInt8.ofNat ((0xFF <<< (8 - plen.toNat % 8)) &&& 0xFF)))
    else some ret

def v4Prefix : List UInt8 := [0, 0, 0, 0, 0, 0, 0, 0, 0, 0, 0xFF, 0xFF, 0, 0, 0, 0]

def v4mapped (address : Address) : Bool := address.bytes.take 12 = v4Prefix.take 12

/-- `dst`, from the octets of an IPv4 address. -/
def v4tov6 (src : List UInt8) : List UInt8 := v4Prefix.take 12 ++ src.take 4

/-- `zeroes` is declared in `util.h` and not defined there or elsewhere in the sources. -/
def martianPrefix (zeroes pre : Address) (plen : Int) : Bool :=
  let b := fun i => pre.bytes.getD i 0
  (8 ≤ plen ∧ b 0 = 0xFF) ∨
  (10 ≤ plen ∧ b 0 = 0xFE ∧ b 1 &&& 0xC0 = 0x80) ∨
  (128 ≤ plen ∧ pre.bytes.take 15 = zeroes.bytes.take 15 ∧ (b 15 = 0 ∨ b 15 = 1)) ∨
  (96 ≤ plen ∧ v4mapped pre ∧
    ((104 ≤ plen ∧ (b 12 = 127 ∨ b 12 = 0)) ∨ (100 ≤ plen ∧ b 12 &&& 0xE0 = 0xE0)))

/-- `enum prefixes_status` -/
inductive PrefixesStatus
  | disjoint
  | equals
  | moreSpecific
  | lessSpecific
  deriving DecidableEq, Repr

/-- The loop of `prefixes_cmp`, with `remaining` octets to go: whether it ends without a
difference. -/
def prefixesLoop (p1 p2 : Address) : (remaining i : Nat) → Option Bool
  | 0, _ => some true
  | remaining + 1, i => do
    let a ← p1.bytes[i]?
    let b ← p2.bytes[i]?
    if a ≠ b then some false else prefixesLoop p1 p2 remaining (i + 1)

/-- The bits of an octet that the mask leaves, as an `int`. -/
def andMask (a : UInt8) (mask : BitVec 8) : BitVec 32 :=
  a.toBitVec.setWidth 32 &&& mask.signExtend 32

def prefixesCmp (p1 : Address) (plen1 : UInt8) (p2 : Address) (plen2 : UInt8) :
    Option PrefixesStatus := do
  let min := min plen1.toNat plen2.toNat
  let i := min / 8
  let same : Bool ← prefixesLoop p1 p2 i 0
  if ¬ same then some .disjoint
  else
    let min := min - i * 8
    let same : Bool ←
      if min ≠ 0 then do
        let mask := (0x80 : BitVec 8).sshiftRight (min - 1)
        let a ← p1.bytes[i]?
        let b ← p2.bytes[i]?
        some (andMask a mask = andMask b mask)
      else some true
    if ¬ same then some .disjoint
    else if plen1 < plen2 then some .lessSpecific
    else if plen1 > plen2 then some .moreSpecific
    else some .equals

/-! ## Sets of addresses -/

/-- The bits of an address, the most significant of the first octet first. -/
def Address.bit (a : Address) (i : Nat) : Bool :=
  (a.bytes.getD (i / 8) 0).toBitVec.getMsbD (i % 8)

/-- The first `n` bits agree. -/
def agree (n : Nat) : Setoid Address where
  r a b := ∀ i < n, a.bit i = b.bit i
  iseqv :=
    ⟨fun _ _ _ => rfl, fun h i hi => (h i hi).symm, fun h h' i hi => (h i hi).trans (h' i hi)⟩

/-- The addresses with a prefix. -/
def addresses (pre : Address) (plen : Nat) : Set Address := Blocks.block agree plen pre

/-- `::ffff:x.0.0.0` -/
def v4Block (x : UInt8) : Address := ⟨v4tov6 [x, 0, 0, 0], rfl⟩

/-- Multicast, link-local, unspecified and loopback addresses, and the IPv4 addresses among them. -/
def martianBlocks : List (Address × Nat) :=
  [(⟨0xFF :: List.replicate 15 0, rfl⟩, 8), (⟨0xFE :: 0x80 :: List.replicate 14 0, rfl⟩, 10),
    (⟨List.replicate 15 0 ++ [0], rfl⟩, 128), (⟨List.replicate 15 0 ++ [1], rfl⟩, 128),
    (v4Block 127, 104), (v4Block 0, 104), (v4Block 0xE0, 100), (v4Block 0xF0, 100)]

/-- What the comparison of two sets of addresses says about them. -/
def PrefixesStatus.Describes (A B : Set Address) : PrefixesStatus → Prop
  | disjoint => Disjoint A B
  | equals => A = B
  | moreSpecific => A ⊂ B
  | lessSpecific => B ⊂ A

end Twd
