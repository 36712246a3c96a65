import Twd.Strtol.Strtol

/-!
# Names of codepoints

Translation of `dscp.c`: a table of names, `parse_ipqos` from a string to a value and `iptos2str`
back. An `int` is an integer here; the values of the table and the results are small.
-/

namespace Twd

open Strtol

/-- `ipqos_t` -/
structure IpqosData where
  name : List UInt8
  value : Int
  deriving DecidableEq, Repr

/-- The entries of `ipqos` up to the one without a name. -/
def ipqos : List IpqosData := [
  ⟨ascii "af11", 0x28⟩,
  ⟨ascii "af12", 0x30⟩,
  ⟨ascii "af13", 0x38⟩,
  ⟨ascii "af21", 0x48⟩,
  ⟨ascii "af22", 0x50⟩,
  ⟨ascii "af23", 0x58⟩,
  ⟨ascii "af31", 0x68⟩,
  ⟨ascii "af32", 0x70⟩,
  ⟨ascii "af33", 0x78⟩,
  ⟨ascii "af41", 0x88⟩,
  ⟨ascii "af42", 0x90⟩,
  ⟨ascii "af43", 0x98⟩,
  ⟨ascii "cs0", 0x00⟩,
  ⟨ascii "cs1", 0x20⟩,
  ⟨ascii "cs2", 0x40⟩,
  ⟨ascii "cs3", 0x60⟩,
  ⟨ascii "cs4", 0x80⟩,
  ⟨ascii "cs5", 0xa0⟩,
  ⟨ascii "cs6", 0xc0⟩,
  ⟨ascii "cs7", 0xe0⟩,
  ⟨ascii "ef", 0xb8⟩,
  ⟨ascii "lowdelay", 0x10⟩,
  ⟨ascii "throughput", 0x08⟩,
  ⟨ascii "reliability", 0x04⟩]

/-- `parse_ipqos`; `none` is the zero pointer. -/
def parseIpqos : Option (List UInt8) → Int
  | none => -1
  | some cp =>
    match ipqos.find? fun e => sameIgnoringCase cp e.name with
    | some e => e.value
    | none =>
      -- Try parsing as an integer
      let (val, ep) := strtol 0 cp
      if cp = [] ∨ ep ≠ [] ∨ val < 0 ∨ val > 255 then -1 else val

def hexDigit (n : Nat) : UInt8 := if n < 10 then UInt8.ofNat (48 + n) else UInt8.ofNat (87 + n)

/-- `"0x%02x"` for a number of at most two digits. -/
def hexText (n : Nat) : List UInt8 := [48, 120, hexDigit (n / 16), hexDigit (n % 16)]

def iptos2str (iptos : Int) : List UInt8 :=
  let iptos := if iptos < 0 ∨ iptos > 64 then 0 else iptos
  match ipqos.find? fun e => e.value = iptos with
  | some e => e.name
  | none => hexText iptos.toNat

/-! ## What a string denotes -/

/-- The string is a name, whatever the letter case, or a number that `strtol` reads to the end. -/
inductive Denotes (cp : List UInt8) : Int → Prop
  | name {e : IpqosData} (he : e ∈ ipqos) (h : sameIgnoringCase cp e.name = true) :
    Denotes cp e.value
  | number {val : Int} (hno : ∀ e ∈ ipqos, sameIgnoringCase cp e.name = false) (hne : cp ≠ [])
    (h : strtol 0 cp = (val, [])) (h0 : 0 ≤ val) (h255 : val ≤ 255) : Denotes cp val

/-- The names of the table differ in more than letter case. -/
theorem ipqos_name_inj :
    ∀ e ∈ ipqos, ∀ e' ∈ ipqos, sameIgnoringCase e.name e'.name = true → e = e' := by decide

theorem ipqos_value_mem : ∀ e ∈ ipqos, 0 ≤ e.value ∧ e.value ≤ 255 := by decide

end Twd
