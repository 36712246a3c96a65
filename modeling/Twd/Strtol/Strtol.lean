import Mathlib.Data.List.Basic

/-!
# Numbers in strings

`strtol`, `strtoul` and `strcasecmp` as the C library documents them, in the C locale and on a
machine whose `long` has 64 bits. A string is the list of its bytes up to the terminating zero.
-/

namespace Strtol

/-- The bytes of a string literal. -/
def ascii (s : String) : List UInt8 := s.toList.map fun c => UInt8.ofNat c.toNat

def isspace (c : UInt8) : Bool := c = 32 ∨ (9 ≤ c ∧ c ≤ 13)

def tolower (c : UInt8) : UInt8 := if 65 ≤ c ∧ c ≤ 90 then c + 32 else c

/-- `strcasecmp(s1,s2) == 0` -/
def sameIgnoringCase (s1 s2 : List UInt8) : Bool := s1.map tolower = s2.map tolower

/-- The value of a digit or letter. -/
def digitValue (c : UInt8) : Option Nat :=
  if 48 ≤ c ∧ c ≤ 57 then some (c.toNat - 48)
  else if 97 ≤ tolower c ∧ tolower c ≤ 122 then some ((tolower c).toNat - 97 + 10)
  else none

/-- Whether `c` is a digit in the base. -/
def isDigit (base : Nat) (c : UInt8) : Bool := (digitValue c).any (· < base)

/-- The number that the digits stand for. -/
def ofDigits (base : Nat) (ds : List UInt8) : Nat :=
  ds.foldl (fun n c => n * base + (digitValue c).getD 0) 0

/-- The sign, and what follows it. -/
def readSign : List UInt8 → Bool × List UInt8
  | 45 :: rest => (true, rest)
  | 43 :: rest => (false, rest)
  | rest => (false, rest)

/-- The base that base 0 or 16 stands for, and the digits: a prefix `0x` counts only before a
hexadecimal digit. -/
def readPrefix (base : Nat) (s : List UInt8) : Nat × List UInt8 :=
  match s with
  | 48 :: x :: d :: rest =>
    if tolower x = 120 ∧ isDigit 16 d ∧ (base = 0 ∨ base = 16) then (16, d :: rest)
    else (if base = 0 then 8 else base, s)
  | 48 :: _ => (if base = 0 then 8 else base, s)
  | _ => (if base = 0 then 10 else base, s)

/-- The sign and the absolute value of the number at the start of the string, and what follows it;
`none` if there is no number. -/
def scan (base : Nat) (s : List UInt8) : Option (Bool × Nat × List UInt8) :=
  let (neg, s) := readSign (s.dropWhile isspace)
  let (base, s) := readPrefix base s
  match s.takeWhile (isDigit base) with
  | [] => none
  | ds => some (neg, ofDigits base ds, s.dropWhile (isDigit base))

def longMax : Nat := 0x7fffffffffffffff

def ulongMax : Nat := 0xffffffffffffffff

/-- `strtol`: what it returns and the string at `*endptr`. -/
def strtol (base : Nat) (s : List UInt8) : Int × List UInt8 :=
  match scan base s with
  | none => (0, s)
  | some (true, n, rest) => (if longMax < n then -longMax - 1 else -n, rest)
  | some (false, n, rest) => (if longMax < n then longMax else n, rest)

/-- `strtoul`: what it returns. -/
def strtoul (base : Nat) (s : List UInt8) : BitVec 64 :=
  match scan base s with
  | none => 0
  | some (neg, n, _) =>
    if ulongMax < n then BitVec.ofNat 64 ulongMax
    else if neg then -BitVec.ofNat 64 n
    else BitVec.ofNat 64 n

/-- A prefix with digits and one without, a sign alone, and a negative unsigned number. -/
example : strtol 0 (ascii " -0x1Fg") = (-31, ascii "g") ∧ strtol 0 (ascii "0xg") = (0, ascii "xg") ∧
    strtol 0 (ascii "-") = (0, ascii "-") ∧ strtoul 10 (ascii "-1") = BitVec.allOnes 64 := by decide

/-! ## Digits -/

theorem isDigit_mono {c : UInt8} {base base' : Nat} (h : isDigit base c) (hle : base ≤ base') :
    isDigit base' c := by
  rw [isDigit, Option.any_eq_true] at h ⊢
  obtain ⟨v, hv, hlt⟩ := h
  exact ⟨v, hv, decide_eq_true (Nat.lt_of_lt_of_le (of_decide_eq_true hlt) hle)⟩

theorem le_of_digitValue {c : UInt8} {k : Nat} (h : digitValue c = some k) : 48 ≤ c.toNat := by
  rw [digitValue] at h
  split at h
  case isTrue hc => exact UInt8.le_iff_toNat_le.mp hc.1
  case isFalse =>
    split at h
    case isFalse => cases h
    case isTrue hc =>
      rw [tolower] at hc
      split at hc
      case isTrue hc' =>
        have hle := UInt8.le_iff_toNat_le.mp hc'.1
        simp only [UInt8.reduceToNat] at hle
        omega
      case isFalse =>
        have hle := UInt8.le_iff_toNat_le.mp hc.1
        simp only [UInt8.reduceToNat] at hle
        omega

/-- A digit is no white space and no sign. -/
theorem ne_of_isDigit {c : UInt8} {base : Nat} (h : isDigit base c) :
    isspace c = false ∧ c ≠ 43 ∧ c ≠ 45 := by
  rw [isDigit, Option.any_eq_true] at h
  obtain ⟨v, hv, -⟩ := h
  have hle := le_of_digitValue hv
  simp only [isspace, decide_eq_false_iff_not, UInt8.le_iff_toNat_le, UInt8.reduceToNat, ne_eq,
    ← UInt8.toNat_inj]
  omega

theorem digitValue_of_tolower {x : UInt8} (h : tolower x = 120) : digitValue x = some 33 := by
  have hx : x = 88 ∨ x = 120 := by
    rw [tolower] at h
    split at h
    · left
      calc x = x + 32 - 32 := by rw [UInt8.add_sub_cancel]
        _ = 88 := by rw [h]; rfl
    · exact .inr h
  rcases hx with rfl | rfl <;> decide

end Strtol
