import Twd.Chars.Chars
import Twd.Strtol.Strtol

/-!
# Interface identifiers as text

Translation of `format_eui64` and `parse_eui64` of `util.c`, with what `sscanf` does for the
directives that they use.
-/

namespace Twd.Util

open Chars Strtol

/-! ## `sscanf` -/

/-- A directive of the format: `%02hhx`, or a character that has to follow. -/
inductive Directive
  | byte
  | lit (c : UInt8)
  deriving DecidableEq, Repr

def hexValue (c : UInt8) : UInt8 := UInt8.ofNat ((digitValue c).getD 0)

/-- `%02hhx`: the value and what is left; `none` if the characters, after white space and up to two,
are no hexadecimal number. -/
def scanByte (s : List UInt8) : Option (UInt8 × List UInt8) :=
  match s.dropWhile isspace with
  | [] => none
  | c :: rest =>
    if c = 43 ∨ c = 45 then
      match rest with
      | [] => none
      | d :: rest =>
        if isDigit 16 d then some (if c = 45 then -hexValue d else hexValue d, rest) else none
    else if isDigit 16 c then
      match rest with
      | [] => some (hexValue c, [])
      | d :: rest' =>
        if isDigit 16 d then some (hexValue c * 16 + hexValue d, rest')
        else if c = 48 ∧ tolower d = 120 then none -- `0x` without a digit
        else some (hexValue c, rest)
    else none

/-- The values that are assigned before a directive fails. -/
def sscanf : List Directive → List UInt8 → List UInt8
  | [], _ => []
  | .byte :: ds, s =>
    match scanByte s with
    | none => []
    | some (b, s) => b :: sscanf ds s
  | .lit c :: ds, s => if s.head? = some c then sscanf ds s.tail else []

/-- `n` bytes with a separator between them. -/
def bytesFormat (sep : UInt8) (n : Nat) : List Directive :=
  (List.replicate n .byte).intersperse (.lit sep)

/-! ## The functions -/

def dash : UInt8 := 45

/-- `"%02x"` of a byte. -/
def hexByte (b : UInt8) : List UInt8 :=
  let digit (k : UInt8) : UInt8 := if k < 10 then 48 + k else 87 + k
  [digit (b / 16), digit (b % 16)]

/-- The string that `format_eui64` returns. -/
def formatEui64 (eui : List UInt8) : List UInt8 :=
  (List.intercalate [colon] (eui.map hexByte)).take (28 - 1)

/-- The values are assigned to the elements at the indices. -/
def assign (euiR : List UInt8) (indices : List Nat) (values : List UInt8) : List UInt8 :=
  (indices.zip values).foldl (fun euiR p => euiR.set p.1 p.2) euiR

/-- `parse_eui64`: what it returns and `eui_r` afterwards. -/
def parseEui64 (eui euiR : List UInt8) : Int × List UInt8 :=
  let values := sscanf (bytesFormat colon 8) eui
  let euiR := assign euiR [0, 1, 2, 3, 4, 5, 6, 7] values
  if values.length = 8 then (0, euiR)
  else
    let values := sscanf (bytesFormat dash 8) eui
    let euiR := assign euiR [0, 1, 2, 3, 4, 5, 6, 7] values
    if values.length = 8 then (0, euiR)
    else
      let values := sscanf (bytesFormat colon 6) eui
      let euiR := assign euiR [0, 1, 2, 5, 6, 7] values
      if values.length = 6 then (0, (euiR.set 3 0xFF).set 4 0xFE)
      else (-1, euiR)

/-! ## Identifiers in hexadecimal -/

/-- Two hexadecimal digits, in either case, that stand for the byte. -/
def Hex (b : UInt8) (w : List UInt8) : Prop :=
  ∃ c d, w = [c, d] ∧ digitValue c = some (b.toNat / 16) ∧ digitValue d = some (b.toNat % 16)

/-- The text is made of the bytes' digits with a separator between them. -/
def HexText (sep : UInt8) (bs text : List UInt8) : Prop :=
  ∃ ws, List.Forall₂ Hex bs ws ∧ text = List.intercalate [sep] ws

/-- Eight bytes are read whatever follows them, with either separator, and are read from what is
printed of them; six are read as the address that an interface with them has, but only with
colons. -/
structure ReadsEui64 (euiR : List UInt8) : Prop where
  eight : ∀ sep bs text rest, sep = colon ∨ sep = dash → bs.length = 8 → HexText sep bs text →
    parseEui64 (text ++ rest) euiR = (0, bs)
  printed : ∀ eui, eui.length = 8 → parseEui64 (formatEui64 eui) euiR = (0, eui)
  six : ∀ a b c d e f text, HexText colon [a, b, c, d, e, f] text →
    parseEui64 text euiR = (0, [a, b, c, 0xFF, 0xFE, d, e, f])
  dashes : ∀ bs text, bs.length < 8 → HexText dash bs text → (parseEui64 text euiR).1 = -1

/-- With dashes, the first of the formats reads one byte only. -/
example : sscanf (bytesFormat colon 8) (ascii "1A-2b-3c") = [0x1A] ∧
    sscanf (bytesFormat dash 8) (ascii "1A-2b-3c") = [0x1A, 0x2B, 0x3C] := by decide

end Twd.Util
