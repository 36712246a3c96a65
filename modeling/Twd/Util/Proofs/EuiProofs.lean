import Mathlib.Data.List.Forall2
import Twd.Util.Eui

/-!
# Proofs about interface identifiers

A directive for a byte takes two digits and nothing behind them, so a format reads bytes as long as
its separator follows.
-/

namespace Twd.Util

open Chars Strtol

variable {sep b : UInt8} {bs w text euiR : List UInt8}

/-! ## Bytes -/

theorem Hex.scanByte (h : Hex b w) (rest : List UInt8) : scanByte (w ++ rest) = some (b, rest) := by
  obtain ⟨c, d, rfl, hc, hd⟩ := h
  have hb := b.toNat_lt
  have hcdigit : isDigit 16 c = true := by
    rw [isDigit, hc]
    exact decide_eq_true (by omega)
  have hddigit : isDigit 16 d = true := by
    rw [isDigit, hd]
    exact decide_eq_true (Nat.mod_lt _ (by decide))
  obtain ⟨hcspace, hplus, hminus⟩ := ne_of_isDigit hcdigit
  have hvalue : hexValue c * 16 + hexValue d = b := by
    rw [← UInt8.toNat_inj]
    simp only [hexValue, hc, hd, Option.getD_some, UInt8.toNat_add, UInt8.toNat_mul,
      UInt8.toNat_ofNat', UInt8.reduceToNat]
    omega
  simp [Util.scanByte, hcspace, hplus, hminus, hcdigit, hddigit, hvalue]

theorem hex_hexByte (b : UInt8) : Hex b (hexByte b) := by
  have hdigit : ∀ k : Fin 16, digitValue (if UInt8.ofNat k < 10 then 48 + UInt8.ofNat k
      else 87 + UInt8.ofNat k) = some k.val := by decide
  have hb := b.toNat_lt
  have hdiv := hdigit ⟨b.toNat / 16, by omega⟩
  have hmod := hdigit ⟨b.toNat % 16, Nat.mod_lt _ (by decide)⟩
  refine ⟨_, _, rfl, ?_, ?_⟩
  · rw [show b / 16 = UInt8.ofNat (b.toNat / 16) by
      rw [← UInt8.toNat_inj, UInt8.toNat_div, UInt8.toNat_ofNat']; simp; omega]
    exact hdiv
  · rw [show b % 16 = UInt8.ofNat (b.toNat % 16) by
      rw [← UInt8.toNat_inj, UInt8.toNat_mod, UInt8.toNat_ofNat']; simp; omega]
    exact hmod

/-! ## Formats -/

/-- A format reads all its bytes, or those in front of what is no separator. -/
theorem sscanf_bytesFormat {n : Nat} (rest : List UInt8) (h : HexText sep bs text) (hne : bs ≠ [])
    (hrest : bs.length = n ∨ bs.length < n ∧ rest.head? ≠ some sep) :
    sscanf (bytesFormat sep n) (text ++ rest) = bs := by
  obtain ⟨ws, hws, rfl⟩ := h
  rw [bytesFormat]
  induction hws generalizing n with
  | nil => exact absurd rfl hne
  | @cons b w bs ws hb hws ih =>
    cases hws with
    | nil =>
      obtain ⟨n, rfl⟩ : ∃ m, n = m + 1 := ⟨n - 1, by simp at hrest; omega⟩
      cases n with
      | zero => simp [sscanf, hb.scanByte]
      | succ n =>
        have hhead : rest.head? ≠ some sep := by simpa using hrest
        simp [List.replicate_succ, sscanf, hb.scanByte, hhead]
    | @cons b' w' bs ws hb' hws =>
      obtain ⟨n, rfl⟩ : ∃ m, n = m + 2 := ⟨n - 2, by simp at hrest; omega⟩
      have hnext := ih (n := n + 1) (by simp) (by simpa [Nat.add_right_cancel_iff] using hrest)
      rw [List.replicate_succ] at hnext
      rw [List.replicate_succ, List.replicate_succ, List.intersperse_cons_cons,
        List.intercalate_cons_cons, List.append_assoc, List.append_assoc, sscanf, hb.scanByte]
      simp only [sscanf, List.singleton_append, List.head?_cons, if_true, List.tail_cons]
      rw [hnext]

/-- With another separator only the first byte is read. -/
theorem sscanf_bytesFormat_of_ne {n : Nat} (sep' : UInt8) (rest : List UInt8)
    (h : HexText sep bs text) (hne : bs ≠ []) (hsep : sep ≠ sep') (hn : 1 < n)
    (hrest : 1 < bs.length ∨ rest = []) :
    (sscanf (bytesFormat sep' n) (text ++ rest)).length = 1 := by
  obtain ⟨ws, hws, rfl⟩ := h
  cases hws with
  | nil => exact absurd rfl hne
  | @cons b w bs ws hb hws =>
    have hfirst : HexText sep' [b] w := ⟨[w], .cons hb .nil, by simp⟩
    have hread : ∀ rest : List UInt8, rest.head? ≠ some sep' →
        (sscanf (bytesFormat sep' n) (w ++ rest)).length = 1 := by
      intro rest hrest
      rw [sscanf_bytesFormat rest hfirst (by simp) (.inr ⟨hn, hrest⟩)]
      rfl
    cases hws with
    | nil =>
      obtain rfl : rest = [] := hrest.resolve_left (by simp)
      rw [List.intercalate_singleton]
      exact hread [] (by simp)
    | @cons b' w' bs ws hb' hws =>
      rw [List.intercalate_cons_cons, List.append_assoc, List.append_assoc]
      exact hread _ (by simpa using hsep)

/-! ## The functions -/

theorem length_assign (indices : List Nat) (values : List UInt8) :
    (assign euiR indices values).length = euiR.length := by
  rw [assign]
  induction indices.zip values generalizing euiR with
  | nil => rfl
  | cons p ps ih => rw [List.foldl_cons, ih, List.length_set]

theorem assign_eight (heuiR : euiR.length = 8) (hbs : bs.length = 8) :
    assign euiR [0, 1, 2, 3, 4, 5, 6, 7] bs = bs := by
  match euiR, heuiR, bs, hbs with
  | [_, _, _, _, _, _, _, _], _, [_, _, _, _, _, _, _, _], _ => rfl

theorem assign_six (heuiR : euiR.length = 8) (a b c d e f : UInt8) :
    ((assign euiR [0, 1, 2, 5, 6, 7] [a, b, c, d, e, f]).set 3 0xFF).set 4 0xFE =
      [a, b, c, 0xFF, 0xFE, d, e, f] := by
  match euiR, heuiR with
  | [_, _, _, _, _, _, _, _], _ => rfl

theorem parseEui64_eight (heuiR : euiR.length = 8) (hsep : sep = colon ∨ sep = dash)
    (hbs : bs.length = 8) (h : HexText sep bs text) (rest : List UInt8) :
    parseEui64 (text ++ rest) euiR = (0, bs) := by
  have hne : bs ≠ [] := List.ne_nil_of_length_pos (by omega)
  have hread := sscanf_bytesFormat (n := 8) rest h hne (.inl hbs)
  rw [parseEui64]
  obtain rfl | rfl := hsep
  · simp only [hread, hbs, if_true, assign_eight heuiR hbs]
  · have hcolon := sscanf_bytesFormat_of_ne (n := 8) colon rest h hne (by decide)
      (by decide) (.inl (by omega))
    simp only [hcolon, hread, hbs, Nat.reduceEqDiff, if_false, if_true]
    rw [assign_eight (by rw [length_assign, heuiR]) hbs]

theorem formatEui64_eq {eui : List UInt8} (heui : eui.length = 8) :
    HexText colon eui (formatEui64 eui) := by
  refine ⟨eui.map hexByte, ?_, ?_⟩
  · rw [List.forall₂_map_right_iff, List.forall₂_same]
    exact fun b _ => hex_hexByte b
  · match eui, heui with
    | [_, _, _, _, _, _, _, _], _ => rfl

/-- **What `parse_eui64` reads**, whatever the eight bytes have been before: what `format_eui64`
prints, and addresses in either case of letters. -/
theorem parseEui64_reads (heuiR : euiR.length = 8) : ReadsEui64 euiR where
  eight sep bs text rest hsep hbs h := parseEui64_eight heuiR hsep hbs h rest
  printed eui heui := by
    have hread := parseEui64_eight heuiR (.inl rfl) heui (formatEui64_eq heui) []
    rwa [List.append_nil] at hread
  six a b c d e f text h := by
    have hall := sscanf_bytesFormat (n := 6) [] h (by simp) (.inl rfl)
    have hcolon := sscanf_bytesFormat (n := 8) [] h (by simp)
      (.inr ⟨by simp, by simp⟩)
    have hdash := sscanf_bytesFormat_of_ne (n := 8) dash [] h (by simp) (by decide)
      (by decide) (.inr rfl)
    rw [List.append_nil] at hall hcolon hdash
    rw [parseEui64]
    simp only [hall, hcolon, hdash, List.length_cons, List.length_nil]
    simp only [Nat.reduceAdd, Nat.reduceEqDiff, if_false, if_true]
    rw [assign_six (by rw [length_assign, length_assign, heuiR])]
  dashes bs text hbs h := by
    by_cases hne : bs = []
    · subst hne
      obtain ⟨ws, hws, rfl⟩ := h
      cases hws
      rfl
    · have hdash := sscanf_bytesFormat (n := 8) [] h hne (.inr ⟨hbs, by simp⟩)
      have hcolon := sscanf_bytesFormat_of_ne (n := 8) colon [] h hne (by decide) (by decide)
        (.inr rfl)
      have hsix := sscanf_bytesFormat_of_ne (n := 6) colon [] h hne (by decide) (by decide)
        (.inr rfl)
      rw [List.append_nil] at hdash hcolon hsix
      rw [parseEui64]
      simp [hcolon, hsix, hdash, Nat.ne_of_lt hbs]

theorem parseEui64_reads_address :
    parseEui64 (ascii "00:1a:2B") [0, 0, 0, 0, 0, 0, 0, 0] = (-1, [0, 0x1A, 0x2B, 0, 0, 0, 0, 0]) ∧
    parseEui64 (ascii "00:1a:2B:3c:4d:5e") [0, 0, 0, 0, 0, 0, 0, 0] =
      (0, [0, 0x1A, 0x2B, 0xFF, 0xFE, 0x3C, 0x4D, 0x5E]) := by
  refine ⟨by decide, (parseEui64_reads (by decide)).six _ _ _ _ _ _ _
    ⟨[ascii "00", ascii "1a", ascii "2B", ascii "3c", ascii "4d", ascii "5e"], ?_, by decide⟩⟩
  refine .cons ⟨48, 48, ?_⟩ (.cons ⟨49, 97, ?_⟩ (.cons ⟨50, 66, ?_⟩ (.cons ⟨51, 99, ?_⟩
    (.cons ⟨52, 100, ?_⟩ (.cons ⟨53, 101, ?_⟩ .nil))))) <;> decide

end Twd.Util
