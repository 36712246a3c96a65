import Twd.Util.Net
import Twd.Util.Proofs.PrefixProofs

/-!
# Proofs about prefixes as text

What `format_prefix` writes is split at its slash again, and `parse_net` reads the address and the
length that are on both sides. What `parse_net` leaves is masked.
-/

namespace Twd

open Chars Strtol

variable {env : InetText}

/-- The numbers of an octet are read as they are written: they do not start with a zero. -/
theorem strtol_text {n : Nat} (hn : n < 256) : strtol 0 (Decimal.text n) = ((n : Int), []) := by
  have hall : ∀ n < 256, strtol 0 (Decimal.text n) = ((n : Int), []) := by decide +kernel
  exact hall n hn

theorem length_text {n : Nat} (hn : n < 256) : (Decimal.text n).length ≤ 3 := by
  have hall : ∀ n < 256, (Decimal.text n).length ≤ 3 := by decide +kernel
  exact hall n hn

theorem parseLength_text {n : Nat} {max : Int} (hn : n < 256) (hmax : (n : Int) ≤ max) :
    parseLength (Decimal.text n) max = some (n : Int) := by
  have hnot : ¬ (([] : List UInt8) ≠ [] ∨ (n : Int) < 0 ∨ max < n) := by
    simp only [ne_eq, not_true_eq_false, false_or]
    omega
  simp only [parseLength, strtol_text hn, hnot, if_false]

theorem parseLength_spec {text : List UInt8} {max plen : Int}
    (h : parseLength text max = some plen) : 0 ≤ plen ∧ plen ≤ max := by
  simp only [parseLength] at h
  split_ifs at h with hbad
  simp only [not_or, not_lt] at hbad
  obtain rfl := Option.some.inj h
  exact ⟨hbad.2.1, hbad.2.2⟩

theorem Address4.v4mapped_mapped (a : Address4) : v4mapped a.mapped = true := by
  simp [v4mapped, Address4.mapped, v4tov6, v4Prefix]

/-- An address among the IPv4 addresses is one. -/
theorem Address.mapped_v4 {p : Address} (h : v4mapped p = true) : p.v4.mapped = p := by
  rw [v4mapped, decide_eq_true_eq] at h
  refine Address.ext ?_
  change v4Prefix.take 12 ++ (p.bytes.drop 12).take 4 = p.bytes
  have hrest : (p.bytes.drop 12).length ≤ 4 := by simp [p.length_bytes]
  rw [← h, List.take_of_length_le hrest, List.take_append_drop]

/-! ## Writing -/

theorem appendLength_eq {buf : List UInt8} {n : Nat} (hbuf : buf.length < inet6AddrStrLen)
    (hn : n < 256) : appendLength buf n = buf ++ slash :: Decimal.text n := by
  have hlen := length_text hn
  rw [appendLength, List.take_of_length_le]
  rw [List.length_cons]
  unfold inet6AddrStrLen at *
  omega

theorem nul_free_appendLength {buf : List UInt8} {n : Nat} (hbuf : buf.length < inet6AddrStrLen)
    (hn : n < 256) (h : 0 ∉ buf) : 0 ∉ appendLength buf n := by
  rw [appendLength_eq hbuf hn, List.mem_append, List.mem_cons]
  rintro (hmem | hslash | hmem)
  · exact h hmem
  · exact absurd hslash (by decide)
  · exact absurd (Decimal.digit_of_mem_text hmem).1 (by decide)

theorem formatPrefix_nul_free {p : Address} (henv : env.Faithful p) (plen : UInt8) :
    0 ∉ formatPrefix env p plen := by
  have hlt := plen.toNat_lt
  unfold formatPrefix
  split_ifs
  · exact nul_free_appendLength henv.length4 (by omega) henv.nul_free4
  · exact nul_free_appendLength henv.length6 hlt henv.nul_free6

/-! ## Reading -/

/-- What follows the first slash is read as the length. -/
theorem parseNetParts_split {buf tail : List UInt8} (hbuf : buf.length < inet6AddrStrLen)
    (hslash : slash ∉ buf) :
    parseNetParts env (buf ++ slash :: tail) =
      match env.pton4 buf with
      | some ina => (parseLength tail 32).map fun plen => (ina.mapped, plen + 96, .inet)
      | none =>
        match env.pton6 buf with
        | some ina6 => (parseLength tail 128).map fun plen => (ina6, plen, .inet6)
        | none => none := by
  have hmem : slash ∈ buf ++ slash :: tail := by simp
  have hdefault : buf ++ slash :: tail ≠ ascii "default" := by
    intro h
    rw [h] at hmem
    exact absurd hmem (by decide)
  have hne : ∀ b ∈ buf, decide (b ≠ slash) = true :=
    fun b hb => decide_eq_true fun heq => hslash (heq ▸ hb)
  have htake : (buf ++ slash :: tail).takeWhile (· ≠ slash) = buf := by
    rw [List.takeWhile_append_of_pos hne, List.takeWhile_cons_of_neg (by simp), List.append_nil]
  have hdrop : (buf ++ slash :: tail).dropWhile (· ≠ slash) = slash :: tail := by
    rw [List.dropWhile_append_of_pos hne, List.dropWhile_cons_of_neg (by simp)]
  have hfits : ¬ inet6AddrStrLen ≤ buf.length := Nat.not_le_of_lt hbuf
  simp only [parseNetParts, hdefault, if_false, hmem, not_true_eq_false, htake, hdrop,
    List.tail_cons, hfits]
  cases env.pton4 buf with
  | some ina => cases parseLength tail 32 <;> rfl
  | none =>
    cases env.pton6 buf with
    | some ina6 => cases parseLength tail 128 <;> rfl
    | none => rfl

/-- The text of a prefix is read as its address, its length and the family it is written in. -/
theorem parseNetParts_formatPrefix {p : Address} (henv : env.Faithful p) {plen : UInt8}
    (hplen : plen.toNat ≤ 128) :
    parseNetParts env (formatPrefix env p plen) =
      some (p, (plen.toNat : Int), familyOf p plen) := by
  unfold formatPrefix familyOf
  split_ifs with h
  · have hn : plen.toNat - 96 < 256 := by omega
    rw [appendLength_eq henv.length4 hn,
      parseNetParts_split henv.length4 henv.no_slash4, henv.pton4,
      parseLength_text hn (by omega)]
    have hsum : ((plen.toNat - 96 : Nat) : Int) + 96 = plen.toNat := by omega
    simp only [Option.map_some, hsum, Address.mapped_v4 h.2]
  · rw [appendLength_eq henv.length6 plen.toNat_lt,
      parseNetParts_split henv.length6 henv.no_slash6, henv.disjoint, henv.pton6]
    simp only [parseLength_text plen.toNat_lt (show (plen.toNat : Int) ≤ 128 by omega),
      Option.map_some]

theorem parseAddress_inet {address : List UInt8} {p : Address}
    (h : parseAddress env address = some (p, .inet)) : v4mapped p = true := by
  unfold parseAddress at h
  cases h4 : env.pton4 address with
  | some ina =>
    rw [h4] at h
    cases h
    exact ina.v4mapped_mapped
  | none =>
    rw [h4] at h
    cases h6 : env.pton6 address with
    | some ina6 =>
      rw [h6] at h
      cases h
    | none =>
      rw [h6] at h
      cases h

/-- The address and the length that `parse_net` masks: the length is one of an IPv6 prefix, and of
an IPv4 prefix when the family says so. -/
theorem parseNetParts_spec {net : List UInt8} {p : Address} {plen : Int} {af : NetFamily}
    (h : parseNetParts env net = some (p, plen, af)) :
    0 ≤ plen ∧ plen ≤ 128 ∧ (af = .inet → v4mapped p = true ∧ 96 ≤ plen) := by
  unfold parseNetParts at h
  by_cases hdefault : net = ascii "default"
  · rw [if_pos hdefault] at h
    cases h
    exact ⟨by decide, by decide, nofun⟩
  rw [if_neg hdefault] at h
  by_cases hslash : slash ∉ net
  · rw [if_pos hslash] at h
    obtain ⟨⟨pre, family⟩, haddr, heq⟩ := Option.bind_eq_some_iff.mp h
    cases heq
    exact ⟨by decide, le_rfl, fun hfamily => ⟨parseAddress_inet (hfamily ▸ haddr), by decide⟩⟩
  rw [if_neg hslash] at h
  dsimp only at h
  split_ifs at h
  cases h4 : env.pton4 (net.takeWhile (· ≠ slash)) with
  | some ina =>
    rw [h4] at h
    obtain ⟨n, hn, heq⟩ := Option.bind_eq_some_iff.mp h
    cases heq
    have hspec := parseLength_spec hn
    exact ⟨by omega, by omega, fun _ => ⟨ina.v4mapped_mapped, by omega⟩⟩
  | none =>
    cases h6 : env.pton6 (net.takeWhile (· ≠ slash)) with
    | some ina6 =>
      rw [h4, h6] at h
      obtain ⟨n, hn, heq⟩ := Option.bind_eq_some_iff.mp h
      cases heq
      have hspec := parseLength_spec hn
      exact ⟨hspec.1, hspec.2, nofun⟩
    | none =>
      rw [h4, h6] at h
      cases h

theorem parseNet_eq {s : CString} {p r : Address} {plen : UInt8} {af : NetFamily}
    (h : parseNetParts env s.bytes = some (p, (plen.toNat : Int), af))
    (hmask : maskPrefix p plen = some r.bytes) : parseNet env s = some ⟨r.bytes, plen, af⟩ := by
  have hplen : UInt8.ofNat (plen.toNat : Int).toNat = plen := by
    rw [Int.toNat_natCast, UInt8.ofNat_toNat]
  simp only [parseNet, h, Option.bind_eq_bind, Option.bind_some, hplen, hmask]

/-- The addresses for documentation. -/
def documentation : Address := ⟨0x20 :: 0x01 :: 0x0D :: 0xB8 :: List.replicate 12 0, rfl⟩

/-- The texts of this address, and of its last octets. -/
def documentationText : InetText where
  pton4 s := if s = ascii "0.0.0.0" then some ⟨[0, 0, 0, 0], rfl⟩ else none
  pton6 s := if s = ascii "2001:db8::" then some documentation else none
  ntop4 _ := ascii "0.0.0.0"
  ntop6 _ := ascii "2001:db8::"

/-- **What `parse_net` accepts**: a prefix of at most 128 bits with zeros behind them, which is
written so that it is read as the same prefix again. -/
theorem parseNet_canonical (env : InetText) (net : CString) (r : Net)
    (h : parseNet env net = some r) :
    ∃ p : Address, r.pre = p.bytes ∧ r.plen.toNat ≤ 128 ∧ maskPrefix p r.plen = some p.bytes ∧
      (r.family = .inet → v4mapped p = true ∧ 96 ≤ r.plen.toNat) ∧
      (env.Faithful p → ∃ s : CString, s.bytes = formatPrefix env p r.plen ∧
        parseNet env s = some ⟨r.pre, r.plen, familyOf p r.plen⟩) := by
  unfold parseNet at h
  obtain ⟨⟨q, plen, af⟩, hparts, h⟩ := Option.bind_eq_some_iff.mp h
  obtain ⟨masked, hmasked, h⟩ := Option.bind_eq_some_iff.mp h
  obtain rfl := Option.some.inj h
  obtain ⟨hpos, hle, hfamily⟩ := parseNetParts_spec hparts
  have hplen : (UInt8.ofNat plen.toNat).toNat = plen.toNat := by
    rw [UInt8.toNat_ofNat']
    omega
  obtain ⟨p, hp, hbit⟩ := maskPrefix_spec q (UInt8.ofNat plen.toNat)
  obtain rfl := Option.some.inj (hmasked.symm.trans hp)
  have hagree : agree plen.toNat p q := by
    intro i hi
    rw [hbit i, hplen, decide_eq_true hi, Bool.true_and]
  have hfixed : maskPrefix p (UInt8.ofNat plen.toNat) = some p.bytes := by
    rw [(maskPrefix_congr_iff p q _).mpr ?_, hp]
    exact agree_antitone (by rw [hplen]; exact Nat.min_le_left _ _) hagree
  have hle' : (UInt8.ofNat plen.toNat).toNat ≤ 128 := by omega
  refine ⟨p, rfl, hle', hfixed, fun haf => ?_, fun henv => ?_⟩
  · obtain ⟨hv4, h96⟩ := hfamily haf
    have h96' : 96 ≤ (UInt8.ofNat plen.toNat).toNat := by omega
    refine ⟨(v4mapped_iff p).mpr ?_, h96'⟩
    have hq := (v4mapped_iff q).mp hv4
    exact (agree 96).trans (agree_antitone (by omega) hagree) hq
  · refine ⟨⟨_, formatPrefix_nul_free henv _⟩, rfl, ?_⟩
    exact parseNet_eq (parseNetParts_formatPrefix henv hle') hfixed

theorem parseNet_canonical_documentation :
    ∃ p : Address, documentation.bytes = p.bytes ∧ (33 : UInt8).toNat ≤ 128 ∧
      maskPrefix p 33 = some p.bytes ∧
      (NetFamily.inet6 = .inet → v4mapped p = true ∧ 96 ≤ (33 : UInt8).toNat) ∧
      (documentationText.Faithful p → ∃ s : CString, s.bytes = formatPrefix documentationText p 33 ∧
        parseNet documentationText s = some ⟨documentation.bytes, 33, familyOf p 33⟩) :=
  parseNet_canonical documentationText ⟨ascii "2001:db8::/0x21", by decide⟩
    ⟨documentation.bytes, 33, .inet6⟩ (by decide)

end Twd
