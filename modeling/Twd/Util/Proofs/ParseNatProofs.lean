import Twd.Util.Proofs.ParseProofs

/-!
# Proofs about reading integers

`strtol` stops behind a constant, so what is left says whether the string is one.
-/

namespace Twd.Util

open Strtol

variable {string w post rest : List UInt8} {neg : Bool} {n base : Nat}

theorem not_isDigit_of_isBlank {c : UInt8} (h : isBlank c) (base : Nat) :
    isDigit base c = false := by
  simp only [isBlank, decide_eq_true_eq] at h
  rcases h with rfl | rfl <;> rfl

theorem Constant.head_isDigit (h : Constant w n) : ∃ d ds, w = d :: ds ∧ isDigit 16 d := by
  cases h with
  | decimal hd hds => exact ⟨_, _, rfl, isDigit_mono (hds _ (List.mem_cons_self ..)) (by decide)⟩
  | octal => exact ⟨_, _, rfl, by decide⟩
  | hexadecimal => exact ⟨_, _, rfl, by decide⟩

/-- The digits behind the prefix that is read. -/
theorem Constant.readPrefix (h : Constant w n) (hpost : ∀ c ∈ post, isBlank c) :
    ∃ base ds, Strtol.readPrefix 0 (w ++ post) = (base, ds ++ post) ∧ ds ≠ [] ∧
      (∀ c ∈ ds, isDigit base c) ∧ ofDigits base ds = n := by
  cases h with
  | @decimal d ds hd hds =>
    refine ⟨10, d :: ds, ?_, by simp, hds, rfl⟩
    unfold Strtol.readPrefix
    split
    · exact absurd (List.cons.inj ‹_›).1 hd
    · exact absurd (List.cons.inj ‹_›).1 hd
    · rfl
  | @octal ds hds =>
    have hzero : isDigit 8 48 = true := by decide
    refine ⟨8, 48 :: ds, ?_, by simp, List.forall_mem_cons.mpr ⟨hzero, hds⟩, rfl⟩
    unfold Strtol.readPrefix
    split
    · rename_i x d rest heq
      -- What follows the zero is an octal digit or a blank, and no `x`.
      have hx : tolower x ≠ 120 := by
        have hmem : x ∈ ds ++ post := by
          have htail : ds ++ post = x :: d :: rest := (List.cons.inj heq).2
          rw [htail]
          exact List.mem_cons_self ..
        rcases List.mem_append.mp hmem with hmem | hmem
        · have hdigit := hds x hmem
          intro hx
          rw [isDigit, digitValue_of_tolower hx] at hdigit
          exact absurd hdigit (by decide)
        · have hblank := hpost x hmem
          simp only [isBlank, decide_eq_true_eq] at hblank
          rcases hblank with rfl | rfl <;> decide
      rw [if_neg fun h => hx h.1]
      rfl
    · rfl
    · rename_i h1 h2
      exact absurd rfl (h2 _)
  | @hexadecimal x d ds hx hds =>
    refine ⟨16, d :: ds, ?_, by simp, hds, rfl⟩
    have hd := hds d (List.mem_cons_self ..)
    simp [Strtol.readPrefix, hx, hd]

theorem scan_of_signedConstant {pre sign : List UInt8} (hpre : ∀ c ∈ pre, isspace c)
    (hsign : Sign sign neg) (hw : Constant w n) (hpost : ∀ c ∈ post, isBlank c) :
    scan 0 (pre ++ (sign ++ (w ++ post))) = some (neg, n, post) := by
  obtain ⟨base, ds, hprefix, hne, hds, hvalue⟩ := hw.readPrefix hpost
  obtain ⟨d, ds', rfl, hd⟩ := hw.head_isDigit
  obtain ⟨hspace, hplus, hminus⟩ := ne_of_isDigit hd
  have hspaces : (pre ++ (sign ++ (d :: ds' ++ post))).dropWhile isspace =
      sign ++ (d :: ds' ++ post) := by
    refine (span_append hpre ?_).2
    intro c hc
    cases hsign with
    | absent =>
      obtain rfl := Option.some.inj hc
      exact hspace
    | plus =>
      obtain rfl := Option.some.inj hc
      rfl
    | minus =>
      obtain rfl := Option.some.inj hc
      rfl
  have hread : readSign (sign ++ (d :: ds' ++ post)) = (neg, d :: ds' ++ post) := by
    cases hsign with
    | absent =>
      rw [List.nil_append, List.cons_append]
      unfold readSign
      split
      · exact absurd (List.cons.inj ‹_›).1 hminus
      · exact absurd (List.cons.inj ‹_›).1 hplus
      · rfl
    | plus => rfl
    | minus => rfl
  obtain ⟨htake, hdrop⟩ := span_append (p := isDigit base) hds
    fun c hc => not_isDigit_of_isBlank (hpost c (List.mem_of_head? hc)) base
  obtain ⟨e, es, rfl⟩ := List.exists_cons_of_ne_nil hne
  simp only [scan, hspaces, hread, hprefix, htake, hdrop, hvalue]

theorem constant_of_readPrefix {s u : List UInt8} (h : Strtol.readPrefix 0 s = (base, u))
    (hne : u.takeWhile (isDigit base) ≠ []) :
    ∃ w, Constant w (ofDigits base (u.takeWhile (isDigit base))) ∧
      s = w ++ u.dropWhile (isDigit base) := by
  have hdigits : ∀ c ∈ u.takeWhile (isDigit base), isDigit base c :=
    fun c hc => List.mem_takeWhile_imp hc
  have hsplit : u = u.takeWhile (isDigit base) ++ u.dropWhile (isDigit base) :=
    List.takeWhile_append_dropWhile.symm
  generalize u.takeWhile (isDigit base) = ds at *
  generalize u.dropWhile (isDigit base) = rest at *
  obtain ⟨d, ds, rfl⟩ := List.exists_cons_of_ne_nil hne
  unfold Strtol.readPrefix at h
  split at h
  · rename_i x e tail
    split at h
    · rename_i hhex
      obtain ⟨rfl, rfl⟩ := Prod.mk.inj h
      exact ⟨48 :: x :: d :: ds, .hexadecimal hhex.1 hdigits, by rw [hsplit]; rfl⟩
    · obtain ⟨rfl, rfl⟩ := Prod.mk.inj h
      obtain ⟨rfl, -⟩ := List.cons.inj hsplit
      exact ⟨48 :: ds, .octal fun c hc => hdigits c (List.mem_cons_of_mem _ hc), hsplit⟩
  · obtain ⟨rfl, rfl⟩ := Prod.mk.inj h
    obtain ⟨rfl, -⟩ := List.cons.inj hsplit
    exact ⟨48 :: ds, .octal fun c hc => hdigits c (List.mem_cons_of_mem _ hc), hsplit⟩
  · rename_i hno
    obtain ⟨rfl, rfl⟩ := Prod.mk.inj h
    subst hsplit
    have hd : d ≠ 48 := by
      rintro rfl
      exact hno _ rfl
    exact ⟨d :: ds, .decimal hd hdigits, rfl⟩

theorem sign_of_readSign {s u : List UInt8} (h : readSign s = (neg, u)) :
    ∃ sign, Sign sign neg ∧ s = sign ++ u := by
  unfold readSign at h
  split at h
  · obtain ⟨rfl, rfl⟩ := Prod.mk.inj h
    exact ⟨[45], .minus, rfl⟩
  · obtain ⟨rfl, rfl⟩ := Prod.mk.inj h
    exact ⟨[43], .plus, rfl⟩
  · obtain ⟨rfl, rfl⟩ := Prod.mk.inj h
    exact ⟨[], .absent, rfl⟩

theorem signedConstant_of_scan (h : scan 0 string = some (neg, n, rest))
    (hrest : ∀ c ∈ rest, isBlank c) : SignedConstant string neg n := by
  have hpre : ∀ c ∈ string.takeWhile isspace, isspace c := fun c hc => List.mem_takeWhile_imp hc
  have hsplit : string = string.takeWhile isspace ++ string.dropWhile isspace :=
    List.takeWhile_append_dropWhile.symm
  rw [scan] at h
  cases hread : readSign (string.dropWhile isspace) with | mk neg' s =>
  cases hprefix : Strtol.readPrefix 0 s with | mk base u =>
  simp only [hread, hprefix] at h
  split at h
  · cases h
  · rename_i hne
    obtain ⟨rfl, hn, rfl⟩ : neg' = neg ∧ ofDigits base (u.takeWhile (isDigit base)) = n ∧
        u.dropWhile (isDigit base) = rest := by simpa using h
    obtain ⟨sign, hsign, hs⟩ := sign_of_readSign hread
    obtain ⟨w, hw, hu⟩ := constant_of_readPrefix hprefix hne
    rw [hn] at hw
    rw [hsplit, hs, hu]
    exact .mk hpre hsign hw hrest

/-- What `parse_nat` makes of the number that `strtol` finds. -/
theorem parseNat_of_scan (h : scan 0 string = some (neg, n, rest))
    (hrest : ∀ c ∈ rest, isBlank c) :
    parseNat string = if (neg = true → n = 0) ∧ n ≤ intMax then (n : Int) else -1 := by
  have hend : rest.dropWhile isBlank = [] := List.dropWhile_eq_nil_iff.mpr hrest
  cases neg <;>
    simp only [parseNat, strtol, h, hend, ne_eq, not_true_eq_false, if_false, intMax, longMax] <;>
    grind

theorem parseNat_of_rest (h : (strtol 0 string).2.dropWhile isBlank ≠ []) :
    parseNat string = -1 := by
  rw [parseNat]
  exact if_pos h

theorem SignedConstant.scan (h : SignedConstant string neg n) :
    ∃ rest, Strtol.scan 0 string = some (neg, n, rest) ∧ ∀ c ∈ rest, isBlank c := by
  obtain ⟨hpre, hsign, hw, hpost⟩ := h
  exact ⟨_, scan_of_signedConstant hpre hsign hw hpost, hpost⟩

theorem scan_of_blank (h : ∀ c ∈ string, isBlank c) : scan 0 string = none := by
  have hspaces : string.dropWhile isspace = [] := by
    refine List.dropWhile_eq_nil_iff.mpr fun c hc => ?_
    have hblank := h c hc
    simp only [isBlank, decide_eq_true_eq] at hblank
    rcases hblank with rfl | rfl <;> rfl
  simp only [scan, hspaces]
  rfl

theorem parsesNat_of_rejected (h : parseNat string = -1) (hblank : ¬ ∀ c ∈ string, isBlank c)
    (hno : ∀ neg n, SignedConstant string neg n → ¬ ((neg = true → n = 0) ∧ n ≤ intMax)) :
    ParsesNat string := by
  refine ⟨fun n => ?_, fun _ => h⟩
  rw [h]
  constructor
  · intro hn
    omega
  · rintro (⟨-, hall⟩ | ⟨neg, hconstant, hfits⟩)
    · exact absurd hall hblank
    · exact absurd hfits (hno neg n hconstant)

theorem parsesNat_of_not_scan (hscan : scan 0 string = none) : ParsesNat string := by
  have hstrtol : strtol 0 string = (0, string) := by rw [strtol, hscan]
  have hno : ∀ neg n, ¬ SignedConstant string neg n := by
    intro neg n h
    obtain ⟨rest, hrest, -⟩ := h.scan
    rw [hscan] at hrest
    cases hrest
  by_cases hblank : ∀ c ∈ string, isBlank c
  · have hzero : parseNat string = 0 := by
      have hend : string.dropWhile isBlank = [] := List.dropWhile_eq_nil_iff.mpr hblank
      simp [parseNat, hstrtol, hend]
    refine ⟨fun n => ?_, fun hneg => by omega⟩
    rw [hzero]
    constructor
    · intro hn
      exact .inl ⟨by omega, hblank⟩
    · rintro (⟨rfl, -⟩ | ⟨neg, h, -⟩)
      · rfl
      · exact absurd h (hno neg n)
  · refine parsesNat_of_rejected (parseNat_of_rest ?_) hblank fun neg n h => absurd h (hno neg n)
    rw [hstrtol]
    exact fun hend => hblank (isBlank_of_dropWhile hend)

theorem parsesNat_of_scan (hscan : scan 0 string = some (neg, n, rest)) : ParsesNat string := by
  have hblank : ¬ ∀ c ∈ string, isBlank c := by
    intro hblank
    rw [scan_of_blank hblank] at hscan
    cases hscan
  -- A constant that the string is has been found.
  have hunique : ∀ neg' n', SignedConstant string neg' n' →
      neg' = neg ∧ n' = n ∧ ∀ c ∈ rest, isBlank c := by
    intro neg' n' h
    obtain ⟨rest', hscan', hrest'⟩ := h.scan
    rw [hscan] at hscan'
    obtain ⟨rfl, rfl, rfl⟩ : neg = neg' ∧ n = n' ∧ rest = rest' := by simpa using hscan'
    exact ⟨rfl, rfl, hrest'⟩
  by_cases hrest : ∀ c ∈ rest, isBlank c
  · have hvalue := parseNat_of_scan hscan hrest
    by_cases hfits : (neg = true → n = 0) ∧ n ≤ intMax
    · rw [if_pos hfits] at hvalue
      refine ⟨fun m => ?_, fun hneg => by omega⟩
      rw [hvalue]
      constructor
      · intro hm
        obtain rfl : n = m := by omega
        exact .inr ⟨neg, signedConstant_of_scan hscan hrest, hfits⟩
      · rintro (⟨-, hall⟩ | ⟨neg', h, -⟩)
        · exact absurd hall hblank
        · rw [(hunique neg' m h).2.1]
    · rw [if_neg hfits] at hvalue
      refine parsesNat_of_rejected hvalue hblank fun neg' n' h => ?_
      obtain ⟨rfl, rfl, -⟩ := hunique neg' n' h
      exact hfits
  · refine parsesNat_of_rejected (parseNat_of_rest ?_) hblank fun neg' n' h =>
      absurd (hunique neg' n' h).2.2 hrest
    have hstrtol : (strtol 0 string).2 = rest := by
      rw [strtol, hscan]
      cases neg <;> rfl
    rw [hstrtol]
    exact fun hend => hrest (isBlank_of_dropWhile hend)

/-- **What `parse_nat` reads**: the integer constants from 0 to the largest `int`, in any of the
three bases, and blanks alone. -/
theorem parseNat_parses (string : List UInt8) : ParsesNat string := by
  cases hscan : scan 0 string with
  | none => exact parsesNat_of_not_scan hscan
  | some r => exact parsesNat_of_scan hscan

/-- Octal, hexadecimal and decimal, a digit that is not octal, and no digit at all. -/
example : parseNat (ascii " 017") = 15 ∧ parseNat (ascii "+0x1F ") = 31 ∧
    parseNat (ascii "-1") = -1 ∧ parseNat (ascii "08") = -1 ∧ parseNat (ascii " ") = 0 := by decide

end Twd.Util
