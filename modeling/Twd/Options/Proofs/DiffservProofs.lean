import Twd.Options.Options

/-!
# When the reported codepoint is the requested one

`parse_ipqos` has values up to 255 and -1 for no value; `iptos2str` takes -1 and every value above
64 for 0.
-/

namespace Twd

open Getopt Strtol

/-! ## From strings to values -/

variable {s : Word}

/-- The entry that the loop of `parse_ipqos` finds is the only one with the name. -/
theorem find_ipqos_eq {e : IpqosData} (he : e ∈ ipqos) (h : sameIgnoringCase s e.name = true) :
    (ipqos.find? fun e => sameIgnoringCase s e.name) = some e := by
  cases hfind : ipqos.find? fun e => sameIgnoringCase s e.name with
  | none => exact absurd h (List.find?_eq_none.mp hfind e he)
  | some e' =>
    have he' := List.mem_of_find?_eq_some hfind
    have h' : sameIgnoringCase s e'.name = true :=
      List.find?_some (p := fun e : IpqosData => sameIgnoringCase s e.name) hfind
    have hsame : sameIgnoringCase e'.name e.name = true := by
      simp only [sameIgnoringCase, decide_eq_true_eq] at h h' ⊢
      exact h'.symm.trans h
    rw [ipqos_name_inj e' he' e he hsame]

/-- `parse_ipqos` returns what the string denotes, and -1 if that is nothing. -/
theorem parseIpqos_eq_iff {v : Int} (hv : v ≠ -1) : parseIpqos (some s) = v ↔ Denotes s v := by
  constructor
  · intro h
    unfold parseIpqos at h
    cases hfind : ipqos.find? fun e => sameIgnoringCase s e.name with
    | some e =>
      simp only [hfind] at h
      subst h
      exact .name (List.mem_of_find?_eq_some hfind)
        (List.find?_some (p := fun e : IpqosData => sameIgnoringCase s e.name) hfind)
    | none =>
      simp only [hfind] at h
      split_ifs at h with hbad
      · exact absurd h.symm hv
      · simp only [not_or, not_not, Int.not_lt] at hbad
        obtain ⟨hne, hep, h0, h255⟩ := hbad
        refine .number ?_ hne (Prod.ext h hep) (h ▸ h0) (h ▸ h255)
        intro e he
        simpa using List.find?_eq_none.mp hfind e he
  · intro h
    cases h with
    | name he h => rw [parseIpqos, find_ipqos_eq he h]
    | number hno hne h h0 h255 =>
      have hfind : (ipqos.find? fun e => sameIgnoringCase s e.name) = none :=
        List.find?_eq_none.mpr fun e he => by rw [hno e he]; exact Bool.false_ne_true
      simp only [parseIpqos, hfind, h]
      exact if_neg (by simp [hne]; omega)

theorem Denotes.bounds {v : Int} (h : Denotes s v) : 0 ≤ v ∧ v ≤ 255 := by
  cases h with
  | name he _ => exact ipqos_value_mem _ he
  | number _ _ _ h0 h255 => exact ⟨h0, h255⟩

theorem parseIpqos_bounds (s : Word) : -1 ≤ parseIpqos (some s) ∧ parseIpqos (some s) ≤ 255 := by
  by_cases hv : parseIpqos (some s) = -1
  · omega
  · have := ((parseIpqos_eq_iff hv).mp rfl).bounds
    omega

/-! ## From values to strings -/

/-- The values up to 64 come back from their texts. -/
theorem parseIpqos_iptos2str {v : Int} (h0 : 0 ≤ v) (h64 : v ≤ 64) :
    parseIpqos (some (iptos2str v)) = v := by
  have hall : ∀ n ∈ List.range 65, parseIpqos (some (iptos2str n)) = n := by decide
  have hv := hall v.toNat (List.mem_range.mpr (by omega))
  rwa [Int.toNat_of_nonneg h0] at hv

/-- All other values come back as 0. -/
theorem parseIpqos_iptos2str_of_not {v : Int} (h : ¬ (0 ≤ v ∧ v ≤ 64)) :
    parseIpqos (some (iptos2str v)) = 0 := by
  have hclamp : iptos2str v = iptos2str 0 := by
    simp only [iptos2str]
    rw [if_pos (by omega), if_neg (by decide)]
  rw [hclamp]
  exact parseIpqos_iptos2str (by decide) (by decide)

/-! ## The two together -/

/-- The option's value survives its way through an unsigned 32-bit member. -/
theorem toInt_ofInt_parseIpqos (s : Word) :
    (BitVec.ofInt 32 (parseIpqos (some s))).toInt = parseIpqos (some s) := by
  have h := parseIpqos_bounds s
  rw [BitVec.toInt_ofInt]
  exact Int.bmod_eq_of_le (by omega) (by omega)

theorem reportsCodepoint_iff (o : TwdOptions) (s : Word) :
    ReportsCodepoint o s ↔
      parseIpqos (some (iptos2str (parseIpqos (some s)))) = parseIpqos (some s) := by
  have hprinted : ∀ o', withDiffserv o s = .ok o' →
      printedDscp o' = iptos2str (parseIpqos (some s)) := by
    intro o' ho'
    cases ho'
    exact congrArg iptos2str (toInt_ofInt_parseIpqos s)
  constructor
  · intro h
    by_cases hv : parseIpqos (some s) = -1
    · have hr := h.rejected _ rfl hv
      rw [hprinted _ rfl] at hr
      exact hr.trans hv.symm
    · have ha := h.accepted _ rfl hv
      rwa [hprinted _ rfl] at ha
  · intro h
    constructor
    · intro o' ho' _
      rw [hprinted o' ho']
      exact h
    · intro o' ho' hv
      rw [hprinted o' ho', h]
      exact hv

/-- **The reported codepoint**: what is printed for the argument of `--diffserv` parses to the same
as the argument exactly when that denotes a value up to 64. -/
theorem diffserv_reported_iff (o : TwdOptions) (s : Word) :
    ReportsCodepoint o s ↔ ∃ v ≤ 64, Denotes s v := by
  rw [reportsCodepoint_iff]
  constructor
  · intro h
    by_cases hv : 0 ≤ parseIpqos (some s) ∧ parseIpqos (some s) ≤ 64
    · exact ⟨_, hv.2, (parseIpqos_eq_iff (by omega)).mp rfl⟩
    · rw [parseIpqos_iptos2str_of_not hv] at h
      omega
  · rintro ⟨v, h64, hv⟩
    have h0 := hv.bounds.1
    rw [(parseIpqos_eq_iff (by omega)).mpr hv]
    exact parseIpqos_iptos2str h0 h64

/-- `ef` is printed as `cs0`. -/
theorem diffserv_not_reported : ¬ ∀ s, ReportsCodepoint defaultOptions s := by
  intro h
  have hef := (h (ascii "ef")).accepted _ rfl (by decide)
  exact absurd hef (by decide)

end Twd
