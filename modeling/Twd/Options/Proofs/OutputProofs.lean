import Mathlib.Tactic.FinCases
import Twd.Options.Proofs.LongShortProofs

/-!
# When the lookup of the output format stays in its table

`output_type` has no entry that ends the loop over it, so every lookup leaves it. Without one the
format is what it was.
-/

namespace Twd

open Getopt Strtol

variable {posixlyCorrect : Bool} {words : List Word} {o o' : TwdOptions}

theorem findFormat_outputType (optarg : Word) (format : BitVec 32) :
    findFormat optarg format outputType = .error .undefined := rfl

/-- The options whose argument the switch reads. -/
def readsArgument (c : UInt8) : Bool := (ascii "Dislo").contains c

theorem readsArgument_takesArgument {c : UInt8} (hc : readsArgument c = true) :
    TakesArgument qstring longOptions c := by
  have hmem : c ∈ ascii "Dislo" := List.contains_iff_mem.mp hc
  have hshort : ∀ c ∈ ascii "Dislo", findLetter qstring c = some .required := by
    change ∀ c ∈ [letter 'D', letter 'i', letter 's', letter 'l', letter 'o'], _
    simp only [List.forall_mem_cons]
    exact ⟨rfl, rfl, rfl, rfl, rfl, List.forall_mem_nil _⟩
  have hlong : ∀ l ∈ longOptions, l.val ∈ ascii "Dislo" → l.hasArg = .required := by decide
  have hne : letter '?' ∉ ascii "Dislo" := by decide
  refine ⟨.inr (hshort c hmem), ?_, ?_⟩
  · rintro l hl rfl
    exact hlong l hl hmem
  · rintro rfl
    exact hne hmem

theorem items_optarg {i : Item}
    (hi : i ∈ (getoptLong qstring longOptions posixlyCorrect words).items)
    (hn : readsArgument i.opt = true) : i.optarg.isSome = true :=
  getoptLong_optarg (readsArgument_takesArgument hn) hi rfl

/-- Every option with a case other than `-o` is taken, and leaves the format. -/
theorem processOption_of_hasCase {c : UInt8} {arg : Option Word} (hc : hasCase c = true)
    (ho : c ≠ letter 'o') (harg : readsArgument c = true → arg.isSome = true) (o : TwdOptions) :
    ∃ o', processOption o ⟨c, arg⟩ = .ok o' ∧ o'.format = o.format := by
  have hbytes : ascii "SDFislLoPv12346w@tECTQBed" = [83, 68, 70, 105, 115, 108, 76, 111, 80, 118,
    49, 50, 51, 52, 54, 119, 64, 116, 69, 67, 84, 81, 66, 101, 100] := by decide
  have hmem : c ∈ ascii "SDFislLoPv12346w@tECTQBed" := List.contains_iff_mem.mp hc
  rw [hbytes] at hmem
  cases arg with
  | none =>
    fin_cases hmem
    case «7» => exact absurd rfl ho
    case «1» | «3» | «4» | «5» => exact absurd (harg (by decide)) (by decide)
    all_goals exact ⟨_, rfl, rfl⟩
  | some a =>
    fin_cases hmem
    case «7» => exact absurd rfl ho
    all_goals exact ⟨_, rfl, rfl⟩

theorem foldlM_of_hasCase {items : List Item} (hcase : ∀ i ∈ items, hasCase i.opt = true)
    (hno : ∀ i ∈ items, i.opt ≠ letter 'o')
    (harg : ∀ i ∈ items, readsArgument i.opt = true → i.optarg.isSome = true) (o : TwdOptions) :
    ∃ o', items.foldlM processOption o = .ok o' ∧ o'.format = o.format := by
  induction items generalizing o with
  | nil => exact ⟨o, rfl, rfl⟩
  | cons i items ih =>
    obtain ⟨hi, hcase⟩ := List.forall_mem_cons.mp hcase
    obtain ⟨hio, hno⟩ := List.forall_mem_cons.mp hno
    obtain ⟨hiarg, harg⟩ := List.forall_mem_cons.mp harg
    obtain ⟨o1, h1, hformat1⟩ := processOption_of_hasCase hi hio hiarg o
    obtain ⟨o2, h2, hformat2⟩ := ih hcase hno harg o1
    refine ⟨o2, ?_, hformat2.trans hformat1⟩
    rw [List.foldlM_cons, h1]
    exact h2

theorem hasCase_of_foldlM {items : List Item} (h : items.foldlM processOption o = .ok o') :
    ∀ i ∈ items, hasCase i.opt = true := by
  induction items generalizing o with
  | nil => simp
  | cons i items ih =>
    rw [List.foldlM_cons] at h
    cases hi : processOption o i with
    | error e =>
      rw [hi] at h
      cases h
    | ok o1 =>
      rw [hi] at h
      refine List.forall_mem_cons.mpr ⟨?_, ih h⟩
      by_contra hcase
      have husage := processOption_of_not_hasCase (Bool.eq_false_of_not_eq_true hcase) o i.optarg
      rw [hi] at husage
      cases husage

theorem foldlM_of_processOptions {operands : List Word}
    (h : processOptions posixlyCorrect words o = .ok (o', operands)) :
    (getoptLong qstring longOptions posixlyCorrect words).items.foldlM processOption o =
      .ok o' := by
  rw [processOptions] at h
  cases hfold : (getoptLong qstring longOptions posixlyCorrect words).items.foldlM
      processOption o with
  | error e =>
    rw [hfold] at h
    cases h
  | ok o1 =>
    rw [hfold] at h
    exact congrArg Except.ok (congrArg Prod.fst (Except.ok.inj h))

theorem mem_takeWhile_hasCase {pre : List Item} {i : Item}
    (hpre : ∀ j ∈ pre, hasCase j.opt = true) (hi : hasCase i.opt = true) (post : List Item) :
    i ∈ (pre ++ i :: post).takeWhile fun i => hasCase i.opt := by
  rw [List.takeWhile_append_of_pos hpre,
    List.takeWhile_cons_of_pos (p := fun i : Item => hasCase i.opt) hi]
  exact List.mem_append_right pre (List.mem_cons_self ..)

/-- The first `-o` that is looked up comes after options that are taken. -/
theorem exists_first_output (h : ¬ NoOutput posixlyCorrect words) (o : TwdOptions) :
    ∃ pre i post o', (getoptLong qstring longOptions posixlyCorrect words).items =
        pre ++ i :: post ∧ pre.foldlM processOption o = .ok o' ∧ i.opt = letter 'o' := by
  set items := (getoptLong qstring longOptions posixlyCorrect words).items with hitems
  set taken := items.takeWhile fun i => hasCase i.opt with htaken
  have hsome : (taken.find? fun i => i.opt = letter 'o').isSome = true := by
    simpa [NoOutput, ← hitems, ← htaken] using h
  obtain ⟨i, hfind⟩ := Option.isSome_iff_exists.mp hsome
  obtain ⟨hi, pre, post, hsplit, hpre⟩ := List.find?_eq_some_iff_append.mp hfind
  have hmem : ∀ j ∈ pre, j ∈ taken := by
    intro j hj
    rw [hsplit]
    exact List.mem_append_left _ hj
  obtain ⟨o', ho', -⟩ := foldlM_of_hasCase (fun j hj =>
    List.mem_takeWhile_imp (p := fun i : Item => hasCase i.opt) (hmem j hj))
    (fun j hj => by simpa using hpre j hj)
    (fun j hj hn => items_optarg (List.takeWhile_subset _ (hmem j hj)) hn) o
  refine ⟨pre, i, post ++ items.dropWhile fun i => hasCase i.opt, o', ?_, ho', by simpa using hi⟩
  calc items = taken ++ items.dropWhile fun i => hasCase i.opt :=
        List.takeWhile_append_dropWhile.symm
    _ = pre ++ i :: (post ++ items.dropWhile fun i => hasCase i.opt) := by rw [hsplit]; simp

theorem lastFormat_of_forall_ne {items : List Item} (h : ∀ i ∈ items, i.opt ≠ letter 'o')
    (format : BitVec 32) : lastFormat format items = format := by
  have hnone : (items.filterMap fun i =>
      if i.opt = letter 'o' then i.optarg.bind formatOf else none) = [] := by
    rw [List.filterMap_eq_nil_iff]
    intro i hi
    rw [if_neg (h i hi)]
  rw [lastFormat, hnone]
  rfl

/-- **The lookup of the output format**: it stays in `output_type`, and the format is the one asked
for, exactly when it does not happen. -/
theorem outputFormat_looksUp_iff (posixlyCorrect : Bool) (words : List Word) (o : TwdOptions) :
    LooksUpFormat posixlyCorrect words o ↔ NoOutput posixlyCorrect words := by
  constructor
  · intro h
    by_contra hnot
    obtain ⟨pre, i, post, o', hitems, ho', hi⟩ := exists_first_output hnot o
    have harg : i.optarg.isSome = true :=
      items_optarg (hitems ▸ List.mem_append_right pre (List.mem_cons_self ..))
        (by rw [hi]; decide)
    obtain ⟨optarg, hoptarg⟩ := Option.isSome_iff_exists.mp harg
    obtain ⟨format, hformat⟩ := h.inside pre i post optarg o' hitems ho' hi hoptarg
    rw [findFormat_outputType] at hformat
    cases hformat
  · intro hno
    refine ⟨?_, ?_⟩
    · intro pre i post optarg o' hitems ho' hi _
      have hcase : hasCase i.opt = true := by rw [hi]; decide
      have hmem := mem_takeWhile_hasCase (hasCase_of_foldlM ho') hcase post
      rw [← hitems] at hmem
      exact absurd hi (hno i hmem)
    · intro o' operands ho'
      have hfold := foldlM_of_processOptions ho'
      have hcase := hasCase_of_foldlM hfold
      rw [NoOutput, List.takeWhile_eq_self_iff.mpr hcase] at hno
      obtain ⟨o1, ho1, hformat⟩ := foldlM_of_hasCase hcase hno
        (fun i hi hn => items_optarg hi hn) o
      rw [hfold] at ho1
      rw [lastFormat_of_forall_ne hno, Except.ok.inj ho1, hformat]

/-- `-o csv` reads past the end of the table. -/
theorem outputFormat_not_looksUp :
    ¬ ∀ posixlyCorrect words, LooksUpFormat posixlyCorrect words defaultOptions := by
  intro h
  have hcsv := h false [ascii "-o", ascii "csv"]
  obtain ⟨format, hformat⟩ := hcsv.inside [] ⟨letter 'o', some (ascii "csv")⟩ [] (ascii "csv")
    defaultOptions (by decide) rfl rfl rfl
  cases hformat

end Twd
