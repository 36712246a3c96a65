import Twd.Options.Options

/-!
# When long and short options mean the same

A long option and its letter give `process_options` the same value and leave the words behind them
to be read in the same way, if `long_options` and `QSTRING` agree on the argument.
-/

namespace Twd

open Getopt Strtol

variable {posixlyCorrect : Bool} {o : TwdOptions}

theorem processOption_questionMark (o : TwdOptions) :
    processOption o questionMark = .error .usage := rfl

/-- The switch tells the values apart as characters. -/
theorem letter_ofNat_toNat (c : UInt8) : letter (Char.ofNat c.toNat) = c := by
  have hvalid : c.toNat.isValidChar := .inl (by have := c.toNat_lt; omega)
  have hcode : (Char.ofNat c.toNat).toNat = c.toNat := by
    rw [Char.ofNat, dif_pos hvalid]
    rfl
  rw [letter, hcode, UInt8.ofNat_toNat]

/-- A value without a case of its own ends in `usage`. -/
theorem processOption_of_not_hasCase {c : UInt8} (hc : hasCase c = false) (o : TwdOptions)
    (arg : Option Word) : processOption o ⟨c, arg⟩ = .error .usage := by
  have hletter := letter_ofNat_toNat c
  unfold processOption
  simp only
  split
  case h_4 => rfl
  case h_5 => rfl
  case h_28 => rfl
  all_goals
    rename_i heq
    rw [heq] at hletter
    subst hletter
    exact absurd hc (by decide)

/-- An option that ends in `usage` does so after the options before it, whatever follows. -/
theorem processOptions_exits {words : List Word} {xs ys : List Item} {i : Item}
    (hi : ∀ o, processOption o i = .error .usage)
    (hitems : (getoptLong qstring longOptions posixlyCorrect words).items = xs ++ i :: ys) :
    processOptions posixlyCorrect words o =
      (xs.foldlM processOption o).bind fun _ => .error .usage := by
  have hexit : ∀ o, (i :: ys).foldlM processOption o = .error .usage := by
    intro o
    rw [List.foldlM_cons, hi]
    rfl
  rw [processOptions, hitems, List.foldlM_append]
  simp only [hexit]
  cases xs.foldlM processOption o <;> rfl

theorem LongForm.required {l : LongOption} {arg : Option Word} {ws : List Word}
    (h : LongForm longOptions l arg ws) (harg : arg ≠ none) : l.hasArg = .required := by
  cases h with
  | alone => exact absurd rfl harg
  | joined _ hl => exact hl
  | separate _ hl => exact hl

/-- The two forms are read alike if both tables give the option the same kind of argument. -/
theorem longShortAgree_of_kind {l : LongOption} (hval : l.val ≠ 45)
    (hk : findLetter qstring l.val = some l.hasArg) : LongShortAgree l := by
  intro posixlyCorrect pre post arg long short o hpre hlong hshort
  have hread : readAll qstring longOptions posixlyCorrect .options long =
      given l.hasArg l.val arg := readAll_longForm hlong
  have hread' : readAll qstring longOptions posixlyCorrect .options short =
      given l.hasArg l.val arg := readAll_shortForm hval hk (LongForm.required hlong) hshort
  rw [processOptions, processOptions, getoptLong_congr post hpre (hread.trans hread'.symm)]

/-- Both forms end in `usage` if neither the option string nor the switch has the letter. -/
theorem longShortAgree_of_unknown {l : LongOption} (hval : l.val ≠ 45)
    (hk : findLetter qstring l.val = none) (hno : l.hasArg = .no) (hcase : hasCase l.val = false) :
    LongShortAgree l := by
  intro posixlyCorrect pre post arg long short o hpre hlong hshort
  have hgiven : (readAll qstring longOptions posixlyCorrect .options long).1.items =
      [⟨l.val, arg⟩] := by
    rw [readAll_longForm hlong, hno]
    rfl
  obtain ⟨items, hunknown⟩ :
      ∃ items, (readAll qstring longOptions posixlyCorrect .options short).1.items =
        questionMark :: items := readAll_shortForm_unknown hval hk hshort
  obtain ⟨ys, hitems⟩ := getoptLong_items post hpre hgiven
  obtain ⟨ys', hitems'⟩ := getoptLong_items post hpre hunknown
  rw [processOptions_exits (fun o => processOption_of_not_hasCase hcase o arg) hitems,
    processOptions_exits processOption_questionMark hitems']

theorem longShortAgree_of_tablesAgree {l : LongOption} (hl : l ∈ longOptions)
    (h : TablesAgree l) : LongShortAgree l := by
  have hval : l.val ≠ 45 := (by decide : ∀ l ∈ longOptions, l.val ≠ 45) l hl
  rcases h with hk | ⟨hk, hno, hcase⟩
  · exact longShortAgree_of_kind hval hk
  · exact longShortAgree_of_unknown hval hk hno hcase

/-- Words whose options already end the program do so whatever follows. -/
theorem processOptions_of_stopped {pre : List Word} {stop : Stop}
    (hstop : (readAll qstring longOptions posixlyCorrect .options pre).1.items.foldlM
      processOption o = .error stop) (ws : List Word) :
    processOptions posixlyCorrect (pre ++ ws) o = .error stop := by
  obtain ⟨items, hitems⟩ : ∃ items,
      (getoptLong qstring longOptions posixlyCorrect (pre ++ ws)).items =
        (readAll qstring longOptions posixlyCorrect .options pre).1.items ++ items :=
    getoptLong_append_items pre ws
  rw [processOptions, hitems, List.foldlM_append, hstop]
  rfl

/-- Behind an option that ends in `usage` any long option can be replaced by its letter. -/
theorem longShort_agree_of_stopped {pre : List Word} {stop : Stop}
    (hstop : (readAll qstring longOptions posixlyCorrect .options pre).1.items.foldlM
      processOption o = .error stop) (long short post : List Word) :
    processOptions posixlyCorrect (pre ++ long ++ post) o =
      processOptions posixlyCorrect (pre ++ short ++ post) o := by
  rw [List.append_assoc, List.append_assoc, processOptions_of_stopped hstop,
    processOptions_of_stopped hstop]

/-! ## Where the tables do not agree -/

/-- An argument for the option, if it takes one. -/
def sampleArg (l : LongOption) : Option Word :=
  if l.hasArg = .required then some (ascii "x") else none

/-- The long option alone on the command line. -/
def sampleLong (l : LongOption) : List Word := (45 :: 45 :: l.name) :: (sampleArg l).toList

/-- The same by its letter. -/
def sampleShort (l : LongOption) : List Word := [45, l.val] :: (sampleArg l).toList

theorem names_self : ∀ l ∈ longOptions, Names longOptions l l.name := by
  have hall : ∀ l ∈ longOptions, findLong longOptions l.name = some l ∧ 61 ∉ l.name ∧
    l.name ≠ [] := by decide
  intro l hl
  exact ⟨(hall l hl).1, (hall l hl).2.1, (hall l hl).2.2⟩

theorem sampleLong_form {l : LongOption} (hl : l ∈ longOptions) :
    LongForm longOptions l (sampleArg l) (sampleLong l) := by
  unfold sampleLong sampleArg
  split_ifs with hreq
  · exact .separate (names_self l hl) hreq
  · exact .alone (names_self l hl)

theorem sampleShort_form (l : LongOption) : ShortForm l.val (sampleArg l) (sampleShort l) := by
  unfold sampleShort sampleArg
  split_ifs
  · exact .separate
  · exact .alone

/-- An option whose tables do not agree means something else by its letter. -/
theorem sample_differs : ∀ l ∈ longOptions, ¬ TablesAgree l →
    processOptions false (sampleLong l) defaultOptions ≠
      processOptions false (sampleShort l) defaultOptions := by decide

/-- **Long and short options**: a long option can be replaced by its letter in every command line
exactly when the tables agree on it. -/
theorem longShort_agree_iff (l : LongOption) (hl : l ∈ longOptions) :
    LongShortAgree l ↔ TablesAgree l := by
  refine ⟨?_, longShortAgree_of_tablesAgree hl⟩
  intro h
  by_contra hnot
  have hsample := h false [] [] (sampleArg l) (sampleLong l) (sampleShort l) defaultOptions rfl
    (sampleLong_form hl) (sampleShort_form l)
  simp only [List.nil_append, List.append_nil] at hsample
  exact sample_differs l hl hnot hsample

theorem longShort_agree_interval : LongShortAgree ⟨ascii "interval", .required, letter 'i'⟩ :=
  (longShort_agree_iff _ (by decide)).mpr (by decide)

/-- `--diffserv ef` sets the codepoint, `-d ef` ends in `usage`. -/
theorem longShort_not_agree : ¬ ∀ l ∈ longOptions, LongShortAgree l := by
  intro h
  have hdiffserv := h ⟨ascii "diffserv", .required, letter 'd'⟩ (by decide) false [] []
    (some (ascii "ef")) [45 :: 45 :: ascii "diffserv", ascii "ef"] [[45, letter 'd'], ascii "ef"]
    defaultOptions rfl (.separate (names_self _ (by decide)) rfl) .separate
  exact absurd hdiffserv (by decide)

end Twd
