import Mathlib.Data.List.TakeWhile

/-!
# `getopt_long`

What the C library documents of `getopt_long`, for option strings that start with neither `+` nor
`-` nor `:` and long options without a flag variable. The words of the command line are read from
left to right; which of them is an option, an argument or an operand depends on the words before it
only through a control state. Errors are the option `?`.
-/

namespace Getopt

abbrev Word := List UInt8

/-- The code of a character. -/
def letter (c : Char) : UInt8 := UInt8.ofNat c.toNat

inductive HasArg
  | no
  | required
  | optional
  deriving DecidableEq, Repr

/-- `struct option` -/
structure LongOption where
  name : Word
  hasArg : HasArg
  val : UInt8
  deriving DecidableEq, Repr

/-- A value that `getopt_long` returns, and `optarg`. -/
structure Item where
  opt : UInt8
  optarg : Option Word
  deriving DecidableEq, Repr

/-- What is returned for an error. -/
def questionMark : Item := ⟨letter '?', none⟩

/-- What a word has given: options, and operands. -/
@[ext] structure Output where
  items : List Item
  operands : List Word
  deriving DecidableEq, Repr

instance : Append Output := ⟨fun x y => ⟨x.items ++ y.items, x.operands ++ y.operands⟩⟩

/-- How the next word is read. -/
inductive Control
  /-- As an option, if it looks like one. -/
  | options
  /-- As the argument of an option. -/
  | argument (opt : UInt8)
  /-- As an operand. -/
  | operands
  deriving DecidableEq, Repr

/-! ## Options of one letter -/

/-- Whether an argument follows, from what follows the letter in the option string. -/
def argKind : Word → HasArg
  | 58 :: 58 :: _ => .optional
  | 58 :: _ => .required
  | _ => .no

/-- The first place of a letter in the option string decides. -/
def findLetter : Word → UInt8 → Option HasArg
  | [], _ => none
  | x :: rest, c => if x = c ∧ c ≠ 58 then some (argKind rest) else findLetter rest c

/-- The letters of a word after its `-`. -/
def letters (optstring : Word) : Word → List Item × Control
  | [] => ([], .options)
  | c :: rest =>
    match findLetter optstring c with
    | none =>
      let (items, control) := letters optstring rest
      (questionMark :: items, control)
    | some .no =>
      let (items, control) := letters optstring rest
      (⟨c, none⟩ :: items, control)
    | some .required =>
      if rest = [] then ([], .argument c) else ([⟨c, some rest⟩], .options)
    | some .optional => ([⟨c, if rest = [] then none else some rest⟩], .options)

/-! ## Long options -/

/-- The part of a word after its `--` up to the first `=`, and the part behind that. -/
def splitAssign (w : Word) : Word × Option Word :=
  (w.takeWhile (· ≠ 61), (w.dropWhile (· ≠ 61)).tail?)

/-- A long option by its name or by an abbreviation that only one has. -/
def findLong (longopts : List LongOption) (name : Word) : Option LongOption :=
  match longopts.find? fun l => l.name = name with
  | some l => some l
  | none =>
    match longopts.filter fun l => name.isPrefixOf l.name with
    | [l] => some l
    | _ => none

/-- A word after its `--`. -/
def long (longopts : List LongOption) (w : Word) : List Item × Control :=
  let (name, arg) := splitAssign w
  match findLong longopts name with
  | none => ([questionMark], .options)
  | some l =>
    match l.hasArg, arg with
    | .no, none => ([⟨l.val, none⟩], .options)
    | .no, some _ => ([questionMark], .options)
    | .required, none => ([], .argument l.val)
    | .required, some a => ([⟨l.val, some a⟩], .options)
    | .optional, arg => ([⟨l.val, arg⟩], .options)

/-! ## The command line -/

section Scan

variable (optstring : Word) (longopts : List LongOption) (posixlyCorrect : Bool)

/-- One word. With `POSIXLY_CORRECT` the first operand ends the options. -/
def read : Control → Word → Output × Control
  | .argument c, w => (⟨[⟨c, some w⟩], []⟩, .options)
  | .operands, w => (⟨[], [w]⟩, .operands)
  | .options, [45, 45] => (⟨[], []⟩, .operands)
  | .options, 45 :: 45 :: w =>
    let (items, control) := long longopts w
    (⟨items, []⟩, control)
  | .options, 45 :: c :: w =>
    let (items, control) := letters optstring (c :: w)
    (⟨items, []⟩, control)
  | .options, w => (⟨[], [w]⟩, if posixlyCorrect then .operands else .options)

/-- Words one after the other. -/
def readAll : Control → List Word → Output × Control
  | control, [] => (⟨[], []⟩, control)
  | control, w :: ws =>
    let (out, control) := read optstring longopts posixlyCorrect control w
    let (out', control) := readAll control ws
    (out ++ out', control)

/-- An option whose argument is missing at the end. -/
def missing : Control → List Item
  | .argument _ => [questionMark]
  | _ => []

/-- What the calls of `getopt_long` until -1 return for the words, and the words from `optind` on
afterwards. -/
def getoptLong (words : List Word) : Output :=
  let (out, control) := readAll optstring longopts posixlyCorrect .options words
  ⟨out.items ++ missing control, out.operands⟩

end Scan

/-! ## One option, by its long name and by its letter -/

/-- The words after `--` that stand for a long option. -/
structure Names (longopts : List LongOption) (l : LongOption) (n : Word) : Prop where
  found : findLong longopts n = some l
  no_assign : 61 ∉ n
  ne_nil : n ≠ []

/-- The ways to give a long option: by its name, with its argument, and with its argument in the next
word. -/
inductive LongForm (longopts : List LongOption) (l : LongOption) : Option Word → List Word → Prop
  | alone {n : Word} (hn : Names longopts l n) : LongForm longopts l none [45 :: 45 :: n]
  | joined {n a : Word} (hn : Names longopts l n) (hl : l.hasArg = .required) :
    LongForm longopts l (some a) [45 :: 45 :: (n ++ 61 :: a)]
  | separate {n a : Word} (hn : Names longopts l n) (hl : l.hasArg = .required) :
    LongForm longopts l (some a) [45 :: 45 :: n, a]

/-- The ways to give an option of one letter. -/
inductive ShortForm (c : UInt8) : Option Word → List Word → Prop
  | alone : ShortForm c none [[45, c]]
  | joined {a : Word} (ha : a ≠ []) : ShortForm c (some a) [45 :: c :: a]
  | separate {a : Word} : ShortForm c (some a) [[45, c], a]

/-- An option that takes an argument in both tables, and is not the one for errors. -/
structure TakesArgument (optstring : Word) (longopts : List LongOption) (c : UInt8) : Prop where
  short : findLetter optstring c = none ∨ findLetter optstring c = some .required
  long : ∀ l ∈ longopts, l.val = c → l.hasArg = .required
  no_error : c ≠ letter '?'

/-- What an option gives that is not in error. -/
def given (kind : HasArg) (c : UInt8) (arg : Option Word) : Output × Control :=
  if kind = .required ∧ arg = none then (⟨[], []⟩, .argument c) else (⟨[⟨c, arg⟩], []⟩, .options)

theorem ne_assign {n : Word} (h : 61 ∉ n) : ∀ c ∈ n, decide (c ≠ 61) = true := by
  intro c hc
  simpa using ne_of_mem_of_not_mem hc h

theorem splitAssign_of_not_mem {n : Word} (h : 61 ∉ n) : splitAssign n = (n, none) := by
  rw [splitAssign, List.takeWhile_eq_self_iff.mpr (ne_assign h),
    List.dropWhile_eq_nil_iff.mpr (ne_assign h)]
  rfl

theorem splitAssign_append {n a : Word} (h : 61 ∉ n) :
    splitAssign (n ++ 61 :: a) = (n, some a) := by
  rw [splitAssign, List.takeWhile_append_of_pos (ne_assign h),
    List.dropWhile_append_of_pos (ne_assign h)]
  simp

section Read

variable {optstring : Word} {longopts : List LongOption} {posixlyCorrect : Bool}

theorem read_long {w : Word} (hw : w ≠ []) :
    read optstring longopts posixlyCorrect .options (45 :: 45 :: w) =
      (⟨(long longopts w).1, []⟩, (long longopts w).2) := by
  cases w with
  | nil => exact absurd rfl hw
  | cons c w => rfl

theorem read_letters {c : UInt8} (hc : c ≠ 45) (w : Word) :
    read optstring longopts posixlyCorrect .options (45 :: c :: w) =
      (⟨(letters optstring (c :: w)).1, []⟩, (letters optstring (c :: w)).2) := by
  unfold read
  split <;> simp_all

@[simp] theorem append_items (x y : Output) : (x ++ y).items = x.items ++ y.items := rfl

@[simp] theorem append_operands (x y : Output) : (x ++ y).operands = x.operands ++ y.operands := rfl

theorem readAll_cons (control : Control) (w : Word) (ws : List Word) :
    readAll optstring longopts posixlyCorrect control (w :: ws) =
      ((read optstring longopts posixlyCorrect control w).1 ++
          (readAll optstring longopts posixlyCorrect
            (read optstring longopts posixlyCorrect control w).2 ws).1,
        (readAll optstring longopts posixlyCorrect
          (read optstring longopts posixlyCorrect control w).2 ws).2) := rfl

/-- Reading goes on from the control state in which it has stopped. -/
theorem readAll_append (control : Control) (ws ws' : List Word) :
    readAll optstring longopts posixlyCorrect control (ws ++ ws') =
      ((readAll optstring longopts posixlyCorrect control ws).1 ++
          (readAll optstring longopts posixlyCorrect
            (readAll optstring longopts posixlyCorrect control ws).2 ws').1,
        (readAll optstring longopts posixlyCorrect
          (readAll optstring longopts posixlyCorrect control ws).2 ws').2) := by
  induction ws generalizing control with
  | nil => rfl
  | cons w ws ih =>
    rw [List.cons_append, readAll_cons, ih, readAll_cons]
    ext <;> simp

/-- A long option gives itself and its argument, however it is written. -/
theorem readAll_longForm {l : LongOption} {arg : Option Word} {ws : List Word}
    (h : LongForm longopts l arg ws) :
    readAll optstring longopts posixlyCorrect .options ws = given l.hasArg l.val arg := by
  cases h with
  | alone hn =>
    rw [readAll_cons, read_long hn.ne_nil, long, splitAssign_of_not_mem hn.no_assign]
    simp only [hn.found]
    cases l.hasArg <;> rfl
  | joined hn hl =>
    rw [readAll_cons, read_long (by simp), long, splitAssign_append hn.no_assign]
    simp only [hn.found, hl]
    rfl
  | separate hn hl =>
    rw [readAll_cons, read_long hn.ne_nil, long, splitAssign_of_not_mem hn.no_assign]
    simp only [hn.found, hl]
    rfl

/-- So does a letter that the option string declares with the same kind of argument. -/
theorem readAll_shortForm {c : UInt8} {kind : HasArg} {arg : Option Word} {ws : List Word}
    (hc : c ≠ 45) (hk : findLetter optstring c = some kind)
    (harg : arg ≠ none → kind = .required) (h : ShortForm c arg ws) :
    readAll optstring longopts posixlyCorrect .options ws = given kind c arg := by
  cases h with
  | alone =>
    rw [readAll_cons, read_letters hc, letters, hk]
    cases kind <;> rfl
  | joined ha =>
    obtain rfl := harg (by simp)
    rw [readAll_cons, read_letters hc, letters, hk]
    simp only [if_neg ha]
    rfl
  | separate =>
    obtain rfl := harg (by simp)
    rw [readAll_cons, read_letters hc, letters, hk]
    rfl

/-- A letter that the option string does not have is an error, whatever follows. -/
theorem readAll_shortForm_unknown {c : UInt8} {arg : Option Word} {ws : List Word} (hc : c ≠ 45)
    (hk : findLetter optstring c = none) (h : ShortForm c arg ws) :
    ∃ items, (readAll optstring longopts posixlyCorrect .options ws).1.items =
      questionMark :: items := by
  cases h with
  | alone => exact ⟨_, by rw [readAll_cons, read_letters hc, letters, hk]; rfl⟩
  | joined ha => exact ⟨_, by rw [readAll_cons, read_letters hc, letters, hk]; rfl⟩
  | separate => exact ⟨_, by rw [readAll_cons, read_letters hc, letters, hk]; rfl⟩

/-- Words that are read alike in one place of the command line can replace one another there. -/
theorem getoptLong_congr {pre ws ws' : List Word} (post : List Word)
    (hpre : (readAll optstring longopts posixlyCorrect .options pre).2 = .options)
    (h : readAll optstring longopts posixlyCorrect .options ws =
      readAll optstring longopts posixlyCorrect .options ws') :
    getoptLong optstring longopts posixlyCorrect (pre ++ ws ++ post) =
      getoptLong optstring longopts posixlyCorrect (pre ++ ws' ++ post) := by
  simp only [getoptLong, readAll_append, hpre, h]

/-- The options of the first words come first, whatever follows. -/
theorem getoptLong_append_items (pre ws : List Word) :
    ∃ items, (getoptLong optstring longopts posixlyCorrect (pre ++ ws)).items =
      (readAll optstring longopts posixlyCorrect .options pre).1.items ++ items := by
  simp only [getoptLong, readAll_append, append_items, List.append_assoc]
  exact ⟨_, rfl⟩

/-- The first option that words give follows those given before. -/
theorem getoptLong_items {pre ws : List Word} {i : Item} {items : List Item} (post : List Word)
    (hpre : (readAll optstring longopts posixlyCorrect .options pre).2 = .options)
    (h : (readAll optstring longopts posixlyCorrect .options ws).1.items = i :: items) :
    ∃ items', (getoptLong optstring longopts posixlyCorrect (pre ++ ws ++ post)).items =
      (readAll optstring longopts posixlyCorrect .options pre).1.items ++ i :: items' := by
  simp only [getoptLong, readAll_append, hpre, append_items, h, List.append_assoc,
    List.cons_append]
  exact ⟨_, rfl⟩

/-! ## Arguments -/

section Arguments

variable {c : UInt8}

theorem findLong_mem {name : Word} {l : LongOption} (h : findLong longopts name = some l) :
    l ∈ longopts := by
  unfold findLong at h
  split at h
  case h_1 l' hfind =>
    cases h
    exact List.mem_of_find?_eq_some hfind
  case h_2 =>
    split at h
    case h_1 l' hfilter =>
      cases h
      exact (List.mem_filter.mp (hfilter ▸ List.mem_singleton_self l)).1
    case h_2 => cases h

theorem letters_optarg (h : TakesArgument optstring longopts c) (w : Word) :
    ∀ i ∈ (letters optstring w).1, i.opt = c → i.optarg.isSome := by
  induction w with
  | nil => simp [letters]
  | cons x rest ih =>
    intro i hi hc
    unfold letters at hi
    split at hi
    case h_1 =>
      rcases List.mem_cons.mp hi with rfl | hi
      · exact absurd hc.symm h.no_error
      · exact ih i hi hc
    case h_2 hno =>
      rcases List.mem_cons.mp hi with rfl | hi
      · have hshort := h.short
        simp [← hc, hno] at hshort
      · exact ih i hi hc
    case h_3 =>
      split_ifs at hi
      · simp at hi
      · obtain rfl := List.mem_singleton.mp hi
        rfl
    case h_4 hoptional =>
      obtain rfl := List.mem_singleton.mp hi
      have hshort := h.short
      simp [← hc, hoptional] at hshort

theorem long_optarg (h : TakesArgument optstring longopts c) (w : Word) :
    ∀ i ∈ (long longopts w).1, i.opt = c → i.optarg.isSome := by
  intro i hi hc
  rcases hs : splitAssign w with ⟨name, arg⟩
  simp only [long, hs] at hi
  cases hfound : findLong longopts name with
  | none =>
    simp only [hfound, List.mem_singleton] at hi
    subst hi
    exact absurd hc.symm h.no_error
  | some l =>
    have hl := h.long l (findLong_mem hfound)
    simp only [hfound] at hi
    split at hi
    case h_1 hno =>
      obtain rfl := List.mem_singleton.mp hi
      simp [hl hc] at hno
    case h_2 =>
      obtain rfl := List.mem_singleton.mp hi
      exact absurd hc.symm h.no_error
    case h_3 => simp at hi
    case h_4 =>
      obtain rfl := List.mem_singleton.mp hi
      rfl
    case h_5 hoptional =>
      obtain rfl := List.mem_singleton.mp hi
      simp [hl hc] at hoptional

theorem read_optarg (h : TakesArgument optstring longopts c) (control : Control) (w : Word) :
    ∀ i ∈ (read optstring longopts posixlyCorrect control w).1.items, i.opt = c →
      i.optarg.isSome := by
  intro i hi hc
  unfold read at hi
  split at hi
  case h_1 =>
    obtain rfl := List.mem_singleton.mp hi
    rfl
  case h_4 => exact long_optarg h _ i hi hc
  case h_5 => exact letters_optarg h _ i hi hc
  all_goals simp at hi

theorem readAll_optarg (h : TakesArgument optstring longopts c) (control : Control)
    (ws : List Word) :
    ∀ i ∈ (readAll optstring longopts posixlyCorrect control ws).1.items, i.opt = c →
      i.optarg.isSome := by
  induction ws generalizing control with
  | nil => simp [readAll]
  | cons w ws ih =>
    intro i hi hc
    rw [readAll_cons, append_items] at hi
    rcases List.mem_append.mp hi with hi | hi
    · exact read_optarg h control w i hi hc
    · exact ih _ i hi hc

/-- An option that takes an argument is never returned without one. -/
theorem getoptLong_optarg (h : TakesArgument optstring longopts c) {words : List Word} {i : Item}
    (hi : i ∈ (getoptLong optstring longopts posixlyCorrect words).items) (hc : i.opt = c) :
    i.optarg.isSome := by
  rcases List.mem_append.mp hi with hi | hi
  · exact readAll_optarg h .options words i hi hc
  · unfold missing at hi
    split at hi
    · obtain rfl := List.mem_singleton.mp hi
      exact absurd hc.symm h.no_error
    · simp at hi

end Arguments

end Read

end Getopt
