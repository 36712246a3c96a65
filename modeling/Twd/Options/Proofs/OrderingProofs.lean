import Twd.LastWrite.Keyed
import Twd.Options.Proofs.OutputProofs

/-!
# The order in which options are given

Every option that is taken sets members to values that are its own, so the options are writes with
their letters as keys.
-/

namespace Twd

open Getopt Strtol

/-- What the options that are taken do. -/
inductive Effect : UInt8 → (TwdOptions → TwdOptions) → Prop
  | server : Effect (letter 'S') fun o => { o with server := true }
  | debug (n : BitVec 32) : Effect (letter 'D') fun o => { o with debug := n }
  | dontfork : Effect (letter 'F') fun o => { o with dontfork := true }
  | interval (n : BitVec 64) : Effect (letter 'i') fun o => { o with interval := n }
  | packetSize (n : BitVec 32) : Effect (letter 's') fun o => { o with packetSize := n }
  | length (n : BitVec 64) : Effect (letter 'l') fun o => { o with length := n }
  | logdir (w : Option Word) : Effect (letter 'L') fun o => { o with logdir := w }
  | passfail : Effect (letter 'P') fun o => { o with passfail := true }
  | verbose : Effect (letter 'v') fun o => { o with verbose := true }
  | up : Effect (letter '1') fun o => { o with up := true }
  | dn : Effect (letter '2') fun o => { o with dn := true }
  | bidir : Effect (letter '3') fun o => { o with up := true, dn := true }
  | ipv4 : Effect (letter '4') fun o => { o with ipv4 := true }
  | ipv6 : Effect (letter '6') fun o => { o with ipv6 := true }
  | filename (w : Option Word) : Effect (letter 'w') fun o => { o with filename := w }
  | testSelf : Effect (letter '@') fun o => { o with testSelf := true }
  | testOwd : Effect (letter 't') fun o => { o with testOwd := true }
  | testEcn : Effect (letter 'E') fun o => { o with testEcn := true }
  | testDiffserv : Effect (letter 'C') fun o => { o with testDiffserv := true }
  | testAll : Effect (letter 'T') fun o => { o with testAll := true }
  | testFq : Effect (letter 'Q') fun o => { o with testFq := true }
  | testBw : Effect (letter 'B') fun o => { o with testBw := true }
  | ecn : Effect (letter 'e') fun o => { o with ecn := true }
  | diffserv (n : BitVec 32) : Effect (letter 'd') fun o => { o with diffserv := n }

theorem Effect.comm {c c' : UInt8} {g g' : TwdOptions → TwdOptions} (h : Effect c g)
    (h' : Effect c' g') (hne : c ≠ c') (o : TwdOptions) : g' (g o) = g (g' o) := by
  cases h <;> cases h' <;> first | rfl | exact absurd rfl hne

theorem Effect.absorb {c c' : UInt8} {g g' : TwdOptions → TwdOptions} (h : Effect c g)
    (h' : Effect c' g') (heq : c = c') (o : TwdOptions) : g' (g o) = g' o := by
  cases h <;> cases h' <;> first | exact absurd heq (by decide) | rfl

/-- An option that is taken once is always taken, and does the same. -/
theorem exists_effect {i : Item} {o o' : TwdOptions} (h : processOption o i = .ok o') :
    ∃ g, Effect i.opt g ∧ ∀ o, processOption o i = .ok (g o) := by
  obtain ⟨c, arg⟩ := i
  have hcase : hasCase c = true := by
    by_contra hno
    rw [processOption_of_not_hasCase (Bool.eq_false_of_not_eq_true hno)] at h
    cases h
  have hbytes : ascii "SDFislLoPv12346w@tECTQBed" = [83, 68, 70, 105, 115, 108, 76, 111, 80, 118,
    49, 50, 51, 52, 54, 119, 64, 116, 69, 67, 84, 81, 66, 101, 100] := by decide
  have hmem : c ∈ ascii "SDFislLoPv12346w@tECTQBed" := List.contains_iff_mem.mp hcase
  rw [hbytes] at hmem
  -- Without their argument the options that read it are not taken, and `-o` never is.
  cases arg with
  | none =>
    fin_cases hmem
    case «1» | «3» | «4» | «5» | «7» => cases h
    all_goals exact ⟨_, by constructor, fun _ => rfl⟩
  | some a =>
    fin_cases hmem
    case «7» => cases h
    all_goals exact ⟨_, by constructor, fun _ => rfl⟩

/-- The option is taken after some others. -/
def Accepted (i : Item) : Prop := ∃ o o', processOption o i = .ok o'

/-- The options after one that is taken. -/
def applyOption (o : TwdOptions) (i : Item) : TwdOptions := (processOption o i).toOption.getD o

theorem Accepted.exists_effect {i : Item} (h : Accepted i) :
    ∃ g, Effect i.opt g ∧ (∀ o, processOption o i = .ok (g o)) ∧ ∀ o, applyOption o i = g o := by
  obtain ⟨o, o', h⟩ := h
  obtain ⟨g, heffect, hg⟩ := Twd.exists_effect h
  refine ⟨g, heffect, hg, fun o => ?_⟩
  rw [applyOption, hg]
  rfl

theorem Accepted.processOption_eq {i : Item} (h : Accepted i) (o : TwdOptions) :
    processOption o i = .ok (applyOption o i) := by
  obtain ⟨g, -, hg, happly⟩ := h.exists_effect
  rw [hg, happly]

theorem keyed_applyOption : LastWrite.Keyed applyOption Item.opt Accepted where
  comm o i j hi hj hne := by
    obtain ⟨g, heffect, -, hg⟩ := hi.exists_effect
    obtain ⟨g', heffect', -, hg'⟩ := hj.exists_effect
    rw [hg, hg', hg', hg]
    exact heffect.comm heffect' hne o
  absorb o i j hi hj heq := by
    obtain ⟨g, heffect, -, hg⟩ := hi.exists_effect
    obtain ⟨g', heffect', -, hg'⟩ := hj.exists_effect
    rw [hg, hg', hg']
    exact heffect.absorb heffect' heq o

theorem accepted_of_foldlM {items : List Item} (h : items.foldlM processOption o = .ok o') :
    ∀ i ∈ items, Accepted i := by
  induction items generalizing o with
  | nil => simp
  | cons i items ih =>
    rw [List.foldlM_cons] at h
    cases hi : processOption o i with
    | error e =>
      rw [hi] at h
      cases h
    | ok o1 =>
      rw [hi] at h
      exact List.forall_mem_cons.mpr ⟨⟨o, o1, hi⟩, ih h⟩

theorem foldlM_of_accepted {items : List Item} (h : ∀ i ∈ items, Accepted i) (o : TwdOptions) :
    items.foldlM processOption o = .ok (items.foldl applyOption o) := by
  induction items generalizing o with
  | nil => rfl
  | cons i items ih =>
    obtain ⟨hi, h⟩ := List.forall_mem_cons.mp h
    rw [List.foldlM_cons, hi.processOption_eq]
    exact ih h _

theorem Accepted.opt_hasCase {i : Item} (h : Accepted i) : hasCase i.opt = true := by
  obtain ⟨o, o', h⟩ := h
  have hone : [i].foldlM processOption o = .ok o' := by
    rw [List.foldlM_cons, h]
    rfl
  exact hasCase_of_foldlM hone i (by simp)

theorem Accepted.ne_output {i : Item} (h : Accepted i) : i.opt ≠ letter 'o' := by
  obtain ⟨g, heffect, -, -⟩ := h.exists_effect
  intro ho
  rw [ho] at heffect
  cases heffect

/-- Of the options with one letter that `getopt_long` gives, all are taken or none is. -/
theorem Accepted.of_opt_eq {i j : Item} (hj : Accepted j) (heq : i.opt = j.opt)
    (hi : i ∈ (getoptLong qstring longOptions posixlyCorrect words).items) : Accepted i := by
  have hcase : hasCase i.opt = true := heq ▸ hj.opt_hasCase
  have hne : i.opt ≠ letter 'o' := heq ▸ hj.ne_output
  obtain ⟨o', ho', -⟩ := processOption_of_hasCase hcase hne (items_optarg hi) defaultOptions
  exact ⟨defaultOptions, o', ho'⟩

theorem SameLast.processOptions_ok {posixlyCorrect' : Bool} {words' operands : List Word}
    (hsame : SameLast (getoptLong qstring longOptions posixlyCorrect words).items
      (getoptLong qstring longOptions posixlyCorrect' words').items)
    (h : processOptions posixlyCorrect words o = .ok (o', operands)) :
    processOptions posixlyCorrect' words' o =
      .ok (o', (getoptLong qstring longOptions posixlyCorrect' words').operands) := by
  have hfold := foldlM_of_processOptions h
  have haccepted := accepted_of_foldlM hfold
  rw [foldlM_of_accepted haccepted] at hfold
  have haccepted' : ∀ i ∈ (getoptLong qstring longOptions posixlyCorrect' words').items,
      Accepted i := by
    intro i hi
    -- The last option with the letter is among those of both.
    have hmem : i ∈ (getoptLong qstring longOptions posixlyCorrect' words').items.filter
        fun j => j.opt = i.opt := List.mem_filter.mpr ⟨hi, by simp⟩
    have hj := List.getLast?_eq_some_getLast (List.ne_nil_of_mem hmem)
    have hjmem := List.mem_filter.mp (List.mem_of_getLast? ((hsame i.opt).trans hj))
    exact (haccepted _ hjmem.1).of_opt_eq (of_decide_eq_true hjmem.2).symm hi
  have heq := keyed_applyOption.foldl_eq_of_last _ _ _ le_rfl haccepted haccepted' hsame o
  rw [processOptions, foldlM_of_accepted haccepted', ← heq, Except.ok.inj hfold]
  rfl

/-- **Only the last option with each letter counts**: whether `process_options` returns, and with
which options, does not depend on the order of the letters, on what is given again later, or on how
the options are written. -/
theorem processOptions_lastOptions {posixlyCorrect posixlyCorrect' : Bool}
    {words words' : List Word}
    (hsame : SameLast (getoptLong qstring longOptions posixlyCorrect words).items
      (getoptLong qstring longOptions posixlyCorrect' words').items) (o : TwdOptions) :
    (processOptions posixlyCorrect words o).toOption.map Prod.fst =
      (processOptions posixlyCorrect' words' o).toOption.map Prod.fst := by
  have hsame' : SameLast (getoptLong qstring longOptions posixlyCorrect' words').items
      (getoptLong qstring longOptions posixlyCorrect words).items := fun c => (hsame c).symm
  cases h : processOptions posixlyCorrect words o with
  | ok r =>
    rw [hsame.processOptions_ok h]
    rfl
  | error e =>
    cases h' : processOptions posixlyCorrect' words' o with
    | error e' => rfl
    | ok r =>
      rw [hsame'.processOptions_ok h'] at h
      cases h

/-- `-i 5 -v -i7` and `-v --interval=7`. -/
theorem processOptions_lastOptions_interval :
    (processOptions false [ascii "-i", ascii "5", ascii "-v", ascii "-i7"]
        defaultOptions).toOption.map Prod.fst =
      (processOptions false [ascii "-v", ascii "--interval=7"]
        defaultOptions).toOption.map Prod.fst := by
  refine processOptions_lastOptions (fun c => ?_) defaultOptions
  have hitems : (getoptLong qstring longOptions false
      [ascii "-i", ascii "5", ascii "-v", ascii "-i7"]).items =
      [⟨letter 'i', some (ascii "5")⟩, ⟨letter 'v', none⟩, ⟨letter 'i', some (ascii "7")⟩] := by
    decide
  have hitems' : (getoptLong qstring longOptions false
      [ascii "-v", ascii "--interval=7"]).items =
      [⟨letter 'v', none⟩, ⟨letter 'i', some (ascii "7")⟩] := by
    decide
  rw [hitems, hitems']
  by_cases hi : letter 'i' = c
  · subst hi
    decide
  by_cases hv : letter 'v' = c
  · subst hv
    decide
  simp [hi, hv]

end Twd
