import Mathlib.Data.List.Basic

/-!
# Runs of a partial step function

A machine is a partial step function `step : σ → α → Option σ`: `step s a = some s'` says that the
action `a` is enabled in `s` and leads to `s'`. A schedule is a list of actions; running it fails as
soon as one of its actions is not enabled. The rules below turn a property of one step into a
property of every run.
-/

namespace Machine

variable {σ α : Type*}

/-- The state after the schedule `as`, if every action of it is enabled when its turn comes. -/
def run (step : σ → α → Option σ) : σ → List α → Option σ
  | s, [] => some s
  | s, a :: as => (step s a).bind fun s' => run step s' as

/-- Every step that the schedule `as` takes from `s` meets `ok`, a condition on the state before the
step and on the action. -/
def Meets (step : σ → α → Option σ) (ok : σ → α → Prop) : σ → List α → Prop
  | _, [] => True
  | s, a :: as => ok s a ∧ ∀ s', step s a = some s' → Meets step ok s' as

variable {step : σ → α → Option σ} {ok : σ → α → Prop}

@[simp] theorem run_nil (s : σ) : run step s [] = some s := rfl

@[simp] theorem run_cons (s : σ) (a : α) (as : List α) :
    run step s (a :: as) = (step s a).bind fun s' => run step s' as := rfl

theorem run_append (s : σ) (as bs : List α) :
    run step s (as ++ bs) = (run step s as).bind fun s' => run step s' bs := by
  induction as generalizing s with
  | nil => rfl
  | cons a as ih =>
    simp only [List.cons_append, run_cons]
    cases step s a with
    | none => rfl
    | some s' => exact ih s'

theorem run_trans {s s' s'' : σ} {as bs : List α} (h1 : run step s as = some s')
    (h2 : run step s' bs = some s'') : run step s (as ++ bs) = some s'' := by
  rw [run_append, h1]
  exact h2

theorem meets_cons_none {s : σ} {a : α} {as : List α} (h : step s a = none) :
    Meets step ok s (a :: as) ↔ ok s a := by
  simp [Meets, h]

theorem meets_cons_some {s s' : σ} {a : α} {as : List α} (h : step s a = some s') :
    Meets step ok s (a :: as) ↔ ok s a ∧ Meets step ok s' as := by
  simp [Meets, h]

/-- Whether a given schedule meets a decidable condition can be computed. -/
instance Meets.decidable [∀ s a, Decidable (ok s a)] :
    ∀ (s : σ) (as : List α), Decidable (Meets step ok s as)
  | _, [] => isTrue trivial
  | s, a :: as =>
    match h : step s a with
    | none => decidable_of_iff _ (meets_cons_none h).symm
    | some s' =>
      have := Meets.decidable s' as
      decidable_of_iff _ (meets_cons_some h).symm

/-- The invariant rule: what every step preserves, every run preserves. -/
theorem run_invariant {I : σ → Prop} (hstep : ∀ s a s', I s → step s a = some s' → I s') :
    ∀ {s s' : σ} {as : List α}, I s → run step s as = some s' → I s' := by
  intro s s' as hs hr
  induction as generalizing s with
  | nil =>
    cases hr
    exact hs
  | cons a as ih =>
    obtain ⟨t, ht, hr⟩ := Option.bind_eq_some_iff.mp hr
    exact ih (hstep s a t hs ht) hr

/-- The invariant rule for the runs whose steps all meet `ok`. -/
theorem run_invariant_of_meets {I : σ → Prop}
    (hstep : ∀ s a s', I s → ok s a → step s a = some s' → I s') :
    ∀ {s s' : σ} {as : List α}, I s → Meets step ok s as → run step s as = some s' → I s' := by
  intro s s' as hs hm hr
  induction as generalizing s with
  | nil =>
    cases hr
    exact hs
  | cons a as ih =>
    obtain ⟨t, ht, hr⟩ := Option.bind_eq_some_iff.mp hr
    exact ih (hstep s a t hs hm.1 ht) (hm.2 t ht) hr

/-- The forward simulation rule: if every action that is `ok` is enabled and keeps `R` to a machine
that always moves, then so does every schedule of such actions. -/
theorem run_simulation {τ : Type*} {next : τ → α → τ} {R : σ → τ → Prop} {ok : α → Prop}
    (hstep : ∀ s t a, R s t → ok a → ∃ s', step s a = some s' ∧ R s' (next t a)) :
    ∀ {s : σ} {t : τ} {as : List α}, R s t → (∀ a ∈ as, ok a) →
      ∃ s', run step s as = some s' ∧ R s' (as.foldl next t) := by
  intro s t as hR hok
  induction as generalizing s t with
  | nil => exact ⟨s, rfl, hR⟩
  | cons a as ih =>
    obtain ⟨s1, h1, hR1⟩ := hstep s t a hR (hok a (List.mem_cons_self ..))
    obtain ⟨s2, h2, hR2⟩ := ih hR1 fun b hb => hok b (List.mem_cons_of_mem _ hb)
    exact ⟨s2, by rw [run_cons, h1]; exact h2, hR2⟩

/-- The simulation rule between two partial machines: every run of the one is one of the other. -/
theorem run_refines {τ : Type*} {step' : τ → α → Option τ} {R : σ → τ → Prop}
    (hstep : ∀ s t a t', R s t → step' t a = some t' → ∃ s', step s a = some s' ∧ R s' t') :
    ∀ {s : σ} {t t' : τ} {as : List α}, R s t → run step' t as = some t' →
      ∃ s', run step s as = some s' ∧ R s' t' := by
  intro s t t' as hR hr
  induction as generalizing s t with
  | nil =>
    cases hr
    exact ⟨s, rfl, hR⟩
  | cons a as ih =>
    obtain ⟨t1, ht1, hr⟩ := Option.bind_eq_some_iff.mp hr
    obtain ⟨s1, hs1, hR1⟩ := hstep s t a t1 hR ht1
    obtain ⟨s2, hs2, hR2⟩ := ih hR1 hr
    exact ⟨s2, by rw [run_cons, hs1]; exact hs2, hR2⟩

theorem meets_append {s s' : σ} {as bs : List α} (hr : run step s as = some s')
    (h1 : Meets step ok s as) (h2 : Meets step ok s' bs) : Meets step ok s (as ++ bs) := by
  induction as generalizing s with
  | nil =>
    cases hr
    exact h2
  | cons a as ih =>
    obtain ⟨t, ht, hr⟩ := Option.bind_eq_some_iff.mp hr
    refine ⟨h1.1, ?_⟩
    intro t' ht'
    cases ht.symm.trans ht'
    exact ih hr (h1.2 t ht)

/-- The simulation rule with silent steps: an action that `label` maps to nothing leaves the abstract
machine where it is, any other is one action of it. -/
theorem run_stutters {τ β : Type*} {step' : τ → β → Option τ} {R : σ → τ → Prop}
    {label : α → Option β}
    (hsilent : ∀ s t a s', R s t → ok s a → step s a = some s' → label a = none → R s' t)
    (hstep : ∀ s t a s' b, R s t → ok s a → step s a = some s' → label a = some b →
      ∃ t', step' t b = some t' ∧ R s' t') :
    ∀ {s s' : σ} {t : τ} {as : List α}, R s t → Meets step ok s as → run step s as = some s' →
      ∃ t', run step' t (as.filterMap label) = some t' ∧ R s' t' := by
  intro s s' t as hR hm hr
  induction as generalizing s t with
  | nil =>
    cases hr
    exact ⟨t, rfl, hR⟩
  | cons a as ih =>
    obtain ⟨s1, hs1, hr⟩ := Option.bind_eq_some_iff.mp hr
    cases hlabel : label a with
    | none =>
      rw [List.filterMap_cons_none hlabel]
      exact ih (hsilent s t a s1 hR hm.1 hs1 hlabel) (hm.2 s1 hs1) hr
    | some b =>
      obtain ⟨t1, ht1, hR1⟩ := hstep s t a s1 b hR hm.1 hs1 hlabel
      obtain ⟨t', ht', hR'⟩ := ih hR1 (hm.2 s1 hs1) hr
      exact ⟨t', by rw [List.filterMap_cons_some hlabel, run_cons, ht1]; exact ht', hR'⟩

/-- The rule of expansion: if every step of the abstract machine is a run whose steps are all `ok`,
then so is every run of it. -/
theorem run_expands {τ β : Type*} {step' : τ → β → Option τ} {R : σ → τ → Prop}
    (hstep : ∀ s t b t', R s t → step' t b = some t' →
      ∃ as s', run step s as = some s' ∧ Meets step ok s as ∧ R s' t') :
    ∀ {s : σ} {t t' : τ} {bs : List β}, R s t → run step' t bs = some t' →
      ∃ as s', run step s as = some s' ∧ Meets step ok s as ∧ R s' t' := by
  intro s t t' bs hR hr
  induction bs generalizing s t with
  | nil =>
    cases hr
    exact ⟨[], s, rfl, trivial, hR⟩
  | cons b bs ih =>
    obtain ⟨t1, ht1, hr⟩ := Option.bind_eq_some_iff.mp hr
    obtain ⟨as, s1, hs1, hm1, hR1⟩ := hstep s t b t1 hR ht1
    obtain ⟨as', s', hs', hm', hR'⟩ := ih hR1 hr
    exact ⟨as ++ as', s', run_trans hs1 hs', meets_append hs1 hm1 hm', hR'⟩

theorem exists_run_cons {Q : σ → Prop} {s s1 : σ} {a : α} (hs : step s a = some s1) (hok : ok s a)
    (h : ∃ as s', run step s1 as = some s' ∧ Meets step ok s1 as ∧ Q s') :
    ∃ as s', run step s as = some s' ∧ Meets step ok s as ∧ Q s' := by
  obtain ⟨as, s', hr, hm, hq⟩ := h
  exact ⟨a :: as, s', by rw [run_cons, hs]; exact hr, (meets_cons_some hs).mpr ⟨hok, hm⟩, hq⟩

/-- The rule of variants: if from every state of `I` some step leads to `Q` or stays in `I` and
lowers the variant, then some run leads to `Q`. -/
theorem exists_run_of_variant {I Q : σ → Prop} {variant : σ → Nat}
    (hstep : ∀ s, I s → ∃ a s', step s a = some s' ∧ ok s a ∧
      (Q s' ∨ I s' ∧ variant s' < variant s)) :
    ∀ {s : σ}, I s → ∃ as s', run step s as = some s' ∧ Meets step ok s as ∧ Q s' := by
  intro s hs
  induction hv : variant s using Nat.strongRecOn generalizing s with
  | ind k ih =>
    obtain ⟨a, s', hs', hok, hq | ⟨hI, hlt⟩⟩ := hstep s hs
    · exact exists_run_cons hs' hok ⟨[], s', rfl, trivial, hq⟩
    · exact exists_run_cons hs' hok (ih (variant s') (hv ▸ hlt) hI rfl)

/-! ## What a run costs -/

/-- The sum over the steps of a run of what each costs, given the state before it and the action. -/
def total (step : σ → α → Option σ) (cost : σ → α → Nat) : σ → List α → Nat
  | _, [] => 0
  | s, a :: as =>
    cost s a + match step s a with
      | some s' => total step cost s' as
      | none => 0

theorem total_cons {cost : σ → α → Nat} {s s' : σ} {a : α} {as : List α}
    (h : step s a = some s') :
    total step cost s (a :: as) = cost s a + total step cost s' as := by
  rw [total, h]

theorem total_add (cost cost' : σ → α → Nat) (s : σ) (as : List α) :
    total step (fun s a => cost s a + cost' s a) s as =
      total step cost s as + total step cost' s as := by
  induction as generalizing s with
  | nil => rfl
  | cons a as ih =>
    simp only [total]
    cases step s a with
    | none => rfl
    | some s' =>
      simp only [ih]
      exact Nat.add_add_add_comm ..

theorem total_mul (n : Nat) (cost : σ → α → Nat) (s : σ) (as : List α) :
    total step (fun s a => n * cost s a) s as = n * total step cost s as := by
  induction as generalizing s with
  | nil => rfl
  | cons a as ih =>
    simp only [total, Nat.mul_add]
    cases step s a with
    | none => rfl
    | some s' => simp only [ih]

/-- Steps that all cost the same. -/
theorem total_const {cost : σ → α → Nat} {n : Nat} {as : List α}
    (h : ∀ a ∈ as, ∀ s, cost s a = n) {s s' : σ} (hr : run step s as = some s') :
    total step cost s as = as.length * n := by
  induction as generalizing s with
  | nil => exact (Nat.zero_mul n).symm
  | cons a as ih =>
    obtain ⟨t, ht, hr⟩ := Option.bind_eq_some_iff.mp hr
    rw [total_cons ht, h a (List.mem_cons_self ..), List.length_cons, Nat.succ_mul,
      ih (fun b hb => h b (List.mem_cons_of_mem _ hb)) hr, Nat.add_comm]

/-- The rule of potentials: what a step costs and adds to the potential is paid for by its credit,
so the costs of a run are paid for by its credits. -/
theorem run_amortised {cost credit : σ → α → Nat} {potential : σ → Nat}
    (hstep : ∀ s a s', step s a = some s' → potential s' + cost s a ≤ potential s + credit s a) :
    ∀ {s s' : σ} {as : List α}, run step s as = some s' →
      potential s' + total step cost s as ≤ potential s + total step credit s as := by
  intro s s' as hr
  induction as generalizing s with
  | nil =>
    cases hr
    exact Nat.le_refl _
  | cons a as ih =>
    obtain ⟨t, ht, hr⟩ := Option.bind_eq_some_iff.mp hr
    have hfirst := hstep s a t ht
    have hrest := ih hr
    rw [total_cons ht, total_cons ht]
    omega

/-- The rule of gauges: if every step raises the gauge by what it costs at least, then the gauge
shows what the run has cost. -/
theorem total_le_gauge {I : σ → Prop} {cost : σ → α → Nat} {gauge : σ → Nat}
    (hstep : ∀ s a s', I s → step s a = some s' → I s' ∧ gauge s + cost s a ≤ gauge s') :
    ∀ {s s' : σ} {as : List α}, I s → run step s as = some s' →
      gauge s + total step cost s as ≤ gauge s' := by
  intro s s' as hs hr
  induction as generalizing s with
  | nil =>
    cases hr
    exact Nat.le_refl _
  | cons a as ih =>
    obtain ⟨t, ht, hr⟩ := Option.bind_eq_some_iff.mp hr
    obtain ⟨hI, hfirst⟩ := hstep s a t hs ht
    have hrest := ih hI hr
    rw [total_cons ht]
    omega

end Machine
