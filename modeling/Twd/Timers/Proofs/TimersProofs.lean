import Twd.Timers.Timers

/-!
# Proofs about the loop over the timers

The invariant says what is left to be done of a round: which of the timers that `pselect` has found
are still to be read.
-/

namespace Twd.Timers

open Machine

variable {fd : Timer → Nat} {s s' : State}

/-- The order in which the timers are read. -/
def rank : Timer → Nat
  | .ms100 => 0
  | .ms10 => 1
  | .ms1 => 2

/-- How much of the loop has been done. -/
def State.gauge (s : State) : Nat :=
  match s.point with
  | .test => 5 * s.test
  | .select => 5 * s.test - 4
  | .readOver t _ => 5 * s.test - 3 + rank t
  | .done => 50001

structure Inv (fd : Timer → Nat) (s : State) : Prop where
  conserved : ∀ t, printed s t + s.pending t = s.expired t
  positive : ∀ l ∈ s.fired, 0 < l.2
  seen_le : ∀ t, s.seen t ≤ s.expired t
  not_behind : ∀ t, s.point ≠ .readOver t true
  between : s.point = .test ∨ s.point = .select → s.rc = 0 ∧ ∀ t, s.currfds t = true
  /-- Outside of a round everything that was seen is printed. -/
  fresh : (∀ t behind, s.point ≠ .readOver t behind) → ∀ t, fd t < highfd fd →
    s.seen t ≤ printed s t
  /-- In a round a timer is still to be read, or what was seen of it is printed. -/
  within : ∀ u, s.point = .readOver u false → ∀ t, fd t < highfd fd →
    (rank u ≤ rank t ∧ s.currfds t = true ∧ 0 < s.pending t) ∨
      ((rank u ≤ rank t → s.currfds t = false) ∧ s.seen t ≤ printed s t)
  length_le : match s.point with
    | .test => s.fired.length ≤ 3 * s.test ∧ s.test ≤ 10000
    | .select => s.fired.length + 3 ≤ 3 * s.test ∧ s.test ≤ 10000
    | .readOver t _ => s.fired.length + 3 ≤ 3 * s.test + rank t ∧ s.test ≤ 10000
    | .done => s.fired.length ≤ 30000 ∧ s.rc ≤ 0

theorem inv_init (fd : Timer → Nat) : Inv fd State.init where
  conserved _ := rfl
  positive _ h := absurd h List.not_mem_nil
  seen_le _ := le_rfl
  not_behind _ := nofun
  between _ := ⟨rfl, fun _ => rfl⟩
  fresh _ _ _ := le_rfl
  within _ := nofun
  length_le := ⟨le_rfl, Nat.zero_le _⟩

/-! ## What a line adds -/

theorem printed_append (fired : List (Timer × Nat)) (t u : Timer) (n : Nat) :
    ((fired ++ [(u, n)]).map fun l => if l.1 = t then l.2 else 0).sum =
      (fired.map fun l => if l.1 = t then l.2 else 0).sum + if u = t then n else 0 := by
  simp

/-- What `READ_OVER` does to a timer that is read and to one that is not. -/
theorem readOver_cases {t : Timer} (h : readOver s t = some s') :
    (s.currfds t = false ∧ s' = s) ∨
      (s.currfds t = true ∧ 0 < s.pending t ∧ s' = { s with
        pending := Function.update s.pending t 0
        fired := s.fired ++ [(t, s.pending t)] }) := by
  unfold readOver at h
  split_ifs at h with hcurr hpending
  · exact .inr ⟨hcurr, Nat.pos_of_ne_zero hpending, (Option.some.inj h).symm⟩
  · exact .inl ⟨by simpa using hcurr, (Option.some.inj h).symm⟩

/-- The counts after `READ_OVER`: nothing is lost, and the timer has nothing left if it is read. -/
structure Read (s s' : State) (t : Timer) : Prop where
  conserved : ∀ u, printed s' u + s'.pending u = printed s u + s.pending u
  positive : (∀ l ∈ s.fired, 0 < l.2) → ∀ l ∈ s'.fired, 0 < l.2
  length_le : s'.fired.length ≤ s.fired.length + 1
  other : ∀ u, u ≠ t → printed s' u = printed s u ∧ s'.pending u = s.pending u
  read : s.currfds t = true → s'.pending t = 0
  unread : s.currfds t = false → printed s' t = printed s t
  frame : s'.expired = s.expired ∧ s'.seen = s.seen ∧ s'.currfds = s.currfds ∧ s'.test = s.test ∧
    s'.rc = s.rc ∧ s'.point = s.point

theorem read_of_readOver {t : Timer} (h : readOver s t = some s') : Read s s' t := by
  obtain ⟨hcurr, rfl⟩ | ⟨hcurr, hpos, rfl⟩ := readOver_cases h
  · constructor
    case conserved => exact fun _ => rfl
    case positive => exact id
    case length_le => exact Nat.le_succ _
    case other => exact fun _ _ => ⟨rfl, rfl⟩
    case read => exact fun hread => absurd (hcurr.symm.trans hread) (by decide)
    case unread => exact fun _ => rfl
    case frame => exact ⟨rfl, rfl, rfl, rfl, rfl, rfl⟩
  · constructor
    case conserved =>
      intro u
      simp only [printed, printed_append]
      by_cases hu : t = u
      · subst hu
        simp
      · simp [hu, Function.update_of_ne (Ne.symm hu)]
    case positive =>
      intro hall l hl
      rcases List.mem_append.mp hl with hl | hl
      · exact hall l hl
      · obtain rfl := List.mem_singleton.mp hl
        exact hpos
    case length_le => simp
    case other =>
      intro u hu
      refine ⟨?_, Function.update_of_ne hu ..⟩
      rw [printed, printed_append, if_neg (Ne.symm hu), Nat.add_zero, printed]
    case read => exact fun _ => Function.update_self ..
    case unread => exact fun hread => absurd (hcurr.symm.trans hread) (by decide)
    case frame => exact ⟨rfl, rfl, rfl, rfl, rfl, rfl⟩

/-! ## The steps -/

theorem inv_expire (h : Inv fd s) (t : Timer) :
    Inv fd { s with
      pending := Function.update s.pending t (s.pending t + 1)
      expired := Function.update s.expired t (s.expired t + 1) } := by
  have hpending : ∀ u, s.pending u ≤ Function.update s.pending t (s.pending t + 1) u := by
    intro u
    by_cases hu : u = t
    · subst hu
      simp
    · rw [Function.update_of_ne hu]
  constructor
  case conserved =>
    intro u
    have hu := h.conserved u
    by_cases hut : u = t
    · subst hut
      simp only [printed, Function.update_self] at hu ⊢
      omega
    · simp only [printed, Function.update_of_ne hut] at hu ⊢
      exact hu
  case positive => exact h.positive
  case seen_le =>
    intro u
    by_cases hut : u = t
    · subst hut
      simp only [Function.update_self]
      exact Nat.le_succ_of_le (h.seen_le u)
    · simp only [Function.update_of_ne hut]
      exact h.seen_le u
  case not_behind => exact h.not_behind
  case between => exact h.between
  case fresh => exact h.fresh
  case within =>
    intro v hv u hu
    refine (h.within v hv u hu).imp_left fun ⟨hrank, hcurr, hpos⟩ => ⟨hrank, hcurr, ?_⟩
    exact lt_of_lt_of_le hpos (hpending u)
  case length_le => exact h.length_le

/-- The condition of the loop. -/
theorem inv_test (h : Inv fd s) (hpoint : s.point = .test) (hnext : next s = some s') :
    Inv fd s' := by
  have hlen := h.length_le
  obtain ⟨hrc, hcurr⟩ := h.between (.inl hpoint)
  have hfresh := h.fresh (by simp [hpoint])
  simp only [hpoint] at hlen
  simp only [next, hpoint] at hnext
  split_ifs at hnext with htest
  · obtain rfl := Option.some.inj hnext
    constructor
    case conserved => exact h.conserved
    case positive => exact h.positive
    case seen_le => exact h.seen_le
    case not_behind => exact fun _ => nofun
    case between => exact fun _ => ⟨hrc, hcurr⟩
    case fresh => exact fun _ => hfresh
    case within => exact fun _ => nofun
    case length_le =>
      simp only
      omega
  · obtain rfl := Option.some.inj hnext
    have hnot : ¬ s.rc > 0 := by omega
    simp only [afterLoop, hnot, if_false]
    constructor
    case conserved => exact h.conserved
    case positive => exact h.positive
    case seen_le => exact h.seen_le
    case not_behind => exact fun _ => nofun
    case between => exact fun hpt => absurd hpt (by simp)
    case fresh => exact fun _ => hfresh
    case within => exact fun _ => nofun
    case length_le =>
      simp only
      omega

/-- `pselect` finds timers, and a round begins. -/
theorem inv_ready (h : Inv fd s) (hpoint : s.point = .select) (other : Timer → Bool) :
    Inv fd { s with
      rc := (readyTimers fd s).card
      currfds := fun t => if fd t < highfd fd then decide (t ∈ readyTimers fd s) else other t
      seen := s.expired
      point := .readOver .ms100 false } := by
  have hlen := h.length_le
  obtain ⟨-, hcurr⟩ := h.between (.inr hpoint)
  simp only [hpoint] at hlen
  constructor
  case conserved => exact h.conserved
  case positive => exact h.positive
  case seen_le => exact fun _ => le_rfl
  case not_behind => exact fun _ => nofun
  case between => exact fun hpt => absurd hpt (by simp)
  case fresh => exact fun hpt => absurd rfl (hpt .ms100 false)
  case within =>
    intro u hu t ht
    simp only [Point.readOver.injEq, and_true] at hu
    subst hu
    have hcons := h.conserved t
    simp only [if_pos ht, printed] at hcons ⊢
    by_cases hpos : 0 < s.pending t
    · refine .inl ⟨Nat.zero_le _, ?_, hpos⟩
      simp [readyTimers, hcurr, ht, hpos]
    · refine .inr ⟨fun _ => ?_, by omega⟩
      simp [readyTimers, hpos]
  case length_le =>
    simp only [rank]
    omega

/-- The loop is left when `pselect` finds nothing. -/
theorem inv_left (h : Inv fd s) (hpoint : s.point = .select) {rc : Int} (hrc : rc ≤ 0)
    (currfds : Timer → Bool) : Inv fd (afterLoop { s with rc := rc, currfds := currfds }) := by
  have hlen := h.length_le
  simp only [hpoint] at hlen
  have hnot : ¬ rc > 0 := by omega
  simp only [afterLoop, hnot, if_false]
  constructor
  case conserved => exact h.conserved
  case positive => exact h.positive
  case seen_le => exact h.seen_le
  case not_behind => exact fun _ => nofun
  case between => exact fun hpt => absurd hpt (by simp)
  case fresh => exact fun _ => h.fresh (by simp [hpoint])
  case within => exact fun _ => nofun
  case length_le =>
    simp only
    omega

/-- What is printed of a timer after its turn has come. -/
theorem Read.within {t : Timer} (hread : Read s s' t) (h : Inv fd s)
    (hpoint : s.point = .readOver t false) {u : Timer} (hu : fd u < highfd fd) :
    (rank t < rank u ∧ s'.currfds u = true ∧ 0 < s'.pending u) ∨
      ((rank t < rank u → s'.currfds u = false) ∧ s'.seen u ≤ printed s' u) := by
  obtain ⟨hexp, hseen, hcurr, -, -, -⟩ := hread.frame
  rw [hcurr, hseen]
  have hcons := hread.conserved u
  have hcons' := h.conserved u
  have hle := h.seen_le u
  by_cases hut : u = t
  · subst hut
    refine .inr ⟨fun hlt => absurd hlt (lt_irrefl _), ?_⟩
    rcases h.within u hpoint u hu with ⟨-, hset, -⟩ | ⟨hunset, hprinted⟩
    · have hzero := hread.read hset
      omega
    · rw [hread.unread (hunset le_rfl)]
      exact hprinted
  · obtain ⟨hprinted, hpending⟩ := hread.other u hut
    rw [hprinted, hpending]
    have hne : rank t ≠ rank u := by
      intro heq
      cases t <;> cases u <;> simp [rank] at heq hut
    refine (h.within t hpoint u hu).imp (fun ⟨hrank, hset, hpos⟩ => ?_) fun ⟨hunset, hle⟩ => ?_
    · exact ⟨lt_of_le_of_ne hrank hne, hset, hpos⟩
    · exact ⟨fun hlt => hunset hlt.le, hle⟩

/-- A timer is read, and it is the turn of the one behind it. -/
theorem inv_readOver {t u : Timer} (h : Inv fd s) (hpoint : s.point = .readOver t false)
    (hread : Read s s' t) (hrank : rank u = rank t + 1) :
    Inv fd { s' with point := .readOver u false } := by
  have hlen := h.length_le
  simp only [hpoint] at hlen
  obtain ⟨hexp, hseen, -, htest, -, -⟩ := hread.frame
  have hlen' := hread.length_le
  constructor
  case conserved =>
    intro v
    have hv := hread.conserved v
    rw [h.conserved v, ← hexp] at hv
    exact hv
  case positive => exact hread.positive h.positive
  case seen_le =>
    intro v
    simp only [hexp, hseen]
    exact h.seen_le v
  case not_behind => exact fun _ => nofun
  case between => exact fun hpt => absurd hpt (by simp)
  case fresh => exact fun hpt => absurd rfl (hpt u false)
  case within =>
    intro v hv w hw
    simp only [Point.readOver.injEq, and_true] at hv
    subst hv
    have hwithin := hread.within h hpoint hw
    simp only [hrank, Nat.succ_le_iff]
    exact hwithin
  case length_le =>
    simp only [htest]
    omega

/-- The last timer is read, and the round has ended. -/
theorem inv_last (h : Inv fd s) (hpoint : s.point = .readOver .ms1 false)
    (hread : Read s s' .ms1) : Inv fd (afterReads false s') := by
  have hlen := h.length_le
  simp only [hpoint, rank] at hlen
  obtain ⟨hexp, hseen, -, htest, -, -⟩ := hread.frame
  have hlen' := hread.length_le
  simp only [afterReads, Bool.false_eq_true, if_false]
  constructor
  case conserved =>
    intro v
    have hv := hread.conserved v
    rw [h.conserved v, ← hexp] at hv
    exact hv
  case positive => exact hread.positive h.positive
  case seen_le =>
    intro v
    simp only [hexp, hseen]
    exact h.seen_le v
  case not_behind => exact fun _ => nofun
  case between => exact fun _ => ⟨rfl, fun _ => rfl⟩
  case fresh =>
    intro _ v hv
    rcases hread.within h hpoint hv with ⟨hlt, -, -⟩ | ⟨-, hle⟩
    · exact absurd hlt (by cases v <;> decide)
    · exact hle
  case within => exact fun _ => nofun
  case length_le =>
    simp only [htest]
    omega

theorem inv_step (h : Inv fd s) (a : Action) (hstep : step fd s a = some s') : Inv fd s' := by
  cases a with
  | expire t =>
    obtain rfl := Option.some.inj hstep
    exact inv_expire h t
  | ready other =>
    simp only [step] at hstep
    split_ifs at hstep with hready
    obtain rfl := Option.some.inj hstep
    exact inv_ready h hready.1 other
  | timeout =>
    simp only [step] at hstep
    split_ifs at hstep with hready
    obtain rfl := Option.some.inj hstep
    exact inv_left h hready.1 le_rfl _
  | error =>
    simp only [step] at hstep
    split_ifs at hstep with hready
    obtain rfl := Option.some.inj hstep
    exact inv_left h hready (by decide) _
  | next =>
    cases hpoint : s.point with
    | test => exact inv_test h hpoint hstep
    | select => simp [step, next, hpoint] at hstep
    | done => simp [step, next, hpoint] at hstep
    | readOver t behind =>
      obtain rfl : behind = false := by
        cases behind with
        | false => rfl
        | true => exact absurd hpoint (h.not_behind t)
      cases t with
      | ms100 =>
        simp only [step, next, hpoint] at hstep
        obtain ⟨s1, hs1, rfl⟩ := Option.map_eq_some_iff.mp hstep
        exact inv_readOver h hpoint (read_of_readOver hs1) rfl
      | ms10 =>
        simp only [step, next, hpoint] at hstep
        obtain ⟨s1, hs1, rfl⟩ := Option.map_eq_some_iff.mp hstep
        exact inv_readOver h hpoint (read_of_readOver hs1) rfl
      | ms1 =>
        simp only [step, next, hpoint] at hstep
        obtain ⟨s1, hs1, rfl⟩ := Option.map_eq_some_iff.mp hstep
        exact inv_last h hpoint (read_of_readOver hs1)

theorem inv_run {as : List Action} (h : run (step fd) .init as = some s) : Inv fd s :=
  run_invariant (fun _ a _ hs hstep => inv_step hs a hstep) (inv_init fd) h

/-- **What the loop prints**, in every run: whatever expires when, nothing is lost and nothing is
printed twice. -/
theorem timers_sound (fd : Timer → Nat) (as : List Action) (s : State)
    (h : run (step fd) .init as = some s) : Sound fd s := by
  have hinv := inv_run h
  refine ⟨hinv.conserved, hinv.positive, fun t behind hpoint ht hcurr => ?_, hinv.not_behind,
    hinv.fresh, ?_⟩
  · obtain rfl : behind = false := by
      cases behind with
      | false => rfl
      | true => exact absurd hpoint (hinv.not_behind t)
    rcases hinv.within t hpoint t ht with ⟨-, -, hpos⟩ | ⟨hunset, -⟩
    · exact hpos
    · rw [hunset le_rfl] at hcurr
      exact absurd hcurr (by decide)
  · have hlen := hinv.length_le
    cases hpoint : s.point with
    | test =>
      simp only [hpoint] at hlen
      omega
    | select =>
      simp only [hpoint] at hlen
      omega
    | readOver t behind =>
      simp only [hpoint] at hlen
      have : rank t ≤ 2 := by cases t <;> decide
      omega
    | done =>
      simp only [hpoint] at hlen
      exact hlen.1

/-- Descriptors as they are created one after the other. -/
def ascending : Timer → Nat
  | .ms1 => 3
  | .ms10 => 4
  | .ms100 => 5

/-- A round in which a timer expires once more before it is read. -/
def round : List Action :=
  [.expire .ms1, .next, .ready fun _ => false, .next, .expire .ms1, .next, .next]

theorem timers_sound_round :
    ∃ s, run (step ascending) .init round = some s ∧ Sound ascending s := by
  have hsome : (run (step ascending) .init round).isSome = true := by decide
  obtain ⟨s, hs⟩ := Option.isSome_iff_exists.mp hsome
  exact ⟨s, hs, timers_sound ascending round s hs⟩

/-! ## The end of the loop -/

theorem covered_iff (fd : Timer → Nat) :
    Covered fd ↔ ¬ (fd .ms10 < fd .ms100 ∧ fd .ms100 < fd .ms1) := by
  have hall : Covered fd ↔ fd .ms1 < highfd fd ∧ fd .ms10 < highfd fd ∧ fd .ms100 < highfd fd :=
    ⟨fun h => ⟨h _, h _, h _⟩, fun ⟨h1, h10, h100⟩ t => by cases t <;> assumption⟩
  rw [hall]
  simp only [highfd]
  split_ifs <;> omega

theorem gauge_next (h : Inv fd s) (hnext : next s = some s') : s.gauge + 1 ≤ s'.gauge := by
  have hlen := h.length_le
  cases hpoint : s.point with
  | test =>
    obtain ⟨hrc, -⟩ := h.between (.inl hpoint)
    simp only [hpoint] at hlen
    simp only [next, hpoint] at hnext
    split_ifs at hnext with htest
    · obtain rfl := Option.some.inj hnext
      simp only [State.gauge, hpoint]
      omega
    · obtain rfl := Option.some.inj hnext
      simp only [State.gauge, hpoint, afterLoop, hrc, gt_iff_lt, lt_self_iff_false, if_false]
      omega
  | select => simp [next, hpoint] at hnext
  | done => simp [next, hpoint] at hnext
  | readOver t behind =>
    simp only [hpoint] at hlen
    obtain rfl : behind = false := by
      cases behind with
      | false => rfl
      | true => exact absurd hpoint (h.not_behind t)
    cases t with
    | ms100 =>
      simp only [next, hpoint] at hnext
      obtain ⟨s1, hs1, rfl⟩ := Option.map_eq_some_iff.mp hnext
      have htest := (read_of_readOver hs1).frame.2.2.2.1
      simp only [State.gauge, hpoint, htest, rank]
      omega
    | ms10 =>
      simp only [next, hpoint] at hnext
      obtain ⟨s1, hs1, rfl⟩ := Option.map_eq_some_iff.mp hnext
      have htest := (read_of_readOver hs1).frame.2.2.2.1
      simp only [State.gauge, hpoint, htest, rank]
      omega
    | ms1 =>
      simp only [next, hpoint] at hnext
      obtain ⟨s1, hs1, rfl⟩ := Option.map_eq_some_iff.mp hnext
      have htest := (read_of_readOver hs1).frame.2.2.2.1
      simp only [State.gauge, hpoint, afterReads, Bool.false_eq_true, if_false, htest, rank] at hlen ⊢
      omega

/-- Every step of the program takes the loop further. -/
theorem gauge_step (h : Inv fd s) (a : Action) (hstep : step fd s a = some s') :
    s.gauge + work s a ≤ s'.gauge := by
  have hlen := h.length_le
  cases a with
  | expire t =>
    obtain rfl := Option.some.inj hstep
    exact le_rfl
  | next => exact gauge_next h hstep
  | ready other =>
    simp only [step] at hstep
    split_ifs at hstep with hready
    obtain rfl := Option.some.inj hstep
    simp only [hready.1] at hlen
    simp only [State.gauge, hready.1, work, rank]
    omega
  | timeout =>
    simp only [step] at hstep
    split_ifs at hstep with hready
    obtain rfl := Option.some.inj hstep
    simp only [hready.1] at hlen
    simp only [State.gauge, hready.1, work, afterLoop, gt_iff_lt, lt_self_iff_false, if_false]
    omega
  | error =>
    simp only [step] at hstep
    split_ifs at hstep with hready
    obtain rfl := Option.some.inj hstep
    simp only [hready] at hlen
    simp only [State.gauge, hready, work, afterLoop, show ¬ (-1 : Int) > 0 by decide, if_false]
    omega

theorem gauge_le (h : Inv fd s) : s.gauge ≤ 50001 := by
  have hlen := h.length_le
  unfold State.gauge
  cases hpoint : s.point with
  | test =>
    simp only [hpoint] at hlen ⊢
    omega
  | select =>
    simp only [hpoint] at hlen ⊢
    omega
  | readOver t behind =>
    simp only [hpoint] at hlen ⊢
    have : rank t ≤ 2 := by cases t <;> decide
    omega
  | done => exact le_rfl

/-- The program can always go on when `pselect` looks at every timer. -/
theorem exists_step (h : Inv fd s) (hcovered : Covered fd) (hdone : s.point ≠ .done) :
    ∃ a s', work s a = 1 ∧ step fd s a = some s' := by
  cases hpoint : s.point with
  | test =>
    by_cases htest : s.test < 10000
    · exact ⟨.next, _, rfl, by simp only [step, next, hpoint, htest, if_true]; rfl⟩
    · exact ⟨.next, _, rfl, by simp only [step, next, hpoint, htest, if_false]; rfl⟩
  | select =>
    by_cases hready : (readyTimers fd s).Nonempty
    · exact ⟨.ready fun _ => false, _, rfl, if_pos ⟨hpoint, hready⟩⟩
    · exact ⟨.timeout, _, rfl, if_pos ⟨hpoint, hready⟩⟩
  | done => exact absurd hpoint hdone
  | readOver t behind =>
    obtain rfl : behind = false := by
      cases behind with
      | false => rfl
      | true => exact absurd hpoint (h.not_behind t)
    have hread : ∃ s', readOver s t = some s' := by
      unfold readOver
      by_cases hcurr : s.currfds t = true
      · have hpos : ¬ s.pending t = 0 := by
          rcases h.within t hpoint t (hcovered t) with ⟨-, -, hpos⟩ | ⟨hunset, -⟩
          · exact Nat.ne_of_gt hpos
          · exact absurd (hcurr.symm.trans (hunset le_rfl)) (by decide)
        exact ⟨_, by rw [if_pos hcurr, if_neg hpos]⟩
      · exact ⟨_, if_neg hcurr⟩
    obtain ⟨s', hs'⟩ := hread
    cases t <;> exact ⟨.next, _, rfl, by simp only [step, next, hpoint, hs', Option.map_some]; rfl⟩

/-- **The loop ends**: the program takes at most 50001 steps, and when the descriptors are not such
that `highfd` misses one, it is stuck nowhere before its end. -/
theorem timers_end (fd : Timer → Nat) (as : List Action) (s : State)
    (h : run (step fd) .init as = some s) :
    total (step fd) work .init as ≤ 50001 ∧
      (¬ (fd .ms10 < fd .ms100 ∧ fd .ms100 < fd .ms1) → s.point ≠ .done →
        ∃ a s', work s a = 1 ∧ step fd s a = some s') := by
  have hinv := inv_run h
  constructor
  · have hgauge : State.init.gauge + total (step fd) work .init as ≤ s.gauge :=
      total_le_gauge (fun _ a _ hs hstep => ⟨inv_step hs a hstep, gauge_step hs a hstep⟩)
        (inv_init fd) h
    have hle := gauge_le hinv
    omega
  · intro hfd hdone
    exact exists_step hinv ((covered_iff fd).mpr hfd) hdone

theorem timers_end_round :
    ∃ s, run (step ascending) .init round = some s ∧
      total (step ascending) work .init round ≤ 50001 ∧
      (¬ (ascending .ms10 < ascending .ms100 ∧ ascending .ms100 < ascending .ms1) →
        s.point ≠ .done → ∃ a s', work s a = 1 ∧ step ascending s a = some s') := by
  have hsome : (run (step ascending) .init round).isSome = true := by decide
  obtain ⟨s, hs⟩ := Option.isSome_iff_exists.mp hsome
  exact ⟨s, hs, timers_end ascending round s hs⟩

end Twd.Timers
