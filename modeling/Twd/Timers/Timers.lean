import Mathlib.Algebra.GroupWithZero.Nat
import Mathlib.Data.Finset.Card
import Mathlib.Data.Fintype.Basic
import Twd.Machine.Run

/-!
# The loop over the timers

Translation of the loop of `create_timerfds` of `test_simple.c`, once the descriptors have been
created and the timers armed. A timer may expire between any two steps of the program. What the
program waits for, `pselect` and a `read` that blocks, is an action that is not enabled.
-/

namespace Twd.Timers

open Machine

inductive Timer
  | ms1
  | ms10
  | ms100
  deriving DecidableEq, Repr

instance : Fintype Timer := ⟨{.ms1, .ms10, .ms100}, fun t => by cases t <;> decide⟩

/-- `highfd` when the loop starts. -/
def highfd (fd : Timer → Nat) : Nat :=
  let highfd := fd .ms1
  let highfd := if fd .ms10 > fd .ms1 then fd .ms10 else highfd
  let highfd := if fd .ms100 > fd .ms10 then fd .ms100 else highfd
  highfd + 1

/-- Where the program is. -/
inductive Point
  /-- At the condition of the loop, before `test++ < 10000`. -/
  | test
  /-- At `pselect`. -/
  | select
  /-- At `READ_OVER` of a timer, in the loop or behind it. -/
  | readOver (t : Timer) (behind : Bool)
  /-- Behind the second group of `READ_OVER`. -/
  | done
  deriving DecidableEq, Repr

structure State where
  /-- The expirations of each timer that have not been read. -/
  pending : Timer → Nat
  /-- All its expirations. -/
  expired : Timer → Nat
  /-- Its expirations when `pselect` last found a timer. -/
  seen : Timer → Nat
  /-- The lines printed: the timer and what `read_overrun` has returned. -/
  fired : List (Timer × Nat)
  currfds : Timer → Bool
  test : Nat
  rc : Int
  point : Point

def State.init : State where
  pending _ := 0
  expired _ := 0
  seen _ := 0
  fired := []
  currfds _ := true
  test := 0
  rc := 0
  point := .test

/-- What happens next. -/
inductive Action
  | expire (t : Timer)
  /-- The program's own step, where it is not at `pselect`. -/
  | next
  /-- `pselect` finds timers. It does not look at descriptors from `highfd` on, and leaves anything
  there. -/
  | ready (other : Timer → Bool)
  | timeout
  | error

/-- The timers that `pselect` finds. -/
def readyTimers (fd : Timer → Nat) (s : State) : Finset Timer :=
  Finset.univ.filter fun t => s.currfds t ∧ fd t < highfd fd ∧ 0 < s.pending t

/-- Behind the loop: `if(rc > 0)`. -/
def afterLoop (s : State) : State :=
  { s with point := if s.rc > 0 then .readOver .ms100 true else .done }

/-- `READ_OVER(t)`, where `read_overrun` waits for an expiration. -/
def readOver (s : State) (t : Timer) : Option State :=
  if s.currfds t then
    if s.pending t = 0 then none
    else some { s with
      pending := Function.update s.pending t 0
      fired := s.fired ++ [(t, s.pending t)] }
  else some s

/-- The rest of the body of the loop, or of the function. -/
def afterReads (behind : Bool) (s : State) : State :=
  if behind then { s with point := .done }
  else { s with rc := 0, currfds := fun _ => true, point := .test }

def next (s : State) : Option State :=
  match s.point with
  | .test =>
    if s.test < 10000 then some { s with test := s.test + 1, point := .select }
    else some (afterLoop { s with test := s.test + 1 })
  | .select => none
  | .readOver .ms100 behind =>
    (readOver s .ms100).map fun s => { s with point := .readOver .ms10 behind }
  | .readOver .ms10 behind =>
    (readOver s .ms10).map fun s => { s with point := .readOver .ms1 behind }
  | .readOver .ms1 behind => (readOver s .ms1).map (afterReads behind)
  | .done => none

def step (fd : Timer → Nat) (s : State) : Action → Option State
  | .expire t => some { s with
      pending := Function.update s.pending t (s.pending t + 1)
      expired := Function.update s.expired t (s.expired t + 1) }
  | .next => next s
  | .ready other =>
    if s.point = .select ∧ (readyTimers fd s).Nonempty then
      some { s with
        rc := (readyTimers fd s).card
        currfds := fun t => if fd t < highfd fd then t ∈ readyTimers fd s else other t
        seen := s.expired
        point := .readOver .ms100 false }
    else none
  | .timeout =>
    if s.point = .select ∧ ¬ (readyTimers fd s).Nonempty then
      some (afterLoop { s with rc := 0, currfds := fun _ => false })
    else none
  | .error => if s.point = .select then some (afterLoop { s with rc := -1 }) else none

/-- What has been printed of a timer. -/
def printed (s : State) (t : Timer) : Nat :=
  (s.fired.map fun l => if l.1 = t then l.2 else 0).sum

/-- The steps of the program. -/
def work (_ : State) : Action → Nat
  | .expire _ => 0
  | _ => 1

/-- `pselect` looks at every timer. -/
def Covered (fd : Timer → Nat) : Prop := ∀ t, fd t < highfd fd

/-- Every expiration is printed once or still to be read, and a line is printed only for a timer
that has expired. For the timers that `pselect` looks at no `read` waits, and what had expired when
it returned is printed when the round has ended. The group of `READ_OVER` behind the loop is never
used. -/
structure Sound (fd : Timer → Nat) (s : State) : Prop where
  conserved : ∀ t, printed s t + s.pending t = s.expired t
  positive : ∀ l ∈ s.fired, 0 < l.2
  no_wait : ∀ t behind, s.point = .readOver t behind → fd t < highfd fd → s.currfds t = true →
    0 < s.pending t
  not_behind : ∀ t, s.point ≠ .readOver t true
  fresh : (∀ t behind, s.point ≠ .readOver t behind) → ∀ t, fd t < highfd fd →
    s.seen t ≤ printed s t
  length_le : s.fired.length ≤ 30000

end Twd.Timers
