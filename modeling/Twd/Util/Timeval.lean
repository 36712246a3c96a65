import Mathlib.Algebra.Order.Group.Int
import Mathlib.Algebra.Order.Group.Unbundled.Abs
import Twd.TwdTime.TwdTime

/-!
# Times and numbers that wrap around

Translation of the functions on `struct timeval` of `util.c`, of the one of `twd_time.h`, and of
those on sequence numbers of `util.h`. The members of a `struct timeval` are integers, for values of
type `long`; a result that does not fit a `long`, or an `int` where the code computes with these, is
`none`. What is converted to an `int` or an `unsigned` is taken modulo `2 ^ 32`.
-/

namespace Twd.Util

/-- The result of an operation on values of type `long`. -/
def checkLong (x : Int) : Option Int := if -2 ^ 63 ≤ x ∧ x < 2 ^ 63 then some x else none

/-- The result of an operation on values of type `int`. -/
def checkInt (x : Int) : Option Int := if -2 ^ 31 ≤ x ∧ x < 2 ^ 31 then some x else none

/-- `(int)x` -/
def toInt (x : Int) : Int := (BitVec.ofInt 32 x).toInt

def timevalMinus (s1 s2 : TwdTime.Timeval) : Option TwdTime.Timeval :=
  if s1.tvUsec ≥ s2.tvUsec then do
    let usec ← checkLong (s1.tvUsec - s2.tvUsec)
    let sec ← checkLong (s1.tvSec - s2.tvSec)
    some ⟨sec, usec⟩
  else do
    let usec ← checkLong (s1.tvUsec + 1000000)
    let usec ← checkLong (usec - s2.tvUsec)
    let sec ← checkLong (s1.tvSec - s2.tvSec)
    let sec ← checkLong (sec - 1)
    some ⟨sec, usec⟩

def timevalMinusMsec (s1 s2 : TwdTime.Timeval) : Option (BitVec 32) :=
  if s1.tvSec < s2.tvSec then some 0
  else do
    let secs ← checkLong (s1.tvSec - s2.tvSec)
    -- Avoid overflow.
    if secs > 2000000 then some 2000000000
    else if s1.tvSec > s2.tvSec then do
      let usecs ← checkLong (toInt s1.tvUsec - s2.tvUsec)
      some (BitVec.ofInt 32 ((BitVec.ofInt 32 secs * 1000).toNat + usecs.tdiv 1000))
    else if s1.tvUsec ≤ s2.tvUsec then some 0
    else do
      let usecs ← checkLong (s1.tvUsec - s2.tvUsec)
      some (BitVec.ofInt 32 usecs / 1000)

def timevalAddMsec (s : TwdTime.Timeval) (msecs : BitVec 32) : Option TwdTime.Timeval := do
  let sec ← checkLong (s.tvSec + msecs.toInt.tdiv 1000)
  let usecs ← checkLong (s.tvUsec + msecs.toInt.tmod 1000 * 1000)
  let usecs := toInt usecs
  if usecs < 1000000 then some ⟨sec, usecs⟩
  else do
    let sec ← checkLong (sec + 1)
    some ⟨sec, usecs - 1000000⟩

def timevalCompare (s1 s2 : TwdTime.Timeval) : Int :=
  if s1.tvSec < s2.tvSec then -1
  else if s1.tvSec > s2.tvSec then 1
  else if s1.tvUsec < s2.tvUsec then -1
  else if s1.tvUsec > s2.tvUsec then 1
  else 0

/-- `*d` afterwards; `{0, 0}` represents infinity. -/
def timevalMin (d s : TwdTime.Timeval) : TwdTime.Timeval :=
  if s.tvSec = 0 then d
  else if d.tvSec = 0 ∨ timevalCompare d s > 0 then s
  else d

def seqnoCompare (s1 s2 : BitVec 16) : Int :=
  if s1 = s2 then 0
  else if (s2.setWidth 32 - s1.setWidth 32) &&& 0x8000#32 ≠ 0 then 1 else -1

/-- A `short`. -/
def seqnoMinus (s1 s2 : BitVec 16) : BitVec 16 :=
  ((s1.setWidth 32 - s2.setWidth 32) &&& 0xFFFF#32).setWidth 16

/-- The sum is an `int` that wraps around. -/
def seqnoPlus (s : BitVec 16) (plus : BitVec 32) : BitVec 16 :=
  ((s.setWidth 32 + plus) &&& 0xFFFF#32).setWidth 16

/-- The number that stands for `n` when the numbers wrap around. -/
def seqno (n : Int) : BitVec 16 := BitVec.ofInt 16 n

/-! ## Deadlines -/

/-- The microseconds are less than a second. -/
def Normalised (t : TwdTime.Timeval) : Prop := 0 ≤ t.tvUsec ∧ t.tvUsec < 1000000

instance (t : TwdTime.Timeval) : Decidable (Normalised t) := inferInstanceAs (Decidable (_ ∧ _))

/-- The deadline `d` that is `msecs` after `now`: it is normalised and exact, it comes after `now`,
and so far away it is. -/
structure Deadline (now : TwdTime.Timeval) (msecs : Int) (d : TwdTime.Timeval) : Prop where
  normalised : Normalised d
  time : d.time = now.time + 1000 * msecs
  compare : timevalCompare d now = msecs.sign
  minus : ∃ diff, timevalMinus d now = some diff ∧ Normalised diff ∧ diff.time = 1000 * msecs
  minusMsec : ∃ left, timevalMinusMsec d now = some left ∧ (left.toNat : Int) = msecs

/-- The earliest deadline of a list, or infinity if there is none. -/
structure Earliest (l : List TwdTime.Timeval) (d : TwdTime.Timeval) : Prop where
  mem : d = ⟨0, 0⟩ ∨ (d ∈ l ∧ d.tvSec ≠ 0)
  none : d = ⟨0, 0⟩ → ∀ s ∈ l, s.tvSec = 0
  le : ∀ s ∈ l, s.tvSec ≠ 0 → d.time ≤ s.time

/-! ## The other subtraction -/

/-- The first branch of `timeval_subtract` of `twd_time.h`: `*y` afterwards. `nsec` is an `int`, and
so is its product with a million. -/
def borrow (x y : TwdTime.Timeval) : Option TwdTime.Timeval :=
  if x.tvUsec < y.tvUsec then do
    let usecs ← checkLong (y.tvUsec - x.tvUsec)
    let nsec := toInt (usecs.tdiv 1000000 + 1)
    let usecs ← checkInt (1000000 * nsec)
    let usec ← checkLong (y.tvUsec - usecs)
    let sec ← checkLong (y.tvSec + nsec)
    some ⟨sec, usec⟩
  else some y

/-- The second branch. -/
def carry (x y : TwdTime.Timeval) : Option TwdTime.Timeval := do
  let usecs ← checkLong (x.tvUsec - y.tvUsec)
  if usecs > 1000000 then do
    let nsec := toInt (usecs.tdiv 1000000)
    let usecs ← checkInt (1000000 * nsec)
    let usec ← checkLong (y.tvUsec + usecs)
    let sec ← checkLong (y.tvSec - nsec)
    some ⟨sec, usec⟩
  else some y

/-- `timeval_subtract`: `*result` and `*y` afterwards, and what it returns. -/
def timevalSubtract (x y : TwdTime.Timeval) :
    Option (TwdTime.Timeval × TwdTime.Timeval × Int) := do
  let y ← borrow x y
  let y ← carry x y
  let sec ← checkLong (x.tvSec - y.tvSec)
  let usec ← checkLong (x.tvUsec - y.tvUsec)
  some (⟨sec, usec⟩, y, if x.tvSec < y.tvSec then 1 else 0)

/-- `timeval_subtract` gives the difference that `timeval_minus` gives, and the order that
`timeval_compare` gives. -/
def SubtractsAlike (x y : TwdTime.Timeval) : Prop :=
  ∃ result y' rc, timevalSubtract x y = some (result, y', rc) ∧ timevalMinus x y = some result ∧
    (rc = 1 ↔ timevalCompare x y = -1)

/-- The members are far enough from the ends of a `long` that no difference of them overflows. -/
def Moderate (t : TwdTime.Timeval) : Prop := |t.tvSec| < 2 ^ 61 ∧ |t.tvUsec| < 2 ^ 61

instance (t : TwdTime.Timeval) : Decidable (Moderate t) := inferInstanceAs (Decidable (_ ∧ _))

end Twd.Util
