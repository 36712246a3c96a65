import Mathlib.Logic.Function.Basic
import Twd.Machine.Run

/-!
# The array that threads fill and empty by claiming slots

Translation of `infbuffer.c`. An add claims a slot through `tidx`, stores its item there and then
counts itself in `widx`; a rem claims a slot through `ridx`, waits until `widx` is past it and loads
it. Any number of threads take turns, one access to shared memory at a time.

The three counters are natural numbers: they wrap only after `2 ^ 64` claims, and every claim but
the first `items` belongs to a call that has not returned, that is to a thread of its own.
-/

namespace Twd

/-- `infbuffer__s`. -/
structure Infbuffer (α : Type*) where
  /-- The slots; `none` is the zero that `calloc` leaves. -/
  data : Nat → Option α
  ridx : Nat
  widx : Nat
  tidx : Nat

/-- `FETCH_THEN_ADD`: the value found in a variable holding `p`, and the value left in it. -/
def fetchThenAdd (p incr : Nat) : Nat × Nat := (p, p + incr)

/-- The buffer as `infbuffer_init` leaves it when it returns 0. -/
def infbufferInit (α : Type*) : Infbuffer α where
  data _ := none
  ridx := 0
  widx := 0
  tidx := 0

/-- What a thread does next. -/
inductive Phase (α : Type*)
  /-- Outside `infbuffer_add` and `infbuffer_rem`. -/
  | idle
  /-- `buf->data[idx] = item` -/
  | store (item : α) (idx : Nat)
  /-- `FETCH_THEN_ADD(&buf->widx,1)` -/
  | publish (item : α) (idx : Nat)
  /-- `while(idx >= buf->widx)` -/
  | wait (idx : Nat)
  /-- `*pitem = buf->data[idx]` -/
  | load (idx : Nat)
  deriving DecidableEq, Repr

/-- A call of `infbuffer_add` and the slot it has claimed. -/
structure Added (τ α : Type*) where
  thread : τ
  item : α
  idx : Nat
  deriving DecidableEq, Repr

/-- A load by `infbuffer_rem` and the value it has returned. -/
structure Loaded (τ α : Type*) where
  thread : τ
  idx : Nat
  value : Option α
  deriving DecidableEq, Repr

/-- The buffer and the threads that use it, together with what has happened so far. -/
structure InfThreads (τ α : Type*) where
  buf : Infbuffer α
  phase : τ → Phase α
  /-- The adds, in the order of their claims. -/
  adds : List (Added τ α)
  /-- The slots stored to, with the items. -/
  stores : List (Nat × α)
  /-- The slots of the adds that have returned. -/
  completed : List Nat
  /-- The rems and the slots they have claimed, in the order of their claims. -/
  rems : List (τ × Nat)
  /-- The loads, in order. -/
  loads : List (Loaded τ α)

/-- What happens next: thread `t` enters a call, or does the next step of the one it is in. -/
inductive InfAction (τ α : Type*)
  | add (t : τ) (item : α)
  | rem (t : τ)
  | step (t : τ)
  deriving DecidableEq, Repr

/-- Whether the action starts an add. -/
def InfAction.isAdd {τ α : Type*} : InfAction τ α → Bool
  | .add _ _ => true
  | _ => false

/-- After `infbuffer_init`, with every thread outside. -/
def InfThreads.init (τ α : Type*) : InfThreads τ α where
  buf := infbufferInit α
  phase _ := .idle
  adds := []
  stores := []
  completed := []
  rems := []
  loads := []

section Step

variable {τ α : Type*} [DecidableEq τ]

/-- `infbuffer_add` up to the end of its first statement. -/
def infbufferAdd (s : InfThreads τ α) (t : τ) (item : α) : Option (InfThreads τ α) :=
  match s.phase t with
  | .idle =>
    let (idx, tidx) := fetchThenAdd s.buf.tidx 1
    some { s with
      buf := { s.buf with tidx := tidx }
      phase := Function.update s.phase t (.store item idx)
      adds := s.adds ++ [⟨t, item, idx⟩] }
  | _ => none

/-- `infbuffer_rem` up to the end of its first statement. -/
def infbufferRem (s : InfThreads τ α) (t : τ) : Option (InfThreads τ α) :=
  match s.phase t with
  | .idle =>
    let (idx, ridx) := fetchThenAdd s.buf.ridx 1
    some { s with
      buf := { s.buf with ridx := ridx }
      phase := Function.update s.phase t (.wait idx)
      rems := s.rems ++ [(t, idx)] }
  | _ => none

/-- The next access to shared memory of the call that thread `t` is in. -/
def infbufferNext (s : InfThreads τ α) (t : τ) : Option (InfThreads τ α) :=
  match s.phase t with
  | .idle => none
  | .store item idx =>
    some { s with
      buf := { s.buf with data := Function.update s.buf.data idx (some item) }
      phase := Function.update s.phase t (.publish item idx)
      stores := s.stores ++ [(idx, item)] }
  | .publish _ idx =>
    let (_, widx) := fetchThenAdd s.buf.widx 1
    some { s with
      buf := { s.buf with widx := widx }
      phase := Function.update s.phase t .idle
      completed := s.completed ++ [idx] }
  | .wait idx =>
    if idx ≥ s.buf.widx then some s -- sched_yield()
    else some { s with phase := Function.update s.phase t (.load idx) }
  | .load idx =>
    some { s with
      phase := Function.update s.phase t .idle
      loads := s.loads ++ [⟨t, idx, s.buf.data idx⟩] }

/-- One step of one thread. -/
def InfThreads.step (s : InfThreads τ α) : InfAction τ α → Option (InfThreads τ α)
  | .add t item => infbufferAdd s t item
  | .rem t => infbufferRem s t
  | .step t => infbufferNext s t

end Step

variable {τ α : Type*}

/-- No add is between its two increments. -/
def Quiescent (s : InfThreads τ α) : Prop :=
  ∀ t item idx, s.phase t ≠ .store item idx ∧ s.phase t ≠ .publish item idx

/-- Every value loaded is the item of the add that claimed the slot. -/
def Delivered (s : InfThreads τ α) : Prop :=
  ∀ l ∈ s.loads, ∃ e ∈ s.adds, e.idx = l.idx ∧ l.value = some e.item

/-- No slot is used twice, by adds or by rems, none outside the array, and the adds that have
returned are counted. -/
structure NoLoss (items : Nat) (s : InfThreads τ α) : Prop where
  adds_distinct : (s.adds.map Added.idx).Nodup
  stores_distinct : (s.stores.map Prod.fst).Nodup
  rems_distinct : (s.rems.map Prod.snd).Nodup
  loads_distinct : (s.loads.map Loaded.idx).Nodup
  widx_eq : s.buf.widx = s.completed.length
  widx_le : s.buf.widx ≤ s.buf.tidx
  store_lt : ∀ p ∈ s.stores, p.1 < items
  load_lt : ∀ l ∈ s.loads, l.idx < items
  /-- The rems claim the slots without a gap, and each claim is kept until its load. -/
  rems_idx : s.rems.map Prod.snd = List.range s.buf.ridx
  not_skipped : ∀ i < s.buf.ridx,
    i ∈ s.loads.map Loaded.idx ∨ ∃ t, s.phase t = .wait i ∨ s.phase t = .load i
  /-- Between adds, the slots below `widx` hold the items added, one per add. -/
  slots : Quiescent s → s.buf.widx = s.adds.length ∧
    ∀ i (hi : i < s.adds.length), s.buf.data i = some s.adds[i].item

/-- The loads made between `s` and `s'` of slots that were counted at `s` have returned the items
added there. -/
def LaterLoads (s s' : InfThreads τ α) : Prop :=
  ∃ new, s'.loads = s.loads ++ new ∧ ∀ l ∈ new, l.idx < s.buf.widx →
    ∃ e ∈ s.adds, e.idx = l.idx ∧ l.value = some e.item

end Twd
