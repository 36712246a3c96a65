import Twd.Infbuffer.Infbuffer

/-!
# The writers and readers that share an array

Translation of the two threads of `test_infbuffer.c`, and what its readers rely on: the items of one
writer come to one reader in the order in which they were added.
-/

namespace Twd

/-- `payload__s` without its padding. -/
structure Payload where
  magic : Nat
  id : Nat
  seqno : Nat
  deriving DecidableEq, Repr

def magic : Nat := 0x00435053

/-- The items that `thread_writer` adds, in order. -/
def TestInfbuffer.threadWriter (id maxseq : Nat) : List Payload :=
  (List.range maxseq).map fun seqno => { magic := magic, id := id, seqno := seqno + 1 }

/-- The assertions of `thread_reader` that an item can fail. -/
inductive Assertion
  | magic
  | id
  | seqno
  deriving DecidableEq, Repr

/-- `thread_reader` on what its successive calls of `infbuffer_rem` leave in `p`: the assertion that
fails, if one does. -/
def TestInfbuffer.threadReader (writers maxseq : Nat) :
    (seqnos : Nat → Nat) → List (Option Payload) → Option Assertion
  | _, [] => none
  | _, none :: _ => none -- if (load == NULL) break
  | seqnos, some load :: rest =>
    if load.magic ≠ magic then some .magic
    else if ¬ load.id < writers then some .id
    else if ¬ load.seqno > seqnos load.id then some .seqno
    else if load.seqno < maxseq then
      threadReader writers maxseq (Function.update seqnos load.id load.seqno) rest
    else none

/-- The item that the action starts to add, if it is one by thread `t`. -/
def InfAction.addedBy {τ : Type*} [DecidableEq τ] (t : τ) : InfAction τ Payload → Option Payload
  | .add u item => if u = t then some item else none
  | _ => none

/-- Of two items of one writer, the first has the smaller sequence number. -/
def Payload.Before (p q : Payload) : Prop := p.id = q.id → p.seqno < q.seqno

/-- Each writer adds its own items, with strictly increasing sequence numbers. -/
structure WritersInOrder {τ : Type*} [DecidableEq τ] (as : List (InfAction τ Payload)) : Prop where
  own : ∀ t u p q, .add t p ∈ as → .add u q ∈ as → p.id = q.id → t = u
  increasing : ∀ t, (as.filterMap (InfAction.addedBy t)).Pairwise Payload.Before

/-- What the rems of thread `u` have returned so far, in order. -/
def obtained {τ : Type*} [DecidableEq τ] (u : τ) (s : InfThreads τ Payload) :
    List (Option Payload) :=
  (s.loads.filter (·.thread = u)).map Loaded.value

end Twd
