import Twd.AddressSpace.AddressSpace
import Twd.Ringbuffer.Queue

/-!
# The memory of a ring

Translation of `ringbuffer_init` and `ringbuffer_destroy`, and of the functions in between with the
addresses that they copy to and from. What the system does is a state of its own; how each of its
calls turns out is a parameter. A call that fails sets `errno` and changes nothing else, but for a
`close` that lets the descriptor go; one that succeeds leaves `errno` as it was. Addresses are
natural numbers: no range that is mapped reaches the end of the 64-bit addresses.
-/

namespace Twd

open AddressSpace

/-- What is behind an address. -/
inductive Cell
  /-- A page that is mapped with `PROT_NONE`. -/
  | reserved
  /-- A byte of a file that is mapped shared. -/
  | file (file off : Nat)
  deriving DecidableEq, Repr

/-- The part of the system that a ring uses. -/
structure System where
  /-- The file behind each descriptor. -/
  fds : Nat → Option Nat
  /-- Whether a file has a name. -/
  linked : Nat → Bool
  fileSize : Nat → Nat
  content : Nat × Nat → UInt8
  space : Nat → Option Cell
  errno : Nat

/-- How the calls of `ringbuffer_init` turn out: what they give, or an error number. -/
structure InitAnswers where
  /-- The descriptor and the new file. -/
  mkstemp : Except Nat (Nat × Nat)
  unlink : Except Nat Unit
  ftruncate : Except Nat Unit
  /-- The address of the reserved range. -/
  mmap : Except Nat Nat
  mapFirst : Except Nat Unit
  mapSecond : Except Nat Unit
  munmap : Except Nat Unit
  /-- With an error, whether the descriptor stays open. -/
  close : Except (Nat × Bool) Unit

/-! ## System calls -/

namespace System

/-- `mkstemp`: the descriptor. -/
def mkstemp (s : System) : Except Nat (Nat × Nat) → Option Nat × System
  | .error errno => (none, { s with errno := errno })
  | .ok (fh, file) => (some fh, { s with
      fds := Function.update s.fds fh (some file)
      linked := Function.update s.linked file true
      fileSize := Function.update s.fileSize file 0 })

/-- `unlink` of the file that the descriptor has been opened for. -/
def unlink (s : System) (fh : Nat) : Except Nat Unit → System
  | .error errno => { s with errno := errno }
  | .ok () =>
    match s.fds fh with
    | none => s
    | some file => { s with linked := Function.update s.linked file false }

/-- `ftruncate`: whether it succeeds. -/
def ftruncate (s : System) (fh size : Nat) : Except Nat Unit → Bool × System
  | .error errno => (false, { s with errno := errno })
  | .ok () =>
    match s.fds fh with
    | none => (true, s)
    | some file => (true, { s with
        fileSize := Function.update s.fileSize file size
        content := fun c => if c.1 = file then 0 else s.content c })

def close (s : System) (fh : Nat) : Except (Nat × Bool) Unit → System
  | .error (errno, stays) => { s with
      errno := errno
      fds := if stays then s.fds else Function.update s.fds fh none }
  | .ok () => { s with fds := Function.update s.fds fh none }

/-- `MAP_FAILED` -/
def mapFailed : Nat := 2 ^ 64 - 1

/-- `mmap` with `PROT_NONE` and `MAP_ANONYMOUS`, at an address that the system chooses. -/
def mmapAnonymous (s : System) (len : Nat) : Except Nat Nat → Nat × System
  | .error errno => (mapFailed, { s with errno := errno })
  | .ok address => (address, { s with space := mapRange s.space address len fun _ => .reserved })

/-- `mmap` of a file with `MAP_FIXED` and `MAP_SHARED`, from its first byte on. -/
def mmapFixed (s : System) (address len fh : Nat) : Except Nat Unit → Nat × System
  | .error errno => (mapFailed, { s with errno := errno })
  | .ok () =>
    match s.fds fh with
    | none => (mapFailed, s)
    | some file => (address, { s with space := mapRange s.space address len (.file file) })

def munmap (s : System) (address len : Nat) : Except Nat Unit → System
  | .error errno => { s with errno := errno }
  | .ok () => { s with space := unmapRange s.space address len }

/-- The bytes that can be read and written at the addresses: those of mapped files, as far as the
files go. -/
def bytes (s : System) (a : Nat) : Option (Nat × Nat) :=
  match s.space a with
  | some (.file file off) => if off < s.fileSize file then some (file, off) else none
  | _ => none

/-- `memcpy` to an address of the ring; `none` is a fault. -/
def copyIn (s : System) (address : Nat) (src : List UInt8) : Option System :=
  (AddressSpace.store s.bytes s.content address src).map fun content => { s with content := content }

/-- `memcpy` from an address of the ring; `none` is a fault. -/
def copyOut (s : System) (address len : Nat) : Option (List UInt8) :=
  AddressSpace.load s.bytes s.content address len

end System

/-! ## The functions -/

/-- `ringbuffer__s` with its address. -/
structure MappedRing where
  address : Nat
  rbuf : Ringbuffer
  deriving DecidableEq, Repr

/-- `ringbuffer_init`: what it returns, `*buff` and the system afterwards; `none` if an assertion
fails. -/
def ringbufferMap (pageSize : Nat) (ans : InitAnswers) (s : System) (buff : MappedRing)
    (size : SizeT) : Option (Nat × MappedRing × System) :=
  if size.toNat < pageSize ∨ size.toNat % pageSize ≠ 0 then none
  else
    match s.mkstemp ans.mkstemp with
    | (none, s) => some (s.errno, buff, s)
    | (some fh, s) =>
      let s := s.unlink fh ans.unlink
      let buff := { buff with rbuf := ringbufferInit size }
      match s.ftruncate fh size.toNat ans.ftruncate with
      | (false, s) =>
        let s := s.close fh ans.close
        some (s.errno, buff, s)
      | (true, s) =>
        let (address, s) := s.mmapAnonymous (size * 2).toNat ans.mmap
        let buff := { buff with address := address }
        if buff.address = System.mapFailed then
          let s := s.close fh ans.close
          some (s.errno, buff, s)
        else
          let (address, s) := s.mmapFixed buff.address size.toNat fh ans.mapFirst
          if address ≠ buff.address then
            let s := (s.munmap buff.address (size * 2).toNat ans.munmap).close fh ans.close
            some (12, buff, s) -- ENOMEM
          else
            let (address, s) := s.mmapFixed (buff.address + size.toNat) size.toNat fh ans.mapSecond
            if address ≠ buff.address + size.toNat then
              let s := (s.munmap buff.address (size * 2).toNat ans.munmap).close fh ans.close
              some (s.errno, buff, s)
            else some (0, buff, s.close fh ans.close)

/-- `ringbuffer_destroy`: what it returns and the system afterwards, if its `munmap` turns out as
given. -/
def ringbufferDestroy (s : System) (buff : MappedRing) (munmap : Except Nat Unit) : Nat × System :=
  let s := { s with errno := 0 }
  let s := s.munmap buff.address (buff.rbuf.size * 2).toNat munmap
  (s.errno, s)

/-- `ringbuffer_write` -/
def ringbufferWriteAt (s : System) (buff : MappedRing) (src : List UInt8) (amount : SizeT) :
    Option (SizeT × MappedRing × System) :=
  if amount = 0 then none
  else
    let rbuf := buff.rbuf
    let len := minSizeT (rbuf.size - ringbufferUsed rbuf) amount
    if 0 < len then do
      let s ← s.copyIn (buff.address + rbuf.widx.toNat) (src.take len.toNat)
      some (len, { buff with rbuf := { rbuf with widx := rbuf.widx + len } }, s)
    else some (len, buff, s)

/-- `ringbuffer_read` -/
def ringbufferReadAt (tries : Nat) (s : System) (buff : MappedRing) (amount : SizeT) :
    Option (SizeT × List UInt8 × MappedRing) :=
  if amount = 0 then none
  else
    let rbuf := buff.rbuf
    let size := rbuf.size
    let used := ringbufferUsed rbuf
    if 0 < used then do
      let len := minSizeT used amount
      let dest ← s.copyOut (buff.address + rbuf.ridx.toNat) len.toNat
      let rbuf := { rbuf with ridx := rbuf.ridx + len }
      if size < rbuf.ridx then
        let widx ← wrapLoop size tries rbuf.widx
        some (len, dest, { buff with rbuf := { rbuf with widx := widx, ridx := rbuf.ridx - size } })
      else some (len, dest, { buff with rbuf := rbuf })
    else some (0, [], buff)

/-- `ringbuffer_peek` -/
def ringbufferPeekAt (s : System) (buff : MappedRing) (amount : SizeT) :
    Option (SizeT × List UInt8) :=
  if amount = 0 then none
  else
    let rbuf := buff.rbuf
    let used := ringbufferUsed rbuf
    if 0 < used then do
      let len := minSizeT used amount
      let dest ← s.copyOut (buff.address + rbuf.ridx.toNat) len.toNat
      some (len, dest)
    else some (0, [])

/-! ## From the first call to the last -/

/-- A mapped ring, the system, and the results of the calls so far. -/
structure MappedState where
  buff : MappedRing
  system : System
  results : List Result

/-- Performs one call; `tries` bounds the wrap loop of a read. -/
def Call.execAt (tries : Nat) (s : MappedState) : Call → Option MappedState
  | .write src amount => do
    let (len, buff, system) ← ringbufferWriteAt s.system s.buff src amount
    some ⟨buff, system, s.results ++ [.count len.toNat]⟩
  | .read amount => do
    let (len, dest, buff) ← ringbufferReadAt tries s.system s.buff amount
    some ⟨buff, s.system, s.results ++ [.bytes len.toNat dest]⟩
  | .peek amount => do
    let (len, dest) ← ringbufferPeekAt s.system s.buff amount
    some ⟨s.buff, s.system, s.results ++ [.bytes len.toNat dest]⟩
  | .reset =>
    let (rc, rbuf) := ringbufferReset s.buff.rbuf
    some ⟨{ s.buff with rbuf := rbuf }, s.system, s.results ++ [.status rc]⟩
  | .used => some ⟨s.buff, s.system, s.results ++ [.count (ringbufferUsed s.buff.rbuf).toNat]⟩
  | .avail => some ⟨s.buff, s.system, s.results ++ [.count (ringbufferAvail s.buff.rbuf).toNat]⟩

/-! ## What the system promises -/

/-- The descriptor and the file of `mkstemp` are new, `ftruncate` takes no length that is negative
as an `off_t`, the range of `mmap` was free and ends before `MAP_FAILED`, and a call that fails says
why. -/
structure InitAnswers.Kept (ans : InitAnswers) (s : System) (size : SizeT) : Prop where
  descriptor : ∀ fh file, ans.mkstemp = .ok (fh, file) → s.fds fh = none ∧ s.linked file = false
  length : ans.ftruncate = .ok () → size.toNat < 2 ^ 63
  range : ∀ address, ans.mmap = .ok address → address + (size * 2).toNat < System.mapFailed ∧
    Free s.space address (size * 2).toNat
  mkstemp_errno : ∀ e, ans.mkstemp = .error e → e ≠ 0
  ftruncate_errno : ∀ e, ans.ftruncate = .error e → e ≠ 0
  mmap_errno : ∀ e, ans.mmap = .error e → e ≠ 0
  mapSecond_errno : ∀ e, ans.mapSecond = .error e → e ≠ 0
  munmap_errno : ∀ e, ans.munmap = .error e → e ≠ 0
  close_errno : ∀ e stays, ans.close = .error (e, stays) → e ≠ 0

/-- The calls of `ringbuffer_init` that it looks at all succeed; it does not look at `unlink` and
`close`. -/
structure InitAnswers.Succeed (ans : InitAnswers) : Prop where
  mkstemp : ∃ p, ans.mkstemp = .ok p
  ftruncate : ans.ftruncate = .ok ()
  mmap : ∃ address, ans.mmap = .ok address
  mapFirst : ans.mapFirst = .ok ()
  mapSecond : ans.mapSecond = .ok ()

/-- The descriptors that are left: the one of `mkstemp` if `close` fails and it stays open. -/
def InitAnswers.fdsLeft (ans : InitAnswers) (fds : Nat → Option Nat) : Nat → Option Nat :=
  match ans.mkstemp, ans.close with
  | .ok (fh, file), .error (_, true) => Function.update fds fh (some file)
  | _, _ => fds

/-- The names that are left: the one of `mkstemp` if `unlink` fails. -/
def InitAnswers.linkedLeft (ans : InitAnswers) (linked : Nat → Bool) : Nat → Bool :=
  match ans.mkstemp, ans.unlink with
  | .ok (_, file), .error _ => Function.update linked file true
  | _, _ => linked

/-- The bytes of a file are behind the addresses of the ring, twice in a row. -/
structure MappedRing.Mirrored (buff : MappedRing) (s : System) (file : Nat) : Prop where
  fileSize : s.fileSize file = buff.rbuf.size.toNat
  repeats : Repeats s.space buff.address (2 * buff.rbuf.size.toNat) buff.rbuf.size.toNat (.file file)

/-- What `ringbuffer_init` leaves in every case: no descriptor unless `close` leaves it, no name of a
file unless `unlink` does; and either the ring is there and nothing else has been mapped, or nothing
has, unless `munmap` leaves what is in the reserved range. -/
structure Initialised (ans : InitAnswers) (s : System) (size : SizeT) (rc : Nat) (buff : MappedRing)
    (s' : System) : Prop where
  fds : s'.fds = ans.fdsLeft s.fds
  linked : s'.linked = ans.linkedLeft s.linked
  succeed : rc = 0 ↔ ans.Succeed
  failed : rc ≠ 0 → s'.space = s.space ∨ ∃ address e, ans.mmap = .ok address ∧
    ans.munmap = .error e ∧ ∀ a, ¬ (address ≤ a ∧ a < address + 2 * size.toNat) →
      s'.space a = s.space a
  rbuf : rc = 0 → buff.rbuf = ringbufferInit size ∧ 2 * size.toNat < 2 ^ 64
  mirrored : rc = 0 → ∃ file, ans.mkstemp.toOption.map Prod.snd = some file ∧
    buff.Mirrored s' file ∧ ∀ off < size.toNat, s'.content (file, off) = 0
  destroyed : rc = 0 → unmapRange s'.space buff.address (2 * size.toNat) = s.space
  others : ∀ c, ans.mkstemp.toOption.map Prod.snd ≠ some c.1 → s'.content c = s.content c

/-- What the system was, but for what `close` and `unlink` have left and the bytes of the file. -/
structure Restored (ans : InitAnswers) (s s' : System) : Prop where
  fds : s'.fds = ans.fdsLeft s.fds
  linked : s'.linked = ans.linkedLeft s.linked
  space : s'.space = s.space
  others : ∀ c, ans.mkstemp.toOption.map Prod.snd ≠ some c.1 → s'.content c = s.content c

/-- The calls on the ring do not fault and return what a queue returns, and afterwards
`ringbuffer_destroy` restores the system and returns 0, or returns the error of its `munmap` and has
changed nothing but `errno`. -/
def Serves (ans : InitAnswers) (s : System) (size : SizeT) (buff : MappedRing) (s' : System)
    (tries : Nat) (calls : List Call) : Prop :=
  ∃ st, Machine.run (Call.execAt tries) ⟨buff, s', []⟩ calls = some st ∧
    st.results = queueResults size.toNat calls ∧
    (ringbufferDestroy st.system st.buff (.ok ())).1 = 0 ∧
    Restored ans s (ringbufferDestroy st.system st.buff (.ok ())).2 ∧
    ∀ e, ringbufferDestroy st.system st.buff (.error e) = (e, { st.system with errno := e })

end Twd
