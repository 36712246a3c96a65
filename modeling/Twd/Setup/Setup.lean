import Mathlib.Logic.Function.Basic
import Twd.ParseAddr.ParseAddr

/-!
# The table of hosts

Translation of `finish_setup` of `twd.c`. The table `g_hosts` is a function from indices, next to
the number of elements that have been allocated for it; a store behind them is recorded and not
prevented. What the function prints is left out.
-/

namespace Twd

open Chars

/-- The members of `TWD_Options_t` that `finish_setup` uses. -/
structure SetupOptions where
  server : Bool
  inetd : Bool
  deriving DecidableEq, Repr

/-- What the system answers. -/
structure SetupEnv where
  /-- Whether `calloc` has memory. -/
  calloc : Bool
  /-- The lookup made for the host with index `i`. -/
  getaddrinfo : Nat → GetAddrInfo
  /-- The octets of the name of standard input, or an error number. -/
  getsockname : Except Nat (List UInt8)

/-- What `finish_setup` returns and leaves. -/
structure Setup where
  rc : Nat
  /-- `g_numhosts` -/
  numhosts : Nat
  /-- The number of elements of `g_hosts`. -/
  allocated : Nat
  /-- The octets of the elements of `g_hosts`. -/
  hosts : Nat → List UInt8
  /-- The indices of the elements stored to, in order. -/
  stores : List Nat
  options : SetupOptions

/-- The 28 octets of a `sockaddr__u` from `calloc`. -/
def zeroAddr : List UInt8 := List.replicate 28 0

/-- The octets of a `sockaddr__u` after an address has been copied to it. -/
def copyAddr (old addr : List UInt8) : List UInt8 := addr ++ old.drop addr.length

/-- A store to an element. -/
def Setup.store (s : Setup) (i : Nat) (addr : List UInt8) : Setup :=
  { s with hosts := Function.update s.hosts i (copyAddr (s.hosts i) addr), stores := s.stores ++ [i] }

/-- The loop of `finish_setup`, with `remaining` hosts to go: `idx` and `i` advance together. -/
def setupHosts (env : SetupEnv) (argv : Nat → CString) :
    (remaining i idx : Nat) → Setup → Option Setup
  | 0, _, _, s => some s
  | remaining + 1, i, idx, s => do
    let r ← toAddrPort (env.getaddrinfo i) (argv idx) .any
    let s := match r.copied with
      | some addr => s.store i addr
      | none => s
    if r.rc ≠ 0 then some { s with rc := r.rc }
    else setupHosts env argv remaining (i + 1) (idx + 1) s

def finishSetup (env : SetupEnv) (o : SetupOptions) (idx argc : Nat) (argv : Nat → CString) :
    Option Setup :=
  if idx = 0 ∨ argc < idx then none -- assert(idx > 0), assert(idx <= argc)
  else
    let numhosts := argc - idx
    let s : Setup := ⟨0, numhosts, 0, fun _ => [], [], o⟩
    if numhosts = 0 then
      if ¬ o.server then some { s with rc := einval }
      else if ¬ env.calloc then some { s with rc := enomem }
      else
        let s := { s with allocated := 1, hosts := fun _ => zeroAddr, numhosts := 1 }
        match env.getsockname with
        | .error err => some { s with rc := err }
        | .ok addr => some { s.store 0 addr with options := { o with inetd := true } }
    else
      if ¬ env.calloc then some { s with rc := enomem }
      else setupHosts env argv numhosts 0 idx
        { s with allocated := idx, hosts := fun _ => zeroAddr }

/-- The address that `to_addr_port` produces for argument `idx`, which is host `i`. -/
def hostAddr (env : SetupEnv) (argv : Nat → CString) (i idx : Nat) : Option (List UInt8) := do
  let r ← toAddrPort (env.getaddrinfo i) (argv idx) .any
  r.copied

/-- Every store is to an element that was allocated, and when `finish_setup` returns 0 the table has
an element with its address for every host. -/
structure FillsTable (env : SetupEnv) (idx argc : Nat) (argv : Nat → CString) (r : Setup) :
    Prop where
  stores_lt : ∀ i ∈ r.stores, i < r.allocated
  numhosts : r.rc = 0 → r.numhosts = argc - idx
  numhosts_le : r.rc = 0 → r.numhosts ≤ r.allocated
  hosts : r.rc = 0 → ∀ i < r.numhosts, ∃ addr, hostAddr env argv i (idx + i) = some addr ∧
    r.hosts i = copyAddr zeroAddr addr

end Twd
