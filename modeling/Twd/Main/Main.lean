import Twd.Bytes.LittleEndian
import Twd.Options.Options
import Twd.Setup.Setup
import Twd.Strtol.Decimal

/-!
# The program `twd`

Translation of `main` of `twd.c`: the options are read, the table of hosts is set up and printed.
The words in front of the hosts are not looked at any more, and what goes to the standard error is
left out.
-/

namespace Twd

open Chars Getopt Strtol

/-- `AF_INET` and `AF_INET6` -/
inductive Family
  | inet
  | inet6
  deriving DecidableEq, Repr

/-- The number of an address family. -/
def Family.number : Family → Nat
  | inet => 2
  | inet6 => 10

/-- What the system and the C library answer. -/
structure MainEnv where
  posixlyCorrect : Bool
  setup : SetupEnv
  /-- `inet_ntop`: the text of an address of the family. -/
  inetNtop : Family → List UInt8 → List UInt8

/-- How `main` ends, and the lines it has printed. -/
inductive MainEnd
  /-- It returns with a status. -/
  | returned (status : Nat) (lines : List (List UInt8))
  /-- It exits through `usage`. -/
  | usage
  /-- `assert` fails. -/
  | aborted
  /-- It reads or stores outside of a table, or reads through the zero pointer. -/
  | undefined
  deriving DecidableEq, Repr

/-- `sa.sa_family` -/
def saFamily (addr : List UInt8) : Nat := LittleEndian.decode (addr.take 2)

/-- `ntohs(sin.sin_port)`, and `ntohs(sin6.sin6_port)`, which is at the same place. -/
def sinPort (addr : List UInt8) : Nat := LittleEndian.decode ((addr.drop 2).take 2).reverse

/-- `sin.sin_addr` -/
def sinAddr (addr : List UInt8) : List UInt8 := (addr.drop 4).take 4

/-- `sin6.sin6_addr` -/
def sin6Addr (addr : List UInt8) : List UInt8 := (addr.drop 8).take 16

/-- The address as text, with its port. -/
def hostText : Family → (addr port : List UInt8) → List UInt8
  | .inet, addr, port => addr ++ colon :: port
  | .inet6, addr, port => bracketOpen :: (addr ++ bracketClose :: colon :: port)

/-- `"%3d: IPv4 %s:%d\n"` and `"%3d: IPv6 [%s]:%d\n"`, where the text behind the family is given. -/
def hostLine (family : Family) (i : Nat) (text : List UInt8) : List UInt8 :=
  Decimal.padLeft 3 (Decimal.text i) ++
    (match family with
      | .inet => ascii ": IPv4 "
      | .inet6 => ascii ": IPv6 ") ++ text ++ ascii "\n"

/-- What is printed for the element `i` of `g_hosts`. -/
def printHost (env : MainEnv) (i : Nat) (addr : List UInt8) : Option (List UInt8) :=
  if saFamily addr = Family.inet.number then
    some (hostLine .inet i (hostText .inet (env.inetNtop .inet (sinAddr addr))
      (Decimal.text (sinPort addr))))
  else if saFamily addr = Family.inet6.number then
    some (hostLine .inet6 i (hostText .inet6 (env.inetNtop .inet6 (sin6Addr addr))
      (Decimal.text (sinPort addr))))
  else none -- assert(0)

/-- The loop of `main`, with `remaining` hosts to go. -/
def printHosts (env : MainEnv) (hosts : Nat → List UInt8) :
    (remaining i : Nat) → Option (List (List UInt8))
  | 0, _ => some []
  | remaining + 1, i => do
    let line ← printHost env i (hosts i)
    let lines ← printHosts env hosts remaining (i + 1)
    some (line :: lines)

/-- The string in a buffer that holds these bytes. -/
def cstring (bytes : List UInt8) : CString where
  bytes := bytes.takeWhile (· ≠ 0)
  nul_free h := by simpa using List.mem_takeWhile_imp h

/-- `argv` from `idx` on, after `getopt_long` has moved the operands there. -/
def argvFrom (idx : Nat) (operands : List Word) : Nat → CString :=
  fun j => cstring (operands.getD (j - idx) [])

/-- `host_count`, which is the index of the first operand. -/
def hostCount (words : List CString) (operands : List Word) : Nat :=
  words.length + 1 - operands.length

/-- The part of `main` behind `finish_setup`, which has left `s`. -/
def afterSetup (env : MainEnv) (s : Setup) : MainEnd :=
  if ∃ i ∈ s.stores, s.allocated ≤ i then .undefined
  else if s.rc ≠ 0 then .returned 1 []
  else
    match printHosts env s.hosts s.numhosts 0 with
    | none => .aborted
    | some lines => .returned 0 lines

/-- `main` on the words after the program's name. -/
def twdMain (env : MainEnv) (words : List CString) : MainEnd :=
  match processOptions env.posixlyCorrect (words.map CString.bytes) defaultOptions with
  | .error .usage => .usage
  | .error .undefined => .undefined
  | .ok (options, operands) =>
    let idx := hostCount words operands
    match finishSetup env.setup ⟨options.server, false⟩ idx (words.length + 1)
      (argvFrom idx operands) with
    | none => .aborted
    | some s => afterSetup env s

/-! ## Hosts -/

/-- The number of octets of an address. -/
def Family.octets : Family → Nat
  | inet => 4
  | inet6 => 16

/-- The number of octets of a `sockaddr_in` and of a `sockaddr_in6`. -/
def Family.size : Family → Nat
  | inet => 16
  | inet6 => 28

/-- An address with a port. -/
structure Host where
  family : Family
  addr : List UInt8
  port : Nat
  length_addr : addr.length = family.octets
  port_lt : port < 2 ^ 16

/-- The octets that an address with a port is stored in. -/
def Host.start (host : Host) : List UInt8 :=
  LittleEndian.encode 2 host.family.number ++ ((LittleEndian.encode 2 host.port).reverse ++
    match host.family with
    | .inet => host.addr
    | .inet6 => List.replicate 4 0 ++ host.addr) -- sin6_flowinfo

/-- A `sockaddr_in` or `sockaddr_in6` of the host, with any scope. -/
def Host.Stored (host : Host) (sockaddr : List UInt8) : Prop :=
  host.start <+: sockaddr ∧ sockaddr.length = host.family.size

def Host.text (env : MainEnv) (host : Host) : List UInt8 :=
  hostText host.family (env.inetNtop host.family host.addr) (Decimal.text host.port)

def Host.line (env : MainEnv) (host : Host) (i : Nat) : List UInt8 :=
  hostLine host.family i (host.text env)

/-- The operand for host `i` is looked up to a host. -/
def Resolved (env : MainEnv) (i : Nat) (operand : Word) (host : Host) : Prop :=
  ∃ taddr tport sockaddr, SplitsAt operand taddr tport ∧
    env.setup.getaddrinfo i taddr tport (addrPortHints .any) = .ok sockaddr ∧ host.Stored sockaddr

/-- The operand is not a host with a port, or the lookup fails. -/
def Unresolved (env : MainEnv) (i : Nat) (operand : Word) : Prop :=
  Rejected operand ∨ ∃ taddr tport err, SplitsAt operand taddr tport ∧
    env.setup.getaddrinfo i taddr tport (addrPortHints .any) = .error err

/-- What is documented of `getaddrinfo` and `inet_ntop`: a lookup that succeeds finds an address of
one of the two families, the text of the address and the port in decimal are looked up to the same,
and the text of an IPv4 address does not start with a bracket. -/
structure LooksUp (env : MainEnv) : Prop where
  stored : ∀ i taddr tport sockaddr,
    env.setup.getaddrinfo i taddr tport (addrPortHints .any) = .ok sockaddr →
    ∃ host : Host, host.Stored sockaddr
  numeric : ∀ i taddr tport sockaddr (host : Host),
    env.setup.getaddrinfo i taddr tport (addrPortHints .any) = .ok sockaddr →
    host.Stored sockaddr → ∃ sockaddr', host.Stored sockaddr' ∧
      env.setup.getaddrinfo i (env.inetNtop host.family host.addr) (Decimal.text host.port)
        (addrPortHints .any) = .ok sockaddr'
  plain : ∀ addr, (env.inetNtop .inet addr).head? ≠ some bracketOpen

/-- The operands are the hosts that the lines show, in their order. -/
def Shows (lines : List (List UInt8)) (operands : List Word) : Prop :=
  lines.length = operands.length ∧
    ∀ i (h : i < operands.length), ∃ family, lines[i]? = some (hostLine family i operands[i])

/-- How `main` ends on hosts when the table has `idx` elements: every host is printed, or there is
no memory for the table or one host has no address and nothing is printed, or the host behind the
table is stored. -/
inductive Ends (env : MainEnv) (idx : Nat) (operands : List Word) : MainEnd → Prop
  | printed (hcalloc : env.setup.calloc = true) (hosts : List Host)
    (hlen : hosts.length = operands.length) (hfit : operands.length ≤ idx)
    (hresolved : ∀ i (h : i < operands.length), Resolved env i operands[i] hosts[i]) :
    Ends env idx operands (.returned 0 (hosts.mapIdx fun i host => host.line env i))
  | noMemory (hcalloc : env.setup.calloc = false) : Ends env idx operands (.returned 1 [])
  | unresolved (hcalloc : env.setup.calloc = true) (i : Nat) (h : i < operands.length)
    (hfit : i ≤ idx) (hunresolved : Unresolved env i operands[i]) :
    Ends env idx operands (.returned 1 [])
  | overflow (hcalloc : env.setup.calloc = true) (h : idx < operands.length)
    (hresolved : ∀ i (h : i ≤ idx), ∃ host, Resolved env i operands[i] host) :
    Ends env idx operands .undefined

end Twd
