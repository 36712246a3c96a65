import Twd.Main.Main
import Twd.Setup.Proofs.SetupProofs

/-!
# Proofs about `main`

The operands are among the words, and each host is printed as the lookup of its operand has stored
it. What is printed for a host can be given as an operand again.
-/

namespace Getopt

variable {optstring : Word} {longopts : List LongOption} {posixlyCorrect : Bool}

theorem read_operands (control : Control) (w : Word) :
    (read optstring longopts posixlyCorrect control w).1.operands.Sublist [w] := by
  unfold read
  split <;> simp

theorem readAll_operands (control : Control) (ws : List Word) :
    (readAll optstring longopts posixlyCorrect control ws).1.operands.Sublist ws := by
  induction ws generalizing control with
  | nil => exact List.nil_sublist _
  | cons w ws ih => exact (read_operands control w).append (ih _)

/-- The operands are words of the command line, in their order. -/
theorem getoptLong_operands (words : List Word) :
    (getoptLong optstring longopts posixlyCorrect words).operands.Sublist words :=
  readAll_operands .options words

end Getopt

namespace Twd

open Chars Getopt Strtol

variable {env : MainEnv} {words : List CString} {options : TwdOptions} {operands : List Word}

/-! ## Operands -/

theorem operands_sublist
    (h : processOptions env.posixlyCorrect (words.map CString.bytes) defaultOptions =
      .ok (options, operands)) :
    operands.Sublist (words.map CString.bytes) := by
  have hsub : (getoptLong qstring longOptions env.posixlyCorrect
      (words.map CString.bytes)).operands.Sublist (words.map CString.bytes) :=
    getoptLong_operands _
  unfold processOptions at h
  cases hfold : (getoptLong qstring longOptions env.posixlyCorrect
      (words.map CString.bytes)).items.foldlM processOption defaultOptions with
  | error e => simp [hfold, bind, Except.bind] at h
  | ok o =>
    simp only [hfold, bind, Except.bind, pure, Except.pure, Except.ok.injEq, Prod.mk.injEq] at h
    rwa [h.2] at hsub

theorem cstring_bytes {w : Word} (h : 0 ∉ w) : (cstring w).bytes = w := by
  refine List.takeWhile_eq_self_iff.mpr fun b hb => ?_
  simp only [decide_eq_true_eq]
  rintro rfl
  exact h hb

theorem operand_bytes (hsub : operands.Sublist (words.map CString.bytes)) (idx : Nat) {j : Nat}
    (hj : j < operands.length) : (argvFrom idx operands (idx + j)).bytes = operands[j] := by
  obtain ⟨w, -, hw⟩ := List.mem_map.mp (hsub.subset (List.getElem_mem hj))
  rw [argvFrom, Nat.add_sub_cancel_left, ← List.getElem_eq_getD (h := hj), cstring_bytes]
  rw [← hw]
  exact w.nul_free

/-! ## The lookups -/

theorem hostAddr_of_rejected {argv : Nat → CString} {i idx : Nat}
    (h : Rejected (argv idx).bytes) : hostAddr env.setup argv i idx = none := by
  simp [hostAddr, toAddrPort_of_rejected h]

theorem hostAddr_of_splitsAt {argv : Nat → CString} {i idx : Nat} {taddr tport : List UInt8}
    (h : SplitsAt (argv idx).bytes taddr tport) :
    hostAddr env.setup argv i idx =
      (env.setup.getaddrinfo i taddr tport (addrPortHints .any)).toOption := by
  simp only [hostAddr, toAddrPort_of_splitsAt h, lookupResult, Option.bind_eq_bind,
    Option.bind_some]
  cases env.setup.getaddrinfo i taddr tport (addrPortHints .any) with
  | ok addr => rfl
  | error err => rfl

theorem unresolved_of_hostAddr {argv : Nat → CString} {i idx : Nat}
    (h : hostAddr env.setup argv i idx = none) : Unresolved env i (argv idx).bytes := by
  rcases splitsAt_or_rejected (argv idx).bytes with hr | ⟨taddr, tport, hsplit⟩
  · exact .inl hr
  · rw [hostAddr_of_splitsAt hsplit] at h
    cases hres : env.setup.getaddrinfo i taddr tport (addrPortHints .any) with
    | ok addr =>
      rw [hres] at h
      cases h
    | error err => exact .inr ⟨taddr, tport, err, hsplit, hres⟩

theorem resolved_of_hostAddr (henv : LooksUp env) {argv : Nat → CString} {i idx : Nat}
    {sockaddr : List UInt8} (h : hostAddr env.setup argv i idx = some sockaddr) :
    ∃ host : Host, host.Stored sockaddr ∧ Resolved env i (argv idx).bytes host := by
  rcases splitsAt_or_rejected (argv idx).bytes with hr | ⟨taddr, tport, hsplit⟩
  · rw [hostAddr_of_rejected hr] at h
    cases h
  · rw [hostAddr_of_splitsAt hsplit] at h
    cases hres : env.setup.getaddrinfo i taddr tport (addrPortHints .any) with
    | ok addr =>
      rw [hres] at h
      cases h
      obtain ⟨host, hhost⟩ := henv.stored i taddr tport _ hres
      exact ⟨host, hhost, taddr, tport, _, hsplit, hres, hhost⟩
    | error err =>
      rw [hres] at h
      cases h

/-! ## Printing -/

theorem saFamily_append {n : Nat} (h : n < 2 ^ 16) (rest : List UInt8) :
    saFamily (LittleEndian.encode 2 n ++ rest) = n := by
  rw [saFamily, List.take_left' (LittleEndian.length_encode 2 n), LittleEndian.decode_encode]
  exact Nat.mod_eq_of_lt h

theorem sinPort_append {family port : Nat} (h : port < 2 ^ 16) (rest : List UInt8) :
    sinPort (LittleEndian.encode 2 family ++ ((LittleEndian.encode 2 port).reverse ++ rest)) =
      port := by
  have hlen : (LittleEndian.encode 2 port).reverse.length = 2 := by simp
  rw [sinPort, List.drop_left' (LittleEndian.length_encode 2 family), List.take_left' hlen,
    List.reverse_reverse, LittleEndian.decode_encode]
  exact Nat.mod_eq_of_lt h

theorem sinAddr_append {family port : Nat} {addr : List UInt8} (h : addr.length = 4)
    (rest : List UInt8) :
    sinAddr (LittleEndian.encode 2 family ++ ((LittleEndian.encode 2 port).reverse ++
      (addr ++ rest))) = addr := by
  rw [sinAddr, ← List.append_assoc, List.drop_left' (by simp), List.take_left' h]

theorem sin6Addr_append {family port : Nat} {flowinfo addr : List UInt8}
    (hflow : flowinfo.length = 4) (h : addr.length = 16) (rest : List UInt8) :
    sin6Addr (LittleEndian.encode 2 family ++ ((LittleEndian.encode 2 port).reverse ++
      (flowinfo ++ (addr ++ rest)))) = addr := by
  rw [sin6Addr, ← List.append_assoc, ← List.append_assoc, List.drop_left' (by simp [hflow]),
    List.take_left' h]

theorem saFamily_start (host : Host) (rest : List UInt8) :
    saFamily (host.start ++ rest) = host.family.number := by
  rw [Host.start, List.append_assoc]
  exact saFamily_append (by cases host.family <;> decide) _

theorem sinPort_start (host : Host) (rest : List UInt8) :
    sinPort (host.start ++ rest) = host.port := by
  rw [Host.start, List.append_assoc, List.append_assoc]
  exact sinPort_append host.port_lt _

theorem sinAddr_start {host : Host} (h : host.family = .inet) (rest : List UInt8) :
    sinAddr (host.start ++ rest) = host.addr := by
  have hlen := host.length_addr
  rw [h] at hlen
  simp only [Host.start, h, List.append_assoc]
  exact sinAddr_append hlen rest

theorem sin6Addr_start {host : Host} (h : host.family = .inet6) (rest : List UInt8) :
    sin6Addr (host.start ++ rest) = host.addr := by
  have hlen := host.length_addr
  rw [h] at hlen
  simp only [Host.start, h, List.append_assoc]
  exact sin6Addr_append (by simp) hlen rest

/-- The element of a host is printed as its address and its port. -/
theorem printHost_start (env : MainEnv) (host : Host) (i : Nat) (rest : List UInt8) :
    printHost env i (host.start ++ rest) = some (host.line env i) := by
  cases hfamily : host.family with
  | inet =>
    rw [printHost, saFamily_start, hfamily, if_pos rfl, sinAddr_start hfamily, sinPort_start,
      Host.line, Host.text, hfamily]
  | inet6 =>
    rw [printHost, saFamily_start, hfamily, if_neg (by decide), if_pos rfl, sin6Addr_start hfamily,
      sinPort_start, Host.line, Host.text, hfamily]

theorem printHost_stored {host : Host} {sockaddr : List UInt8} (h : host.Stored sockaddr)
    (env : MainEnv) (i : Nat) :
    printHost env i (copyAddr zeroAddr sockaddr) = some (host.line env i) := by
  obtain ⟨⟨tail, rfl⟩, -⟩ := h
  rw [copyAddr, List.append_assoc]
  exact printHost_start env host i _

/-- The loop prints a line for every element. -/
theorem printHosts_eq {table : Nat → List UInt8} (hosts : List Host) {i : Nat}
    (h : ∀ j (hj : j < hosts.length),
      printHost env (i + j) (table (i + j)) = some (hosts[j].line env (i + j))) :
    printHosts env table hosts.length i =
      some (hosts.mapIdx fun j host => host.line env (i + j)) := by
  induction hosts generalizing i with
  | nil => rfl
  | cons host hosts ih =>
    have hfirst : printHost env i (table i) = some (host.line env i) := h 0 (Nat.succ_pos _)
    have hrest : printHosts env table hosts.length (i + 1) =
        some (hosts.mapIdx fun j host => host.line env (i + 1 + j)) := by
      refine ih fun j hj => ?_
      rw [Nat.add_assoc, Nat.add_comm 1 j]
      exact h (j + 1) (Nat.succ_lt_succ hj)
    rw [List.length_cons, printHosts, hfirst, hrest, List.mapIdx_cons]
    simp only [Option.bind_eq_bind, Option.bind_some, Nat.add_zero, Option.some.injEq,
      List.cons.injEq, true_and]
    refine congrArg (fun f => hosts.mapIdx f) (funext fun j => ?_)
    rw [Nat.add_assoc, Nat.add_comm 1 j]

/-! ## `main` -/

/-- The addresses of the first `k` operands are stored in the table that starts with `idx` elements,
and the setup has ended there because these were all or because operand `k` has no address. -/
structure Filled (env : MainEnv) (idx : Nat) (operands : List Word) (s : Setup) (k : Nat) :
    Prop where
  numhosts : s.numhosts = operands.length
  overflow : (∃ i ∈ s.stores, s.allocated ≤ i) ↔ idx < k
  le : k ≤ operands.length
  found : ∀ j < k, ∃ sockaddr,
    hostAddr env.setup (argvFrom idx operands) j (idx + j) = some sockaddr ∧
      s.hosts j = copyAddr zeroAddr sockaddr
  ended : (k = operands.length ∧ s.rc = 0) ∨ (k < operands.length ∧ s.rc ≠ 0 ∧
    hostAddr env.setup (argvFrom idx operands) k (idx + k) = none)

/-- There is a program name in front of the operands, so the table is not empty. -/
theorem hostCount_bounds
    (hopts : processOptions env.posixlyCorrect (words.map CString.bytes) defaultOptions =
      .ok (options, operands))
    (hne : operands ≠ []) :
    0 < hostCount words operands ∧ hostCount words operands < words.length + 1 ∧
      words.length + 1 - hostCount words operands = operands.length := by
  have hlen := (operands_sublist hopts).length_le
  rw [List.length_map] at hlen
  have hpos : 0 < operands.length := List.length_pos_of_ne_nil hne
  rw [hostCount]
  omega

/-- Without memory for the table `main` prints nothing. -/
theorem twdMain_of_no_memory
    (hopts : processOptions env.posixlyCorrect (words.map CString.bytes) defaultOptions =
      .ok (options, operands))
    (hne : operands ≠ []) (hcalloc : env.setup.calloc = false) :
    twdMain env words = .returned 1 [] := by
  obtain ⟨hpos, hlt, -⟩ := hostCount_bounds hopts hne
  simp only [twdMain, hopts, finishSetup_enomem hpos hlt hcalloc]
  rfl

/-- `main` on operands, up to the end of `finish_setup`. -/
theorem twdMain_eq
    (hopts : processOptions env.posixlyCorrect (words.map CString.bytes) defaultOptions =
      .ok (options, operands))
    (hne : operands ≠ []) (hcalloc : env.setup.calloc = true) :
    ∃ s k, twdMain env words = afterSetup env s ∧
      Filled env (hostCount words operands) operands s k := by
  obtain ⟨hpos, hlt, hargc⟩ := hostCount_bounds hopts hne
  set idx := hostCount words operands with hidx
  obtain ⟨s, k, hs, h⟩ := finishSetup_loop ⟨options.server, false⟩ (argvFrom idx operands) hpos hlt
    hcalloc
  refine ⟨s, k, by simp only [twdMain, hopts, ← hidx, hs], ?_⟩
  have hallocated : s.allocated = idx := h.allocated
  constructor
  case numhosts => exact h.numhosts.trans hargc
  case overflow =>
    rw [hallocated]
    refine ⟨fun ⟨i, hi, hle⟩ => lt_of_le_of_lt hle (h.mem_stores.mp hi), fun hlt => ?_⟩
    exact ⟨idx, h.mem_stores.mpr hlt, Nat.le_refl idx⟩
  case le => exact hargc ▸ h.le
  case found => exact fun j hj => h.host hj
  case ended =>
    have hended := h.ended
    rw [hargc, Nat.zero_add] at hended
    exact hended

/-- The hosts of a table that is filled are printed. -/
theorem Filled.printed {idx k : Nat} {s : Setup} (h : Filled env idx operands s k)
    (hfit : operands.length ≤ idx) (hosts : List Host) (hlen : hosts.length = operands.length)
    (hstored : ∀ j (hj : j < hosts.length), ∃ sockaddr,
      hostAddr env.setup (argvFrom idx operands) j (idx + j) = some sockaddr ∧
        hosts[j].Stored sockaddr) :
    afterSetup env s = .returned 0 (hosts.mapIdx fun i host => host.line env i) := by
  have hin : ¬ ∃ i ∈ s.stores, s.allocated ≤ i := by
    rw [h.overflow]
    have := h.le
    omega
  have hall : k = operands.length ∧ s.rc = 0 := by
    refine h.ended.resolve_right fun ⟨hk, _, hnone⟩ => ?_
    obtain ⟨sockaddr, haddr, -⟩ := hstored k (hlen ▸ hk)
    rw [hnone] at haddr
    cases haddr
  have hprint : printHosts env s.hosts hosts.length 0 =
      some (hosts.mapIdx fun j host => host.line env (0 + j)) := by
    refine printHosts_eq hosts fun j hj => ?_
    obtain ⟨sockaddr, haddr, hhost⟩ := hstored j hj
    obtain ⟨sockaddr', haddr', htable⟩ := h.found j (by omega)
    obtain rfl := Option.some.inj (haddr.symm.trans haddr')
    rw [Nat.zero_add, htable]
    exact printHost_stored hhost env j
  have hrc : ¬ s.rc ≠ 0 := not_not_intro hall.2
  rw [afterSetup, if_neg hin, if_neg hrc, h.numhosts, ← hlen, hprint]
  simp only [Nat.zero_add]

/-- How `main` ends with a table that is filled. -/
theorem Filled.ends {idx k : Nat} {s : Setup} (h : Filled env idx operands s k)
    (henv : LooksUp env) (hcalloc : env.setup.calloc = true)
    (hsub : operands.Sublist (words.map CString.bytes)) :
    Ends env idx operands (afterSetup env s) := by
  have hbytes : ∀ j (hj : j < operands.length),
      (argvFrom idx operands (idx + j)).bytes = operands[j] := fun j hj => operand_bytes hsub idx hj
  have hresolved : ∀ j < k, ∃ (hj : j < operands.length) (host : Host),
      Resolved env j operands[j] host ∧ ∃ sockaddr,
        hostAddr env.setup (argvFrom idx operands) j (idx + j) = some sockaddr ∧
          host.Stored sockaddr := by
    intro j hj
    have hj' := lt_of_lt_of_le hj h.le
    obtain ⟨sockaddr, haddr, -⟩ := h.found j hj
    obtain ⟨host, hstored, hres⟩ := resolved_of_hostAddr henv haddr
    rw [hbytes j hj'] at hres
    exact ⟨hj', host, hres, sockaddr, haddr, hstored⟩
  by_cases hover : idx < k
  · rw [afterSetup, if_pos (h.overflow.mpr hover)]
    refine .overflow hcalloc (lt_of_lt_of_le hover h.le) fun i hi => ?_
    obtain ⟨_, host, hres, -⟩ := hresolved i (lt_of_le_of_lt hi hover)
    exact ⟨host, hres⟩
  rcases h.ended with ⟨hall, -⟩ | ⟨hk, hrc, hnone⟩
  · -- the hosts that the lookups have found, as a list
    have hexists : ∀ j : Fin operands.length, ∃ host : Host, Resolved env j operands[j] host ∧
        ∃ sockaddr, hostAddr env.setup (argvFrom idx operands) j (idx + j) = some sockaddr ∧
          host.Stored sockaddr := fun j => (hresolved j (hall ▸ j.isLt)).2
    choose host hhost using hexists
    have hlen : (List.ofFn host).length = operands.length := List.length_ofFn
    have hfit : operands.length ≤ idx := by omega
    rw [h.printed hfit (List.ofFn host) hlen fun j hj => by
      rw [List.getElem_ofFn]
      exact (hhost ⟨j, hlen ▸ hj⟩).2]
    refine .printed hcalloc _ hlen hfit fun i hi => ?_
    rw [List.getElem_ofFn]
    exact (hhost ⟨i, hi⟩).1
  · have hunresolved := unresolved_of_hostAddr hnone
    rw [hbytes k hk] at hunresolved
    have hin : ¬ ∃ i ∈ s.stores, s.allocated ≤ i := by rwa [h.overflow]
    rw [afterSetup, if_neg hin, if_pos hrc]
    exact .unresolved hcalloc k hk (Nat.le_of_not_lt hover) hunresolved

/-- The `sockaddr_in` of port 80 of the host itself. -/
def loopback : List UInt8 := [2, 0, 0, 80, 127, 0, 0, 1, 0, 0, 0, 0, 0, 0, 0, 0]

/-- A system that knows one host, by its name and by its address. -/
def localhost : MainEnv where
  posixlyCorrect := false
  setup :=
    { calloc := true
      getaddrinfo := fun _ taddr tport _ =>
        if (taddr = ascii "localhost" ∨ taddr = ascii "127.0.0.1") ∧ tport = ascii "80" then
          .ok loopback
        else .error (-2) -- EAI_NONAME
      getsockname := .error 88 }
  inetNtop family addr :=
    match family, addr with
    | .inet, [a, b, c, d] =>
      Decimal.text a.toNat ++ 46 :: (Decimal.text b.toNat ++ 46 :: (Decimal.text c.toNat ++
        46 :: Decimal.text d.toNat))
    | .inet, _ => []
    | .inet6, _ => ascii "::"

theorem localhost_found {i : Nat} {taddr tport sockaddr : List UInt8}
    (h : localhost.setup.getaddrinfo i taddr tport (addrPortHints .any) = .ok sockaddr) :
    sockaddr = loopback := by
  simp only [localhost] at h
  split_ifs at h
  exact (Except.ok.inj h).symm

/-- The host itself. -/
def loopbackHost : Host := ⟨.inet, [127, 0, 0, 1], 80, rfl, by decide⟩

theorem loopbackHost_stored : loopbackHost.Stored loopback :=
  ⟨⟨List.replicate 8 0, by decide⟩, rfl⟩

theorem localhost_plain (addr : List UInt8) :
    (localhost.inetNtop .inet addr).head? ≠ some bracketOpen := by
  unfold localhost
  dsimp only
  split
  · rename_i a b c d heq
    cases htext : Decimal.text a.toNat with
    | nil => simp [bracketOpen]
    | cons x xs =>
      intro hhead
      have hx := Decimal.digit_of_mem_text (htext ▸ List.mem_cons_self : x ∈ Decimal.text a.toNat)
      rw [List.cons_append, List.head?_cons, Option.some.injEq] at hhead
      rw [hhead] at hx
      exact absurd hx.2 (by decide)
  · simp
  · contradiction

theorem localhost_looksUp : LooksUp localhost where
  stored i taddr tport sockaddr h := ⟨loopbackHost, localhost_found h ▸ loopbackHost_stored⟩
  numeric i taddr tport sockaddr host h hstored := by
    obtain rfl := localhost_found h
    obtain ⟨tail, htail⟩ := hstored.1
    have hfamily : host.family = .inet := by
      have hnumber := saFamily_start host tail
      rw [htail] at hnumber
      cases hf : host.family with
      | inet => rfl
      | inet6 =>
        rw [hf] at hnumber
        exact absurd hnumber (by decide)
    have hport := sinPort_start host tail
    have haddr := sinAddr_start hfamily tail
    rw [htail] at hport haddr
    rw [hfamily, ← haddr, ← hport]
    have hfound : localhost.setup.getaddrinfo 0 (localhost.inetNtop .inet (sinAddr loopback))
        (Decimal.text (sinPort loopback)) (addrPortHints .any) = .ok loopback := by decide
    exact ⟨loopback, hstored, hfound⟩
  plain := localhost_plain

/-- A host by its name, and an option. -/
def byName : List CString := [⟨ascii "-v", by decide⟩, ⟨ascii "localhost:80", by decide⟩]

theorem hostLine_injective {family family' : Family} {i : Nat} {text text' : List UInt8}
    (h : hostLine family i text = hostLine family' i text') : family = family' ∧ text = text' := by
  have hlen : (ascii ": IPv4 ").length = (ascii ": IPv6 ").length := by decide
  have hne : ascii ": IPv4 " ≠ ascii ": IPv6 " := by decide
  simp only [hostLine, List.append_assoc] at h
  have hrest := List.append_cancel_left h
  cases family with
  | inet =>
    cases family' with
    | inet => exact ⟨rfl, List.append_cancel_right (List.append_cancel_left hrest)⟩
    | inet6 => exact absurd (List.append_inj_left hrest hlen) hne
  | inet6 =>
    cases family' with
    | inet => exact absurd (List.append_inj_left hrest hlen.symm).symm hne
    | inet6 => exact ⟨rfl, List.append_cancel_right (List.append_cancel_left hrest)⟩

theorem Host.splitsAt_text (henv : LooksUp env) (host : Host) :
    SplitsAt (host.text env) (env.inetNtop host.family host.addr) (Decimal.text host.port) := by
  have hcolon : colon ∉ Decimal.text host.port :=
    fun hmem => absurd (Decimal.digit_of_mem_text hmem).2 (by decide)
  cases hfamily : host.family with
  | inet =>
    rw [Host.text, hfamily]
    exact splitsAt_plain (henv.plain host.addr) hcolon
  | inet6 =>
    rw [Host.text, hfamily]
    exact splitsAt_bracketed hcolon

/-- **What `twd` has printed it reads again**: the hosts of the lines, as the operands of another
command line, are printed as the same lines. -/
theorem twdMain_again (env : MainEnv) (henv : LooksUp env) (words words' : List CString)
    (options options' : TwdOptions) (operands operands' : List Word)
    (hopts : processOptions env.posixlyCorrect (words.map CString.bytes) defaultOptions =
      .ok (options, operands))
    (hopts' : processOptions env.posixlyCorrect (words'.map CString.bytes) defaultOptions =
      .ok (options', operands'))
    (hne : operands ≠ []) (lines : List (List UInt8))
    (hprinted : twdMain env words = .returned 0 lines) (hshows : Shows lines operands')
    (hfit : operands'.length ≤ hostCount words' operands') :
    twdMain env words' = .returned 0 lines := by
  have hcalloc : env.setup.calloc = true := by
    by_contra hno
    rw [twdMain_of_no_memory hopts hne (Bool.eq_false_iff.mpr hno)] at hprinted
    cases hprinted
  obtain ⟨s, k, hmain, h⟩ := twdMain_eq hopts hne hcalloc
  have hends := h.ends henv hcalloc (operands_sublist hopts)
  rw [← hmain, hprinted] at hends
  cases hends with
  | printed _ hosts hlen _ hresolved =>
    obtain ⟨hlen', hshows⟩ := hshows
    rw [List.length_mapIdx] at hlen'
    have hne' : operands' ≠ [] := by
      rintro rfl
      exact hne (List.eq_nil_of_length_eq_zero (hlen ▸ hlen'))
    obtain ⟨s', k', hmain', h'⟩ := twdMain_eq hopts' hne' hcalloc
    rw [hmain']
    refine h'.printed hfit hosts hlen' fun j hj => ?_
    have hj' : j < operands'.length := hlen' ▸ hj
    have htext : operands'[j] = hosts[j].text env := by
      obtain ⟨family, hline⟩ := hshows j hj'
      rw [List.getElem?_mapIdx, List.getElem?_eq_getElem hj] at hline
      exact (hostLine_injective (Option.some.inj hline)).2.symm
    obtain ⟨taddr, tport, sockaddr, -, hfound, hstored⟩ := hresolved j (hlen ▸ hj)
    obtain ⟨sockaddr', hstored', hfound'⟩ := henv.numeric j taddr tport sockaddr _ hfound hstored
    refine ⟨sockaddr', ?_, hstored'⟩
    have hsplit := Host.splitsAt_text henv hosts[j]
    rw [← htext, ← operand_bytes (operands_sublist hopts') (hostCount words' operands')] at hsplit
    rw [hostAddr_of_splitsAt hsplit, hfound']
    rfl

/-- The host that has been printed, by its address. -/
def byAddress : List CString := [⟨ascii "127.0.0.1:80", by decide⟩]

theorem shows_byAddress :
    Shows [ascii "  0: IPv4 127.0.0.1:80\n"] [ascii "127.0.0.1:80"] := by
  have hline : some (ascii "  0: IPv4 127.0.0.1:80\n") =
      some (hostLine .inet 0 (ascii "127.0.0.1:80")) := by decide
  refine ⟨rfl, fun i hi => ⟨.inet, ?_⟩⟩
  obtain rfl : i = 0 := by simpa using hi
  exact hline

theorem twdMain_again_localhost :
    twdMain localhost byAddress = .returned 0 [ascii "  0: IPv4 127.0.0.1:80\n"] :=
  twdMain_again localhost localhost_looksUp byName byAddress
    { defaultOptions with verbose := true } defaultOptions [ascii "localhost:80"]
    [ascii "127.0.0.1:80"] (by decide) (by decide) (by decide)
    [ascii "  0: IPv4 127.0.0.1:80\n"] (by decide)
    shows_byAddress (by decide)

end Twd
