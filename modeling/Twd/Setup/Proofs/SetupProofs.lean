import Twd.ParseAddr.Proofs.ParseAddrProofs
import Twd.Setup.Setup

/-!
# When the table of hosts is large enough

`finish_setup` allocates `idx` elements, as many as there are arguments in front of the hosts, and
not one for each of the `argc - idx` hosts.
-/

namespace Twd

open Chars

/-- An address is produced exactly when the status is 0. -/
theorem toAddrPort_copied (getaddrinfo : GetAddrInfo) (s : CString) (atype : TwdIp) :
    ∃ r, toAddrPort getaddrinfo s atype = some r ∧
      ((r.rc = 0 ∧ ∃ addr, r.copied = some addr) ∨ (r.rc ≠ 0 ∧ r.copied = none)) := by
  rcases splitsAt_or_rejected s.bytes with hr | ⟨taddr, tport, hsplit⟩
  · exact ⟨_, toAddrPort_of_rejected hr, .inr ⟨by decide, rfl⟩⟩
  · refine ⟨_, toAddrPort_of_splitsAt hsplit, ?_⟩
    unfold lookupResult
    cases getaddrinfo taddr tport (addrPortHints atype) with
    | ok addr => exact .inl ⟨rfl, addr, rfl⟩
    | error e => exact .inr ⟨(by decide : eaddrnotavail ≠ 0), rfl⟩

/-- What a run of the loop has done: it has stored the addresses of the first `k` hosts, and has
ended there because these were all or because host `i + k` has none. -/
structure LoopDone (env : SetupEnv) (argv : Nat → CString) (remaining i idx : Nat) (s s' : Setup)
    (k : Nat) : Prop where
  le : k ≤ remaining
  numhosts : s'.numhosts = s.numhosts
  allocated : s'.allocated = s.allocated
  stores : s'.stores = s.stores ++ List.range' i k
  found : ∀ j < k, ∃ addr, hostAddr env argv (i + j) (idx + j) = some addr ∧
    s'.hosts (i + j) = copyAddr (s.hosts (i + j)) addr
  kept : ∀ j < i, s'.hosts j = s.hosts j
  ended : (k = remaining ∧ s'.rc = s.rc) ∨
    (k < remaining ∧ s'.rc ≠ 0 ∧ hostAddr env argv (i + k) (idx + k) = none)

theorem setupHosts_spec (env : SetupEnv) (argv : Nat → CString) (remaining : Nat) :
    ∀ (i idx : Nat) (s : Setup), ∃ s' k, setupHosts env argv remaining i idx s = some s' ∧
      LoopDone env argv remaining i idx s s' k := by
  induction remaining with
  | zero =>
    intro i idx s
    exact ⟨s, 0, rfl, Nat.le_refl 0, rfl, rfl, by simp, by simp, fun _ _ => rfl, .inl ⟨rfl, rfl⟩⟩
  | succ remaining ih =>
    intro i idx s
    obtain ⟨r, hr, ⟨hrc, addr, hcopied⟩ | ⟨hrc, hcopied⟩⟩ :=
      toAddrPort_copied (env.getaddrinfo i) (argv idx) .any
    · -- the host is stored and the loop goes on
      obtain ⟨s', k, hs', h⟩ := ih (i + 1) (idx + 1) (s.store i addr)
      have haddr : hostAddr env argv i idx = some addr := by simp [hostAddr, hr, hcopied]
      refine ⟨s', k + 1, ?_, Nat.succ_le_succ h.le, h.numhosts, h.allocated, ?_, ?_, ?_, ?_⟩
      · simp [setupHosts, hr, hcopied, hrc, hs']
      · rw [h.stores, List.range'_succ]
        simp [Setup.store]
      · rintro (_ | j) hj
        · refine ⟨addr, haddr, ?_⟩
          rw [Nat.add_zero, h.kept i (Nat.lt_succ_self i)]
          simp [Setup.store]
        · obtain ⟨a, ha, hhost⟩ := h.found j (Nat.lt_of_succ_lt_succ hj)
          rw [show i + (j + 1) = i + 1 + j by omega, show idx + (j + 1) = idx + 1 + j by omega]
          refine ⟨a, ha, hhost.trans ?_⟩
          have hne : i + 1 + j ≠ i := by omega
          simp only [Setup.store, Function.update_of_ne hne]
      · intro j hj
        rw [h.kept j (by omega)]
        simp only [Setup.store, Function.update_of_ne (Nat.ne_of_lt hj)]
      · rw [show i + (k + 1) = i + 1 + k by omega, show idx + (k + 1) = idx + 1 + k by omega]
        exact h.ended.imp (fun hk => ⟨by omega, hk.2⟩) fun hk => ⟨by omega, hk.2⟩
    · -- the lookup has failed
      refine ⟨{ s with rc := r.rc }, 0, ?_, Nat.zero_le _, rfl, rfl, by simp, by simp,
        fun _ _ => rfl, .inr ⟨Nat.succ_pos _, hrc, by simp [hostAddr, hr, hcopied]⟩⟩
      simp [setupHosts, hr, hcopied, hrc]

section Table

variable {env : SetupEnv} {o : SetupOptions} {argv : Nat → CString} {idx argc k : Nat} {r : Setup}

/-- The table that the loop starts with. -/
def tableOf (o : SetupOptions) (idx argc : Nat) : Setup :=
  ⟨0, argc - idx, idx, fun _ => zeroAddr, [], o⟩

theorem finishSetup_enomem (hpos : 0 < idx) (hlt : idx < argc) (hcalloc : env.calloc = false) :
    finishSetup env o idx argc argv = some ⟨enomem, argc - idx, 0, fun _ => [], [], o⟩ := by
  have hassert : ¬ (idx = 0 ∨ argc < idx) := by omega
  have hhosts : ¬ argc - idx = 0 := by omega
  simp [finishSetup, hassert, hhosts, hcalloc]

theorem finishSetup_no_memory (hpos : 0 < idx) (hlt : idx < argc) (hcalloc : env.calloc = false) :
    ∃ r, finishSetup env o idx argc argv = some r ∧ FillsTable env idx argc argv r := by
  refine ⟨_, finishSetup_enomem hpos hlt hcalloc, ?_⟩
  constructor <;> simp [enomem]

theorem finishSetup_loop (o : SetupOptions) (argv : Nat → CString) (hpos : 0 < idx)
    (hlt : idx < argc) (hcalloc : env.calloc = true) :
    ∃ r k, finishSetup env o idx argc argv = some r ∧
      LoopDone env argv (argc - idx) 0 idx (tableOf o idx argc) r k := by
  have hassert : ¬ (idx = 0 ∨ argc < idx) := by omega
  have hhosts : ¬ argc - idx = 0 := by omega
  obtain ⟨r, k, hr, h⟩ := setupHosts_spec env argv (argc - idx) 0 idx (tableOf o idx argc)
  refine ⟨r, k, ?_, h⟩
  rw [tableOf] at hr
  simp [finishSetup, hassert, hhosts, hcalloc, hr]

namespace LoopDone

variable (h : LoopDone env argv (argc - idx) 0 idx (tableOf o idx argc) r k)

include h

theorem mem_stores {i : Nat} : i ∈ r.stores ↔ i < k := by
  rw [h.stores, tableOf, List.nil_append, ← List.range_eq_range', List.mem_range]

theorem host {j : Nat} (hj : j < k) : ∃ addr, hostAddr env argv j (idx + j) = some addr ∧
    r.hosts j = copyAddr zeroAddr addr := by
  have hfound := h.found j hj
  rwa [Nat.zero_add] at hfound

theorem all_of_rc (hrc : r.rc = 0) : k = argc - idx := by
  rcases h.ended with ⟨hall, -⟩ | ⟨-, hne, -⟩
  · exact hall
  · exact absurd hrc hne

/-- The table is filled as it should be when there has been no store at `idx`. -/
theorem fillsTable_iff : FillsTable env idx argc argv r ↔ k ≤ idx := by
  have hallocated : r.allocated = idx := h.allocated
  have hnumhosts : r.numhosts = argc - idx := h.numhosts
  constructor
  · intro hfills
    by_contra hgt
    have hidx := hfills.stores_lt idx (h.mem_stores.mpr (Nat.lt_of_not_le hgt))
    omega
  · intro hk
    constructor
    case stores_lt =>
      intro i hi
      have := h.mem_stores.mp hi
      omega
    case numhosts =>
      intro _
      exact hnumhosts
    case numhosts_le =>
      intro hrc
      have := h.all_of_rc hrc
      omega
    case hosts =>
      intro hrc i hi
      have := h.all_of_rc hrc
      exact h.host (by omega)

/-- The loop ends before that when the hosts do, or when one of them has no address. -/
theorem le_idx_iff : k ≤ idx ↔
    argc ≤ 2 * idx ∨ ∃ i ≤ idx, idx + i < argc ∧ hostAddr env argv i (idx + i) = none := by
  have hle := h.le
  constructor
  · intro hk
    rcases h.ended with ⟨hall, -⟩ | ⟨hless, -, hnone⟩
    · exact .inl (by omega)
    · rw [Nat.zero_add] at hnone
      exact .inr ⟨k, hk, by omega, hnone⟩
  · rintro (hfew | ⟨i, hi, -, hnone⟩)
    · omega
    · by_contra hgt
      obtain ⟨addr, haddr, -⟩ := h.host (j := i) (by omega)
      rw [hnone] at haddr
      cases haddr

end LoopDone

end Table

/-- **When the table is large enough**: if and only if there is no memory at all, or no more hosts
than arguments in front of them, or one of the hosts that still fit has no address. -/
theorem finishSetup_fills_iff (env : SetupEnv) (o : SetupOptions) (idx argc : Nat)
    (argv : Nat → CString) (hpos : 0 < idx) (hlt : idx < argc) :
    (∃ r, finishSetup env o idx argc argv = some r ∧ FillsTable env idx argc argv r) ↔
      env.calloc = false ∨ argc ≤ 2 * idx ∨
        ∃ i ≤ idx, idx + i < argc ∧ hostAddr env argv i (idx + i) = none := by
  cases hcalloc : env.calloc with
  | false =>
    constructor
    · intro _
      exact .inl rfl
    · intro _
      exact finishSetup_no_memory hpos hlt hcalloc
  | true =>
    obtain ⟨r, k, hrun, h⟩ := finishSetup_loop o argv hpos hlt hcalloc
    rw [← h.le_idx_iff, ← h.fillsTable_iff]
    constructor
    · rintro ⟨r', hr', hfills⟩
      obtain rfl : r = r' := Option.some.inj (hrun.symm.trans hr')
      exact .inr hfills
    · rintro (hno | hfills)
      · cases hno
      · exact ⟨r, hrun, hfills⟩

/-- A system with memory, in which every lookup finds the same address. -/
def resolving : SetupEnv where
  calloc := true
  getaddrinfo _ _ _ _ := .ok [2, 0, 0, 80, 127, 0, 0, 1]
  getsockname := .error 88

/-- `twd h:1` and so on. -/
def hostArgs (_ : Nat) : CString := ⟨[104, 58, 49], by decide⟩

/-- One host and an option. -/
theorem finishSetup_fills_iff_option :
    (∃ r, finishSetup resolving ⟨false, false⟩ 2 3 hostArgs = some r ∧
      FillsTable resolving 2 3 hostArgs r) ↔ resolving.calloc = false ∨ 3 ≤ 2 * 2 ∨
        ∃ i ≤ 2, 2 + i < 3 ∧ hostAddr resolving hostArgs i (2 + i) = none :=
  finishSetup_fills_iff resolving ⟨false, false⟩ 2 3 hostArgs (by decide) (by decide)

/-- Two hosts and no options: the second is stored behind the table. -/
theorem finishSetup_not_fills :
    ¬ ∀ idx argc, 0 < idx → idx < argc → ∃ r,
      finishSetup resolving ⟨false, false⟩ idx argc hostArgs = some r ∧
        FillsTable resolving idx argc hostArgs r := by
  intro h
  obtain ⟨r, hr, hfills⟩ := h 1 3 (by decide) (by decide)
  have hstores : (finishSetup resolving ⟨false, false⟩ 1 3 hostArgs).map Setup.stores =
      some [0, 1] := by decide +kernel
  have hallocated : (finishSetup resolving ⟨false, false⟩ 1 3 hostArgs).map Setup.allocated =
      some 1 := by decide +kernel
  rw [hr] at hstores hallocated
  have hlt := hfills.stores_lt 1 (Option.some.inj hstores ▸ by simp)
  rw [Option.some.inj hallocated] at hlt
  omega

end Twd
