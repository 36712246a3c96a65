import Twd.Log.Log

/-!
# How long the block of a logger lives

What the calls do with the block is the same for both loggers. As long as nothing has been
destroyed it is there and has counted the calls; a block that is freed never comes back, since
`priv` keeps pointing to it.
-/

namespace Twd

variable {self : Logger} {block block' : LogControl} {kind : LogKind} {calls : List LogCall}

/-! ## The functions -/

theorem increment_of_eq (h : block.count kind = intMax) :
    block.increment kind = .error .undefined := if_pos h

theorem increment_of_ne (h : block.count kind ≠ intMax) :
    ∃ block', block.increment kind = .ok block' ∧
      ∀ k, block'.count k = block.count k + if kind = k then 1 else 0 := by
  refine ⟨_, if_neg h, fun k => ?_⟩
  cases kind <;> cases k <;> simp [LogControl.count]

theorem countCall_live (h : self.priv = .live block) (text : LogControl → List LogOutput) :
    countCall self kind text =
      (block.increment kind).map fun block' => ⟨.live block', self.output ++ text block'⟩ := by
  rw [countCall, privCheck, h]
  show (block.increment kind >>= fun block' => _) = _
  cases block.increment kind <;> rfl

theorem allocate_absent (h : self.priv = .absent) (block : LogControl) :
    allocate true self block = .ok { self with priv := .live block } := by
  rw [allocate, h]
  rfl

theorem allocate_failed (h : self.priv = .absent) (block : LogControl) :
    allocate false self block = .error (.exit (-1)) := by
  rw [allocate, h]
  rfl

theorem allocate_live (h : self.priv = .live block) (calloc : Bool) (block' : LogControl) :
    allocate calloc self block' = .ok self := by
  rw [allocate, h]

theorem release_live (h : self.priv = .live block) :
    release self = .ok { self with priv := .freed } := by
  rw [release, privCheck, h]
  rfl

/-- A logger whose functions count their calls counts the call of each kind. -/
theorem exec_of_kind (logger : LogCb) {c : LogCall}
    (hwarn : ∀ self err message, ∃ text, logger.warn self err message = countCall self .warn text)
    (herror : ∀ self err message, ∃ text, logger.error self err message = countCall self .error text)
    (hinfo : ∀ self err message, ∃ text, logger.info self err message = countCall self .info text)
    (hdebug : ∀ self level err message, ∃ text,
      logger.debug self level err message = countCall self .debug text)
    (calloc : Bool) (self : Logger) (hc : c.kind = some kind) :
    ∃ text, c.exec logger calloc self = countCall self kind text := by
  cases c with
  | init => cases hc
  | destroy => cases hc
  | warn err message => cases hc; exact hwarn self err message
  | error err message => cases hc; exact herror self err message
  | info err message => cases hc; exact hinfo self err message
  | debug level err message => cases hc; exact hdebug self level err message
  | dumpStats => cases hc

/-- What the functions of a logger do with the block. -/
structure LogCb.CountsCalls (logger : LogCb) : Prop where
  init_absent : ∀ self name, self.priv = .absent → ∃ self' block,
    logger.init true self name = .ok self' ∧ self'.priv = .live block ∧ ∀ kind, block.count kind = 0
  init_failed : ∀ self name, self.priv = .absent →
    logger.init false self name = .error (.exit (-1))
  init_live : ∀ calloc self name block, self.priv = .live block → ∃ self',
    logger.init calloc self name = .ok self' ∧ self'.priv = .live block
  destroy_live : ∀ self block, self.priv = .live block → ∃ self',
    logger.destroy self = .ok self' ∧ self'.priv = .freed
  count_live : ∀ calloc self block kind (c : LogCall), self.priv = .live block →
    c.kind = some kind → ∃ text : LogControl → List LogOutput, c.exec logger calloc self =
      (block.increment kind).map fun block' => ⟨.live block', self.output ++ text block'⟩
  dumpStats_live : ∀ self block, self.priv = .live block → ∃ self' out,
    logger.dumpStats self = .ok self' ∧ self'.priv = .live block ∧
      self'.output = self.output ++ [out] ∧ out.reported = some block.stats

theorem consoleLogger_countsCalls : consoleLogger.CountsCalls where
  init_absent self name h := ⟨_, _, allocate_absent h _, rfl, fun kind => by cases kind <;> rfl⟩
  init_failed self name h := allocate_failed h _
  init_live calloc self name block h := ⟨_, allocate_live h calloc _, h⟩
  destroy_live self block h := ⟨_, release_live h, rfl⟩
  count_live calloc self block kind c h hc := by
    obtain ⟨text, hexec⟩ := exec_of_kind consoleLogger (fun _ _ _ => ⟨_, rfl⟩)
      (fun _ _ _ => ⟨_, rfl⟩) (fun _ _ _ => ⟨_, rfl⟩) (fun _ _ _ _ => ⟨_, rfl⟩) calloc self hc
    exact ⟨text, hexec.trans (countCall_live h text)⟩
  dumpStats_live self block h := by
    refine ⟨⟨.live block, self.output ++ [.stderr (.stats block.stats)]⟩, _, ?_, rfl, rfl, rfl⟩
    show logDumpStats self = _
    rw [logDumpStats, privCheck, h]
    rfl

theorem sysLogger_countsCalls : sysLogger.CountsCalls where
  init_absent self name h := by
    have hopen : (syslogOpen self name).priv = .absent := h
    exact ⟨_, _, allocate_absent hopen _, rfl, fun kind => by cases kind <;> rfl⟩
  init_failed self name h := by
    have hopen : (syslogOpen self name).priv = .absent := h
    exact allocate_failed hopen _
  init_live calloc self name block h := by
    have hopen : (syslogOpen self name).priv = .live block := h
    exact ⟨_, allocate_live hopen calloc _, hopen⟩
  destroy_live self block h := by
    refine ⟨⟨.freed, self.output ++ [.closelog]⟩, ?_, rfl⟩
    show syslogDestroy self = _
    rw [syslogDestroy, release_live h]
    rfl
  count_live calloc self block kind c h hc := by
    obtain ⟨text, hexec⟩ := exec_of_kind sysLogger (fun _ _ _ => ⟨_, rfl⟩)
      (fun _ _ _ => ⟨_, rfl⟩) (fun _ _ _ => ⟨_, rfl⟩) (fun _ _ _ _ => ⟨_, rfl⟩) calloc self hc
    exact ⟨text, hexec.trans (countCall_live h text)⟩
  dumpStats_live self block h := by
    refine ⟨⟨.live block, self.output ++ [.syslog .info (.stats block.stats)]⟩, _, ?_, rfl, rfl,
      rfl⟩
    show syslogDumpStats self = _
    rw [syslogDumpStats, privCheck, h]
    rfl

/-! ## Runs without a `destroy` -/

/-- The block is there since the first call, and has counted all of them. -/
def Tracks (calls : List LogCall) (self : Logger) : Prop :=
  (calls = [] ∧ self.priv = .absent) ∨
    ∃ block, self.priv = .live block ∧ ∀ kind, block.count kind = countOf kind calls

theorem countOf_concat (kind : LogKind) (calls : List LogCall) (c : LogCall) :
    countOf kind (calls ++ [c]) = countOf kind calls + if c.kind = some kind then 1 else 0 := by
  simp [countOf]

theorem countOf_concat_none {c : LogCall} (hc : c.kind = none) (kind : LogKind)
    (calls : List LogCall) : countOf kind (calls ++ [c]) = countOf kind calls := by
  rw [countOf_concat, hc]
  rfl

theorem Bounded.of_append {calls' : List LogCall} (h : Bounded (calls ++ calls')) :
    Bounded calls := by
  intro kind
  have hkind := h kind
  rw [countOf, List.countP_append] at hkind
  rw [countOf]
  omega

variable {logger : LogCb}

theorem runLogger_append_error {calloc : Bool} {e : LogStop}
    (h : runLogger logger calloc calls = .error e) (calls' : List LogCall) :
    runLogger logger calloc (calls ++ calls') = .error e := by
  rw [runLogger] at h
  rw [runLogger, List.foldlM_append, h]
  rfl

theorem runLogger_concat {calloc : Bool} (h : runLogger logger calloc calls = .ok self)
    (c : LogCall) : runLogger logger calloc (calls ++ [c]) = c.exec logger calloc self := by
  rw [runLogger] at h
  rw [runLogger, List.foldlM_append, h]
  exact bind_pure (c.exec logger calloc self)

/-- One call: the block is there and has counted it, or its counter has overflown. -/
theorem exec_tracks (hlogger : logger.CountsCalls) {c : LogCall} (h : Tracks calls self)
    (hbounded : Bounded calls) (hc : c ≠ .destroy) (hfirst : calls = [] → c.isInit = true) :
    (∃ self', c.exec logger true self = .ok self' ∧ Tracks (calls ++ [c]) self' ∧
        Bounded (calls ++ [c])) ∨
      (c.exec logger true self = .error .undefined ∧ ¬ Bounded (calls ++ [c])) := by
  cases hkind : c.kind with
  | none =>
    -- nothing is counted
    have hcount := fun kind => countOf_concat_none hkind kind calls
    have hbounded' : Bounded (calls ++ [c]) := fun kind => hcount kind ▸ hbounded kind
    have hkeep : ∀ self' block, self'.priv = .live block →
        (∀ kind, block.count kind = (countOf kind calls : Int)) → Tracks (calls ++ [c]) self' := by
      intro self' block hpriv hcounts
      exact .inr ⟨block, hpriv, fun kind => by rw [hcount, hcounts]⟩
    rcases h with ⟨rfl, habsent⟩ | ⟨block, hlive, hcounts⟩
    · cases c with
      | init name =>
        obtain ⟨self', block, hinit, hpriv, hzero⟩ := hlogger.init_absent self name habsent
        exact .inl ⟨self', hinit, hkeep self' block hpriv hzero, hbounded'⟩
      | _ => cases hfirst rfl
    · cases c with
      | init name =>
        obtain ⟨self', hinit, hpriv⟩ := hlogger.init_live true self name block hlive
        exact .inl ⟨self', hinit, hkeep self' block hpriv hcounts, hbounded'⟩
      | destroy => exact absurd rfl hc
      | dumpStats =>
        obtain ⟨self', _, hdump, hpriv, -⟩ := hlogger.dumpStats_live self block hlive
        exact .inl ⟨self', hdump, hkeep self' block hpriv hcounts, hbounded'⟩
      | _ => cases hkind
  | some kind =>
    rcases h with ⟨rfl, -⟩ | ⟨block, hlive, hcounts⟩
    · have hinit := hfirst rfl
      cases c <;> cases hkind <;> cases hinit
    · obtain ⟨text, hexec⟩ := hlogger.count_live true self block kind c hlive hkind
      have hcount : ∀ k, countOf k (calls ++ [c]) = countOf k calls + if kind = k then 1 else 0 := by
        intro k
        rw [countOf_concat, hkind]
        simp
      by_cases hmax : block.count kind = intMax
      · refine .inr ⟨by rw [hexec, increment_of_eq hmax]; rfl, fun hbounded' => ?_⟩
        have hkind' := hbounded' kind
        rw [hcount, if_pos rfl] at hkind'
        rw [hcounts] at hmax
        omega
      · obtain ⟨block', hincrement, hcounts'⟩ := increment_of_ne hmax
        have hcounts'' : ∀ k, block'.count k = (countOf k (calls ++ [c]) : Int) := by
          intro k
          rw [hcounts', hcounts, hcount]
          split_ifs <;> simp
        refine .inl ⟨⟨.live block', _⟩, by rw [hexec, hincrement]; rfl,
          .inr ⟨block', rfl, hcounts''⟩, fun k => ?_⟩
        have hk := hbounded k
        rw [hcount]
        split_ifs with hk'
        · subst hk'
          rw [hcounts] at hmax
          omega
        · omega

/-! ## Admissible sequences -/

theorem Admissible.of_append {calls' : List LogCall} (h : Admissible (calls ++ calls')) :
    Admissible calls := by
  rintro pre c post rfl hc
  exact h pre c (post ++ calls') (by simp) hc

theorem Admissible.ne_nil {pre post : List LogCall} {c : LogCall}
    (h : Admissible (pre ++ c :: post)) (hc : c.isInit = false) : pre ≠ [] := by
  rintro rfl
  obtain ⟨c', hc', -⟩ := h [] c post rfl hc
  cases hc'

theorem Admissible.isInit_head {post : List LogCall} {c : LogCall} (h : Admissible (c :: post)) :
    c.isInit = true := by
  by_contra hc
  have hne : ([] : List LogCall) ≠ [] := Admissible.ne_nil h (Bool.eq_false_iff.mpr hc)
  exact hne rfl

theorem sinceDestroy_of_not_mem (h : .destroy ∉ calls) : sinceDestroy calls = calls := by
  rw [sinceDestroy, List.rtakeWhile_eq_self_iff]
  intro c hc
  simpa using ne_of_mem_of_not_mem hc h

theorem run_tracks (hlogger : logger.CountsCalls) (hcalls : Admissible calls)
    (hdestroy : .destroy ∉ calls) :
    (∃ self, runLogger logger true calls = .ok self ∧ Tracks calls self ∧ Bounded calls) ∨
      (runLogger logger true calls = .error .undefined ∧ ¬ Bounded calls) := by
  induction calls using List.reverseRecOn with
  | nil => exact .inl ⟨_, rfl, .inl ⟨rfl, rfl⟩, fun kind => by simp [countOf, intMax]⟩
  | append_singleton calls c ih =>
    obtain ⟨hmem, hc⟩ : .destroy ∉ calls ∧ .destroy ≠ c := by simpa using hdestroy
    rcases ih hcalls.of_append hmem with ⟨self, hrun, htracks, hbounded⟩ | ⟨hrun, hbounded⟩
    · have hfirst : calls = [] → c.isInit = true := by
        rintro rfl
        exact hcalls.isInit_head
      rw [runLogger_concat hrun]
      exact exec_tracks hlogger htracks hbounded hc.symm hfirst
    · exact .inr ⟨runLogger_append_error hrun [c], fun h => hbounded h.of_append⟩

theorem Tracks.live (h : Tracks calls self) (hne : calls ≠ []) :
    ∃ block, self.priv = .live block ∧ ∀ kind, block.count kind = countOf kind calls :=
  h.resolve_left fun h => hne h.1

/-- Without memory for the block the first call is the last. -/
theorem runLogger_failed (hlogger : logger.CountsCalls) (hcalls : Admissible calls)
    (hne : calls ≠ []) : runLogger logger false calls = .error (.exit (-1)) := by
  cases calls with
  | nil => exact absurd rfl hne
  | cons c calls =>
    cases c with
    | init name =>
      rw [runLogger, List.foldlM_cons, LogCall.exec, hlogger.init_failed _ name rfl]
      rfl
    | _ => cases hcalls.isInit_head

/-! ## The lifecycle -/

/-- The calls before the only `destroy`, if there is one. -/
theorem exists_without_destroy (h : .destroy ∉ calls.dropLast) :
    ∃ pre, .destroy ∉ pre ∧ (calls = pre ∨ calls = pre ++ [.destroy]) := by
  by_cases hmem : .destroy ∈ calls
  · obtain ⟨pre, post, rfl, hpre⟩ := List.eq_append_cons_of_mem hmem
    cases post with
    | nil => exact ⟨pre, hpre, .inr rfl⟩
    | cons c post => simp at h
  · exact ⟨calls, hmem, .inl rfl⟩

theorem countOf_destroy (kind : LogKind) (pre : List LogCall) :
    countOf kind (pre ++ [.destroy]) = countOf kind pre := countOf_concat_none rfl kind pre

/-- Before a call of a sequence that keeps the block nothing has been destroyed. -/
theorem KeepsBlock.tracks {pre post : List LogCall} {c : LogCall} (h : KeepsBlock (pre ++ c :: post))
    (hlogger : logger.CountsCalls) (hcalls : Admissible (pre ++ c :: post))
    (hself : runLogger logger true pre = .ok self) : .destroy ∉ pre ∧ Tracks pre self := by
  have hpre : .destroy ∉ pre := by
    intro hmem
    refine h.destroy_last ?_
    rw [List.dropLast_append_cons]
    exact List.mem_append_left _ hmem
  rcases run_tracks hlogger hcalls.of_append hpre with ⟨self', hrun, htracks, -⟩ | ⟨hrun, -⟩
  · obtain rfl := Except.ok.inj (hself.symm.trans hrun)
    exact ⟨hpre, htracks⟩
  · cases hself.symm.trans hrun

theorem KeepsBlock.defined (h : KeepsBlock calls) (hlogger : logger.CountsCalls)
    (hcalls : Admissible calls) : runLogger logger true calls ≠ .error .undefined := by
  obtain ⟨pre, hpre, rfl | rfl⟩ := exists_without_destroy h.destroy_last
  · rcases run_tracks hlogger hcalls hpre with ⟨self, hself, -⟩ | ⟨-, hnot⟩
    · rw [hself]
      simp
    · exact absurd h.bounded hnot
  · rcases run_tracks hlogger hcalls.of_append hpre with ⟨self, hself, htracks, -⟩ | ⟨-, hnot⟩
    · obtain ⟨block, hlive, -⟩ := htracks.live (hcalls.ne_nil rfl)
      obtain ⟨self', hdestroy, -⟩ := hlogger.destroy_live self block hlive
      rw [runLogger_concat hself, LogCall.exec, hdestroy]
      simp
    · exact absurd h.bounded.of_append hnot

theorem lifecycle_of_keepsBlock (hlogger : logger.CountsCalls) (hcalls : Admissible calls)
    (h : KeepsBlock calls) : Lifecycle logger true calls := by
  refine ⟨h.defined hlogger hcalls, ?_, ?_⟩
  · rintro pre c post self rfl hself
    obtain ⟨-, htracks⟩ := h.tracks hlogger hcalls hself
    constructor
    · rcases htracks with ⟨-, habsent⟩ | ⟨block, hlive, -⟩
      · simp [habsent]
      · simp [hlive]
    · intro hc
      obtain ⟨block, hlive, -⟩ := htracks.live (hcalls.ne_nil hc)
      exact ⟨block, hlive⟩
  · rintro pre post self self' rfl hself hself'
    obtain ⟨hpre, htracks⟩ := h.tracks hlogger hcalls hself
    obtain ⟨block, hlive, hcounts⟩ := htracks.live (hcalls.ne_nil rfl)
    obtain ⟨self'', out, hdump, -, hout, hreported⟩ := hlogger.dumpStats_live self block hlive
    obtain rfl := Except.ok.inj (hself'.symm.trans hdump)
    refine ⟨out, hout, hreported.trans ?_⟩
    rw [sinceDestroy_of_not_mem hpre, LogControl.stats, statsOf, ← hcounts .info, ← hcounts .warn,
      ← hcounts .error, ← hcounts .debug]
    rfl

theorem keepsBlock_of_lifecycle (hlogger : logger.CountsCalls) (hcalls : Admissible calls)
    (h : Lifecycle logger true calls) : KeepsBlock calls := by
  have hrun : ∀ pre post, calls = pre ++ post → .destroy ∉ pre →
      ∃ self, runLogger logger true pre = .ok self ∧ Tracks pre self ∧ Bounded pre := by
    rintro pre post rfl hpre
    rcases run_tracks hlogger hcalls.of_append hpre with hok | ⟨herror, -⟩
    · exact hok
    · exact absurd (runLogger_append_error herror post) h.defined
  have hlast : .destroy ∉ calls.dropLast := by
    intro hmem
    obtain ⟨pre, post, hsplit, hpre⟩ := List.eq_append_cons_of_mem (List.dropLast_subset _ hmem)
    cases post with
    | nil =>
      rw [hsplit, List.dropLast_concat] at hmem
      exact hpre hmem
    | cons c post =>
      -- the call after the `destroy` finds the freed block
      obtain ⟨self, hself, htracks, -⟩ := hrun pre _ hsplit hpre
      obtain ⟨block, hlive, -⟩ := htracks.live ((hsplit ▸ hcalls).ne_nil rfl)
      obtain ⟨self', hdestroy, hfreed⟩ := hlogger.destroy_live self block hlive
      have hself' : runLogger logger true (pre ++ [.destroy]) = .ok self' := by
        rw [runLogger_concat hself, LogCall.exec, hdestroy]
      exact (h.finds (pre ++ [.destroy]) c post self' (by simpa using hsplit) hself').1 hfreed
  refine ⟨hlast, ?_⟩
  obtain ⟨pre, hpre, rfl | rfl⟩ := exists_without_destroy hlast
  · obtain ⟨-, -, -, hbounded⟩ := hrun calls [] (by simp) hpre
    exact hbounded
  · obtain ⟨-, -, -, hbounded⟩ := hrun pre _ rfl hpre
    intro kind
    rw [countOf_destroy]
    exact hbounded kind

theorem lifecycle_of_failed (hlogger : logger.CountsCalls) (hcalls : Admissible calls) :
    Lifecycle logger false calls := by
  have hstart : ∀ pre c post self, calls = pre ++ c :: post →
      runLogger logger false pre = .ok self → pre = [] := by
    rintro pre c post self rfl hself
    by_contra hne
    cases hself.symm.trans (runLogger_failed hlogger hcalls.of_append hne)
  refine ⟨?_, ?_, ?_⟩
  · by_cases hne : calls = []
    · subst hne
      rintro ⟨⟩
    · rw [runLogger_failed hlogger hcalls hne]
      rintro ⟨⟩
  · intro pre c post self hsplit hself
    obtain rfl := hstart pre c post self hsplit hself
    obtain rfl := Except.ok.inj hself
    refine ⟨by simp, fun hc => ?_⟩
    exact absurd rfl ((hsplit ▸ hcalls).ne_nil hc)
  · intro pre post self self' hsplit hself
    have hnil := hstart pre .dumpStats post self hsplit hself
    exact absurd hnil ((hsplit ▸ hcalls).ne_nil rfl)

/-- **The lifecycle of a logger**: for both loggers it is as it should be exactly when there is no
memory for the first block, or nothing is called after a `destroy` and the counters have room. -/
theorem logger_lifecycle_iff (logger : LogCb) (hlogger : logger ∈ [consoleLogger, sysLogger])
    (calloc : Bool) (calls : List LogCall) (hcalls : Admissible calls) :
    Lifecycle logger calloc calls ↔ (calloc = true → KeepsBlock calls) := by
  have hcounts : logger.CountsCalls := by
    rcases List.mem_pair.mp hlogger with rfl | rfl
    · exact consoleLogger_countsCalls
    · exact sysLogger_countsCalls
  cases calloc with
  | false => simp [lifecycle_of_failed hcounts hcalls]
  | true =>
    simp only [forall_const]
    exact ⟨keepsBlock_of_lifecycle hcounts hcalls, lifecycle_of_keepsBlock hcounts hcalls⟩

/-- A message, the report and the end of the logger. -/
theorem logger_lifecycle_iff_once :
    Lifecycle sysLogger true [.init "TEST", .warn 3 "testing warning", .dumpStats, .destroy] :=
  (logger_lifecycle_iff sysLogger (List.mem_pair.mpr (.inr rfl)) true _ (by decide)).mpr fun _ =>
    ⟨by decide, fun kind => by cases kind <;> decide⟩

/-- The second `init` keeps the block that has been freed, and the warning is counted there. -/
theorem logger_not_lifecycle :
    ¬ ∀ logger ∈ [consoleLogger, sysLogger], ∀ calloc calls, Admissible calls →
      Lifecycle logger calloc calls := by
  intro h
  have hcalls := h consoleLogger (List.mem_pair.mpr (.inl rfl)) true
    [.init "TEST", .destroy, .init "TEST", .warn 3 "testing warning"] (by decide)
  exact hcalls.defined rfl

end Twd
