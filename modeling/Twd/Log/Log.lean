import Mathlib.Data.List.DropRight

/-!
# Loggers

Translation of `log.c`. A `logger_t` is a table of functions and the pointer `priv` to the control
block that they share. The members `id` and `priv_size`, which nothing reads, and the functions
`reset`, `change` and `dump`, which change nothing, are left out.
-/

namespace Twd

/-- The kinds of messages that are counted. -/
inductive LogKind
  | warn
  | error
  | info
  | debug
  deriving DecidableEq, Repr

/-- `log_control_t` and `syslog_control_t`, whose members are `int`. -/
structure LogControl where
  facility : Int
  level : Int
  warn : Int
  error : Int
  info : Int
  debug : Int
  debugLevel : Int
  deriving DecidableEq, Repr

/-- What `priv` points to. -/
inductive Priv
  | absent
  | live (block : LogControl)
  | freed
  deriving DecidableEq, Repr

/-- The numbers of `"info: %d warn: %d error: %d debug %d messages sent"`. -/
structure LogStats where
  info : Int
  warn : Int
  error : Int
  debug : Int
  deriving DecidableEq, Repr

inductive LogText
  | line (text : String)
  | stats (stats : LogStats)
  deriving DecidableEq, Repr

inductive SyslogPriority
  | err
  | warning
  | notice
  | info
  | debug
  deriving DecidableEq, Repr

/-- What a logger hands to the system. -/
inductive LogOutput
  | stdout (text : LogText)
  | stderr (text : LogText)
  | openlog (ident : String) (option facility : Int)
  | syslog (priority : SyslogPriority) (text : LogText)
  | closelog
  deriving DecidableEq, Repr

/-- The changing part of a `logger_t`, and what it has written. -/
structure Logger where
  priv : Priv
  output : List LogOutput
  deriving DecidableEq, Repr

/-- Why a function of a logger does not return. -/
inductive LogStop
  /-- It exits through `logger_not_avail`. -/
  | exit (err : Int)
  /-- It uses a block that has been freed, or increments an `int` that has no next value. -/
  | undefined
  deriving DecidableEq, Repr

/-! ## What the functions of both loggers share -/

/-- The block as `calloc` gives it. -/
def LogControl.zero : LogControl := ⟨0, 0, 0, 0, 0, 0, 0⟩

def LogControl.count (priv : LogControl) : LogKind → Int
  | .warn => priv.warn
  | .error => priv.error
  | .info => priv.info
  | .debug => priv.debug

def LogControl.stats (priv : LogControl) : LogStats :=
  ⟨priv.info, priv.warn, priv.error, priv.debug⟩

def intMax : Int := 2147483647

/-- `priv->warn++` and its like. -/
def LogControl.increment (priv : LogControl) (kind : LogKind) : Except LogStop LogControl :=
  if priv.count kind = intMax then .error .undefined
  else .ok <| match kind with
    | .warn => { priv with warn := priv.warn + 1 }
    | .error => { priv with error := priv.error + 1 }
    | .info => { priv with info := priv.info + 1 }
    | .debug => { priv with debug := priv.debug + 1 }

/-- `PRIV_CHECK`: it only looks whether `priv` is zero. -/
def privCheck (self : Logger) : Except LogStop Priv :=
  match self.priv with
  | .absent => .error (.exit (-1))
  | priv => .ok priv

/-- The block behind a pointer that is not zero. -/
def Priv.block : Priv → Except LogStop LogControl
  | .live block => .ok block
  | _ => .error .undefined

/-- A function that counts its call, and then writes. -/
def countCall (self : Logger) (kind : LogKind) (text : LogControl → List LogOutput) :
    Except LogStop Logger := do
  let priv ← privCheck self
  let block ← priv.block
  let block ← block.increment kind
  .ok ⟨.live block, self.output ++ text block⟩

/-- `if(self->priv == NULL)` with a block from `calloc` that is then filled in; `calloc` says whether
there is memory. -/
def allocate (calloc : Bool) (self : Logger) (block : LogControl) : Except LogStop Logger := do
  match self.priv with
  | .absent =>
    let self := { self with priv := if calloc then .live .zero else .absent }
    let _ ← privCheck self
    .ok { self with priv := .live block }
  | _ => .ok self

/-- `free(priv)`; the pointer stays. -/
def release (self : Logger) : Except LogStop Logger := do
  let priv ← privCheck self
  let _ ← priv.block
  .ok { self with priv := .freed }

/-! ## The console logger -/

def logWarn (self : Logger) (err : Int) (message : String) : Except LogStop Logger :=
  countCall self .warn fun _ => [.stderr (.line s!"WARN: {err}: {message}\n")]

def logError (self : Logger) (err : Int) (message : String) : Except LogStop Logger :=
  countCall self .error fun _ => [.stderr (.line s!"ERROR: {err}: {message}\n")]

def logInfo (self : Logger) (err : Int) (message : String) : Except LogStop Logger :=
  countCall self .info fun _ => [.stderr (.line s!"INFO: {err}: {message}\n")]

def logDebug (self : Logger) (level err : Int) (message : String) : Except LogStop Logger :=
  countCall self .debug fun priv =>
    if priv.debugLevel < level then [.stderr (.line s!"DEBUG: {err} {message}\n")] else []

def logInit (calloc : Bool) (self : Logger) (_name : String) : Except LogStop Logger :=
  allocate calloc self .zero

def logDestroy (self : Logger) : Except LogStop Logger := release self

def logDumpStats (self : Logger) : Except LogStop Logger := do
  let priv ← privCheck self
  let block ← priv.block
  .ok { self with output := self.output ++ [.stderr (.stats block.stats)] }

/-! ## The syslog logger -/

def syslogWarn (self : Logger) (_err : Int) (message : String) : Except LogStop Logger :=
  countCall self .warn fun _ => [.syslog .warning (.line s!"{message}\n")]

def syslogError (self : Logger) (_err : Int) (message : String) : Except LogStop Logger :=
  countCall self .error fun _ => [.syslog .err (.line s!"{message}\n")]

def syslogInfo (self : Logger) (_err : Int) (message : String) : Except LogStop Logger :=
  countCall self .info fun _ => [.syslog .notice (.line s!"{message}\n")]

def syslogDebug (self : Logger) (level _err : Int) (message : String) : Except LogStop Logger :=
  countCall self .debug fun priv =>
    if priv.debugLevel < level then [.syslog .debug (.line s!"{message}\n")] else []

/-- `LOG_CONS|LOG_NDELAY` -/
def syslogOption : Int := 10

/-- `LOG_LOCAL6` -/
def syslogFacility : Int := 176

/-- What `syslog_init` does before it looks at `priv`. -/
def syslogOpen (self : Logger) (name : String) : Logger :=
  { self with output := self.output ++ [.stdout (.line "enabling syslogging"),
      .openlog name syslogOption syslogFacility] }

def syslogInit (calloc : Bool) (self : Logger) (name : String) : Except LogStop Logger :=
  allocate calloc (syslogOpen self name)
    { LogControl.zero with facility := syslogOption, level := syslogFacility }

def syslogDestroy (self : Logger) : Except LogStop Logger := do
  let self ← release self
  .ok { self with output := self.output ++ [.closelog] }

def syslogDumpStats (self : Logger) : Except LogStop Logger := do
  let priv ← privCheck self
  let block ← priv.block
  .ok { self with output := self.output ++ [.syslog .info (.stats block.stats)] }

/-! ## Tables of functions -/

/-- The functions of a `logger_t`. -/
structure LogCb where
  warn : Logger → Int → String → Except LogStop Logger
  info : Logger → Int → String → Except LogStop Logger
  error : Logger → Int → String → Except LogStop Logger
  debug : Logger → Int → Int → String → Except LogStop Logger
  init : Bool → Logger → String → Except LogStop Logger
  destroy : Logger → Except LogStop Logger
  dumpStats : Logger → Except LogStop Logger

def consoleLogger : LogCb where
  warn := logWarn
  info := logInfo
  error := logError
  debug := logDebug
  init := logInit
  destroy := logDestroy
  dumpStats := logDumpStats

def sysLogger : LogCb where
  warn := syslogWarn
  info := syslogInfo
  error := syslogError
  debug := syslogDebug
  init := syslogInit
  destroy := syslogDestroy
  dumpStats := syslogDumpStats

/-! ## Sequences of calls -/

inductive LogCall
  | init (name : String)
  | destroy
  | warn (err : Int) (message : String)
  | error (err : Int) (message : String)
  | info (err : Int) (message : String)
  | debug (level err : Int) (message : String)
  | dumpStats
  deriving DecidableEq, Repr

namespace LogCall

def isInit : LogCall → Bool
  | init _ => true
  | _ => false

/-- The kind of message that a call sends. -/
def kind : LogCall → Option LogKind
  | warn _ _ => some .warn
  | error _ _ => some .error
  | info _ _ => some .info
  | debug _ _ _ => some .debug
  | _ => none

def exec (logger : LogCb) (calloc : Bool) (self : Logger) : LogCall → Except LogStop Logger
  | init name => logger.init calloc self name
  | destroy => logger.destroy self
  | warn err message => logger.warn self err message
  | error err message => logger.error self err message
  | info err message => logger.info self err message
  | debug level err message => logger.debug self level err message
  | dumpStats => logger.dumpStats self

end LogCall

/-- The calls one after the other, on a logger without a block. -/
def runLogger (logger : LogCb) (calloc : Bool) (calls : List LogCall) : Except LogStop Logger :=
  calls.foldlM (LogCall.exec logger calloc) ⟨.absent, []⟩

/-- The calls after the last `destroy`. -/
def sinceDestroy (calls : List LogCall) : List LogCall := calls.rtakeWhile fun c => c ≠ .destroy

def countOf (kind : LogKind) (calls : List LogCall) : Nat :=
  calls.countP fun c => c.kind = some kind

def statsOf (calls : List LogCall) : LogStats :=
  ⟨countOf .info calls, countOf .warn calls, countOf .error calls, countOf .debug calls⟩

/-- Every call other than `init` comes after an `init` that is more recent than any `destroy`. -/
def Admissible (calls : List LogCall) : Prop :=
  ∀ pre c post, calls = pre ++ c :: post → c.isInit = false →
    ∃ c' ∈ sinceDestroy pre, c'.isInit = true

theorem admissible_iff (calls : List LogCall) : Admissible calls ↔
    ∀ i : Fin calls.length, calls[i].isInit = false →
      ∃ c' ∈ sinceDestroy (calls.take i), c'.isInit = true := by
  constructor
  · intro h i
    refine h (calls.take i) calls[i] (calls.drop (i + 1)) ?_
    rw [Fin.getElem_fin, List.getElem_cons_drop, List.take_append_drop]
  · rintro h pre c post rfl hc
    simpa [hc] using h ⟨pre.length, by simp⟩

instance (calls : List LogCall) : Decidable (Admissible calls) :=
  decidable_of_iff _ (admissible_iff calls).symm

/-- The numbers that are written, if they are. -/
def LogOutput.reported : LogOutput → Option LogStats
  | .stderr (.stats stats) => some stats
  | .syslog _ (.stats stats) => some stats
  | _ => none

/-- No call finds a block that has been freed, and all but `init` find one that is live; what
`dump_stats` reports is what has been sent since the `init` after the last `destroy`. -/
structure Lifecycle (logger : LogCb) (calloc : Bool) (calls : List LogCall) : Prop where
  defined : runLogger logger calloc calls ≠ .error .undefined
  finds : ∀ pre c post self, calls = pre ++ c :: post → runLogger logger calloc pre = .ok self →
    self.priv ≠ .freed ∧ (c.isInit = false → ∃ block, self.priv = .live block)
  reports : ∀ pre post self self', calls = pre ++ .dumpStats :: post →
    runLogger logger calloc pre = .ok self → logger.dumpStats self = .ok self' →
    ∃ out, self'.output = self.output ++ [out] ∧ out.reported = some (statsOf (sinceDestroy pre))

/-- No counter has to count further than an `int` can. -/
def Bounded (calls : List LogCall) : Prop := ∀ kind, (countOf kind calls : Int) ≤ intMax

/-- Nothing is called after a `destroy`, and the counters have room for all calls. -/
structure KeepsBlock (calls : List LogCall) : Prop where
  destroy_last : .destroy ∉ calls.dropLast
  bounded : Bounded calls

end Twd
