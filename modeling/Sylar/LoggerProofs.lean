import Sylar.LogDefineProofs
import Sylar.LogFormatterProofs

/-! # Loggers, their appenders, and what a define makes of them (`log.cc`, `log.h`)

A logger hands its formatter to the appenders that have none of their own.  The body of
the listener of the `logs` variable for one new or modified logger sets the level, sets
the formatter if the define has one, and makes the appenders.

* **`configure_spec`** — everything but the formatter is set anew; and an appender of
  an unknown type is a null pointer. -/

namespace SylarLog

/-! ## The code -/

abbrev Name := List Char

/-- `FileLogAppender` with its file, or `StdoutLogAppender`. -/
inductive Target where
  | file (m_filename : List Char)
  | stdout
  deriving DecidableEq, Repr

/-- `LogAppender`.  A formatter is determined by its pattern. -/
structure LogAppender where
  target : Target
  m_level : Level
  m_formatter : Option (List Char)
  m_hasFormatter : Bool
  deriving DecidableEq, Repr

/-- `new FileLogAppender(file)`, `new StdoutLogAppender`. -/
def LogAppender.new (target : Target) : LogAppender := ⟨target, .DEBUG, none, false⟩

/-- `LogAppender::setFormatter`. -/
def LogAppender.setFormatter (ap : LogAppender) (val : Option (List Char)) : LogAppender :=
  { ap with m_formatter := val, m_hasFormatter := val.isSome }

/-- `Logger`. -/
structure Logger where
  m_level : Level
  m_appenders : List LogAppender
  m_formatter : List Char
  deriving DecidableEq, Repr

/-- `Logger::setFormatter(LogFormatter::ptr)`: appenders without their own formatter
follow. -/
def Logger.setFormatter (logger : Logger) (val : List Char) : Logger :=
  { logger with
    m_formatter := val
    m_appenders := logger.m_appenders.map fun i =>
      if i.m_hasFormatter then i else { i with m_formatter := some val } }

/-- `Logger::setFormatter(const std::string&)`: an invalid pattern changes nothing. -/
def Logger.setPattern (logger : Logger) (val : List Char) : Logger :=
  if (LogFormatter.new val).m_error then logger else logger.setFormatter val

def Logger.addAppender (logger : Logger) (appender : LogAppender) : Logger :=
  let appender := if appender.m_formatter.isNone then
    { appender with m_formatter := some logger.m_formatter } else appender
  { logger with m_appenders := logger.m_appenders ++ [appender] }

def Logger.clearAppender (logger : Logger) : Logger := { logger with m_appenders := [] }

def Logger.setLevel (logger : Logger) (val : Level) : Logger := { logger with m_level := val }

/-- The value of the enumerator. -/
def Level.rank : Level → Nat
  | .UNKNOW => 0
  | .DEBUG => 1
  | .INFO => 2
  | .WARN => 3
  | .ERROR => 4
  | .FATAL => 5

/-- `Logger::log`: the appenders that write an event of the level; `root` is `m_root`, which the
root logger has not. -/
def Logger.log (logger : Logger) (root : Option Logger) (level : Level) : List LogAppender :=
  if logger.m_level.rank ≤ level.rank then
    if logger.m_appenders ≠ [] then
      logger.m_appenders.filter fun ap => ap.m_level.rank ≤ level.rank
    else
      match root with
      | some root =>
          if root.m_level.rank ≤ level.rank then
            root.m_appenders.filter fun ap => ap.m_level.rank ≤ level.rank
          else []
      | none => []
  else []

/-- The appender that the listener makes; `none` is the null pointer that it dereferences
for any other type. -/
def makeAppender (a : LogAppenderDefine) : Option LogAppender := do
  let ap ← if a.type = 1 then some (LogAppender.new (.file a.file))
    else if a.type = 2 then some (LogAppender.new .stdout)
    else none
  let ap := { ap with m_level := a.level }
  if a.formatter ≠ [] then
    if (LogFormatter.new a.formatter).m_error then return ap
    else return ap.setFormatter (some a.formatter)
  else return ap

/-- The loop over `i.appenders`. -/
def addAppenders : Logger → List LogAppenderDefine → Option Logger
  | logger, [] => some logger
  | logger, a :: rest => do addAppenders (logger.addAppender (← makeAppender a)) rest

/-- What the listener does with a new or modified logger. -/
def configure (logger : Logger) (i : LogDefine) : Option Logger :=
  let logger := logger.setLevel i.level
  let logger := if i.formatter ≠ [] then logger.setPattern i.formatter else logger
  addAppenders logger.clearAppender i.appenders

/-- What the listener does with a logger that is gone. -/
def switchOff (logger : Logger) : Logger := (logger.setLevel .UNKNOW).clearAppender

/-! ## One define -/

/-- No level keeps a fatal event from passing. -/
theorem rank_le_fatal (lv : Level) : lv.rank ≤ Level.FATAL.rank := by
  cases lv <;> decide

/-- A formatter text that is taken: not empty and valid. -/
def valid (pattern : List Char) : Bool :=
  pattern ≠ [] && !(LogFormatter.new pattern).m_error

/-- The formatter of a logger with formatter `f` after the define. -/
def formatterAfter (f : List Char) (d : LogDefine) : List Char :=
  if valid d.formatter then d.formatter else f

def LogAppenderDefine.known (a : LogAppenderDefine) : Bool := a.type = 1 || a.type = 2

/-- The listener can make all the appenders. -/
def LogDefine.known (d : LogDefine) : Bool := d.appenders.all LogAppenderDefine.known

def LogAppenderDefine.target (a : LogAppenderDefine) : Target :=
  if a.type = 1 then .file a.file else .stdout

/-- What a logger with formatter `f` has of an appender define. -/
def made (f : List Char) (a : LogAppenderDefine) : LogAppender :=
  ⟨a.target, a.level, some (if valid a.formatter then a.formatter else f), valid a.formatter⟩

/-- The logger that a define describes, with formatter `f`. -/
def described (f : List Char) (d : LogDefine) : Logger :=
  ⟨d.level, d.appenders.map (made f), f⟩

/-- The appender as it is made, before it takes over the formatter of a logger. -/
theorem makeAppender_spec (a : LogAppenderDefine) : makeAppender a = if a.known then
      some ⟨a.target, a.level, if valid a.formatter then some a.formatter else none,
        valid a.formatter⟩ else none := by
  have hformatter : ∀ ap : LogAppender, ap.m_formatter = none → ap.m_hasFormatter = false →
      (if a.formatter ≠ [] then
        if (LogFormatter.new a.formatter).m_error then some ap
        else some (ap.setFormatter (some a.formatter))
      else some ap)
        = some ⟨ap.target, ap.m_level, if valid a.formatter then some a.formatter else none,
            valid a.formatter⟩ := by
    rintro ⟨target, level, -, -⟩ rfl rfl
    by_cases hne : a.formatter = []
    · simp [hne, valid]
    · cases herr : (LogFormatter.new a.formatter).m_error <;>
        simp [hne, herr, valid, LogAppender.setFormatter]
  by_cases h1 : a.type = 1
  · have hknown : a.known = true := by simp [LogAppenderDefine.known, h1]
    rw [if_pos hknown, LogAppenderDefine.target, if_pos h1, makeAppender, if_pos h1]
    exact hformatter { LogAppender.new (.file a.file) with m_level := a.level } rfl rfl
  by_cases h2 : a.type = 2
  · have hknown : a.known = true := by simp [LogAppenderDefine.known, h2]
    rw [if_pos hknown, LogAppenderDefine.target, if_neg h1, makeAppender, if_neg h1, if_pos h2]
    exact hformatter { LogAppender.new .stdout with m_level := a.level } rfl rfl
  · have hknown : ¬ a.known = true := by simp [LogAppenderDefine.known, h1, h2]
    rw [if_neg hknown, makeAppender, if_neg h1, if_neg h2]
    rfl

/-- Added to a logger, an appender without a valid formatter takes the logger's. -/
theorem addAppender_made (logger : Logger) (a : LogAppenderDefine) :
    logger.addAppender ⟨a.target, a.level, if valid a.formatter then some a.formatter else none,
        valid a.formatter⟩
      = { logger with m_appenders := logger.m_appenders ++ [made logger.m_formatter a] } := by
  by_cases hv : valid a.formatter <;> simp [Logger.addAppender, made, hv]

theorem addAppenders_spec (appenders : List LogAppenderDefine) (logger : Logger) :
    addAppenders logger appenders = if appenders.all LogAppenderDefine.known then
          some { logger with m_appenders :=
            logger.m_appenders ++ appenders.map (made logger.m_formatter) }
        else none := by
  induction appenders generalizing logger with
  | nil => simp [addAppenders]
  | cons a appenders ih =>
    rw [addAppenders, makeAppender_spec, List.all_cons, List.map_cons]
    by_cases ha : a.known
    · rw [if_pos ha, ha, Bool.true_and]
      change addAppenders (logger.addAppender _) appenders = _
      rw [addAppender_made, ih]
      simp
    · simp [ha]

/-- **ONE DEFINE**: the logger is now the one described, with its old formatter if the define has no
valid one. -/
theorem configure_spec (logger : Logger) (d : LogDefine) : configure logger d
      = if d.known then some (described (formatterAfter logger.m_formatter d) d) else none := by
  have hclear : (if d.formatter ≠ [] then (logger.setLevel d.level).setPattern d.formatter else
    logger.setLevel d.level).clearAppender
        = ⟨d.level, [], formatterAfter logger.m_formatter d⟩ := by
    by_cases hne : d.formatter = []
    · simp [hne, formatterAfter, valid, Logger.setLevel, Logger.clearAppender]
    · cases herr : (LogFormatter.new d.formatter).m_error <;>
        simp [hne, herr, formatterAfter, valid, Logger.setLevel, Logger.clearAppender,
          Logger.setPattern, Logger.setFormatter]
  rw [configure, hclear, addAppenders_spec]
  simp [LogDefine.known, described]

end SylarLog
