import Sylar.ConfigProofs
import Sylar.LoggerProofs
import Sylar.StepSystemProofs
import Mathlib.Logic.Function.Basic

/-! # Reconfiguration of the loggers (`log.cc`, `log.h`, `config.h`)

The listener of the `logs` variable compares the old set of `LogDefine`s with the new
one and changes the loggers in place: it configures what is new or modified and
switches off what is gone.  Which logger ends up how is decided name by name.

The heart is that a name sees a HISTORY of optional defines, of which the listener
applies only those that differ from the one before (`applied`); and `LogDefine`'s own
equality does not look at the appenders.

* **`setValue_at`**, **`follow_spec`** — one assignment, and a history, seen by one name.
* **`reconfigured_iff`** — exactly when the outcome depends on the last set only and what
  is gone is silent. -/

namespace SylarLog

open StepSystem List

/-! ## The code -/

/-- `LogDefine::operator==`, which compares its own appenders with themselves. -/
def LogDefine.same (i oth : LogDefine) : Bool :=
  i.name = oth.name && i.level = oth.level && i.formatter = oth.formatter
    && i.appenders = i.appenders

/-- `std::set<LogDefine>`, ordered by the names. -/
structure LogDefines where
  defs : List LogDefine
  sorted : defs.Pairwise fun a b => a.name < b.name

/-- `find`, which goes by `operator<`. -/
def LogDefines.find (s : LogDefines) (name : Name) : Option LogDefine :=
  s.defs.find? fun i => i.name = name

/-- `operator==` of the sets: element by element. -/
def sameDefs : List LogDefine → List LogDefine → Bool
  | [], [] => true
  | i :: rest, oth :: rest' => i.same oth && sameDefs rest rest'
  | _, _ => false

/-- The loggers by name; one that `getLogger` was not asked for yet stands as it will be made. -/
abbrev Loggers := Name → Logger

/-- The first loop of the listener. -/
def addOrModify (old_value : LogDefines) : List LogDefine → Loggers → Option Loggers
  | [], loggers => some loggers
  | i :: rest, loggers =>
    if (old_value.find i.name).any i.same then addOrModify old_value rest loggers
    else do
      let logger ← configure (loggers i.name) i
      addOrModify old_value rest (Function.update loggers i.name logger)

/-- The second loop of the listener. -/
def removeGone (new_value : LogDefines) : List LogDefine → Loggers → Loggers
  | [], loggers => loggers
  | i :: rest, loggers =>
    if (new_value.find i.name).isNone then
      removeGone new_value rest (Function.update loggers i.name (switchOff (loggers i.name)))
    else removeGone new_value rest loggers

/-- The listener of `LogIniter`. -/
def listener (old_value new_value : LogDefines) (loggers : Loggers) : Option Loggers := do
  let loggers ← addOrModify old_value new_value.defs loggers
  return removeGone new_value old_value.defs loggers

/-- The variable `logs` and the loggers. -/
structure Store where
  m_val : LogDefines
  loggers : Loggers

/-- `ConfigVar::setValue` with this listener; `none` is a null pointer dereferenced. -/
def setValue (s : Store) (val : LogDefines) : Option Store :=
  let onChange (old_value new_value : LogDefines) : StateT Loggers Option Unit := fun loggers =>
    (listener old_value new_value loggers).map fun loggers => ((), loggers)
  let run : StateT Loggers Option LogDefines :=
    SylarConfig.setValue (fun a b => sameDefs a.defs b.defs) [onChange] s.m_val val
  (run s.loggers).map fun (m_val, loggers) => ⟨m_val, loggers⟩

def rootName : Name := "root".toList

/-- A new logger; its level is not initialised.  The root logger gets an appender. -/
def freshLogger (level : Name → Level) (name : Name) : Logger :=
  let logger : Logger := ⟨level name, [], defaultPattern⟩
  if name = rootName then logger.addAppender (LogAppender.new .stdout) else logger

/-- No configuration yet. -/
def start (level : Name → Level) : Store := ⟨⟨[], .nil⟩, freshLogger level⟩

/-- What an event logged under a name reaches. -/
def Store.log (s : Store) (name : Name) (level : Level) : List LogAppender :=
  (s.loggers name).log (if name = rootName then none else some (s.loggers rootName)) level

/-- Sets that compare equal change nothing; for others the listener runs. -/
theorem setValue_eq (s : Store) (val : LogDefines) :
    setValue s val = if sameDefs val.defs s.m_val.defs then some s
      else (listener s.m_val val s.loggers).map fun loggers => ⟨val, loggers⟩ := by
  rw [setValue, SylarConfig.setValue]
  split
  · rfl
  · cases hlisten : listener s.m_val val s.loggers with
    | none => simp [hlisten, bind, StateT.bind]
    | some loggers =>
      simp [hlisten, bind, StateT.bind]
      rfl

/-! ## One assignment, seen by one name -/

/-- What `LogDefine::operator==` compares. -/
def LogDefine.key (d : LogDefine) : Name × Level × List Char := (d.name, d.level, d.formatter)

private theorem same_iff {d e : LogDefine} : d.same e = true ↔ d.key = e.key := by
  simp [LogDefine.same, LogDefine.key, and_assoc]

variable {prev prev' cur : Option LogDefine} {l : List LogDefine} {old_value val : LogDefines}
  {loggers : Loggers} {t : Store} {curs : List (Option LogDefine)}

theorem any_same_iff {d : LogDefine} :
    prev.any d.same = true ↔ prev.map LogDefine.key = some d.key := by
  cases prev with
  | none => simp
  | some e => rw [Option.any_some, same_iff, Option.map_some, Option.some.injEq, eq_comm]

/-- The define is applied: the one before, if any, is not equal to it. -/
def modified (prev : Option LogDefine) (d : LogDefine) : Bool := !prev.any d.same

/-- What the listener makes of a logger whose define changes from `prev` to `cur`. -/
def stepAt (logger : Logger) (prev cur : Option LogDefine) : Option Logger :=
  match cur with
  | some d => if modified prev d then configure logger d else some logger
  | none => some (if prev.isSome then switchOff logger else logger)

section Find

variable {s : LogDefines} {d : LogDefine} {x : Name}

theorem find_eq_none_of_lt (h : ∀ e ∈ l, x < e.name) : (l.find? fun i => i.name = x) = none := by
  rw [find?_eq_none]
  intro e he
  have hne : e.name ≠ x := fun heq => List.lt_irrefl _ (heq ▸ h e he)
  simpa using hne

theorem LogDefines.find_of_mem (h : d ∈ s.defs) : s.find d.name = some d := by
  obtain ⟨defs, sorted⟩ := s
  induction defs with
  | nil => exact nomatch h
  | cons i defs ih =>
    obtain ⟨hlt, hrest⟩ := pairwise_cons.mp sorted
    rw [LogDefines.find, find?_cons]
    rcases mem_cons.mp h with rfl | hmem
    · simp
    · have hne : i.name ≠ d.name := fun heq => List.lt_irrefl _ (heq ▸ hlt d hmem)
      simpa [hne, LogDefines.find] using ih hrest hmem

theorem LogDefines.mem_of_find (h : s.find x = some d) : d ∈ s.defs ∧ d.name = x :=
  ⟨mem_of_find?_eq_some h, by simpa using find?_some h⟩

end Find

variable {loggers' : Loggers} {new_value : LogDefines} {logger logger' : Logger}

/-- The first loop, seen by one name. -/
theorem addOrModify_at (hsorted : l.Pairwise fun a b => a.name < b.name)
    (h : addOrModify old_value l loggers = some loggers') (x : Name) :
    match l.find? fun i => i.name = x with
    | some d => stepAt (loggers x) (old_value.find x) (some d) = some (loggers' x)
    | none => loggers' x = loggers x := by
  induction l generalizing loggers with
  | nil =>
    cases h
    rfl
  | cons i rest ih =>
    obtain ⟨hlt, hrest⟩ := pairwise_cons.mp hsorted
    rw [addOrModify] at h
    by_cases hx : i.name = x
    · subst hx
      have hfind : (i :: rest).find? (fun j => j.name = i.name) = some i := by simp
      rw [hfind]
      -- no later define has the name
      have hnone := find_eq_none_of_lt hlt
      by_cases hsame : (old_value.find i.name).any i.same = true
      · rw [if_pos hsame] at h
        have hkeep := ih hrest h
        rw [hnone] at hkeep
        simp [stepAt, modified, hsame, hkeep]
      · rw [if_neg hsame] at h
        obtain ⟨logger, hlogger, h⟩ := Option.bind_eq_some_iff.mp h
        have hkeep := ih hrest h
        rw [hnone] at hkeep
        simp only [Function.update_self] at hkeep
        simp [stepAt, modified, hsame, hlogger, hkeep]
    · have hfind : (i :: rest).find? (fun j => j.name = x)
          = rest.find? fun j => j.name = x := by simp [hx]
      rw [hfind]
      by_cases hsame : (old_value.find i.name).any i.same = true
      · rw [if_pos hsame] at h
        exact ih hrest h
      · rw [if_neg hsame] at h
        obtain ⟨logger, -, h⟩ := Option.bind_eq_some_iff.mp h
        have hat := ih hrest h
        rwa [Function.update_of_ne (Ne.symm hx)] at hat

/-- The second loop, seen by one name. -/
theorem removeGone_at (hsorted : l.Pairwise fun a b => a.name < b.name) (loggers : Loggers)
    (x : Name) :
    removeGone new_value l loggers x
      = if (l.find? fun i => i.name = x).isSome && (new_value.find x).isNone then
          switchOff (loggers x)
        else loggers x := by
  induction l generalizing loggers with
  | nil => rfl
  | cons i rest ih =>
    obtain ⟨hlt, hrest⟩ := pairwise_cons.mp hsorted
    rw [removeGone]
    by_cases hx : i.name = x
    · subst hx
      have hnone := find_eq_none_of_lt hlt
      by_cases hgone : (new_value.find i.name).isNone = true
      · rw [if_pos hgone, ih hrest, hnone]
        simp [hgone]
      · rw [if_neg hgone, ih hrest, hnone]
        simp [hgone]
    · have hfind : (i :: rest).find? (fun j => j.name = x)
          = rest.find? fun j => j.name = x := by simp [hx]
      rw [hfind]
      split
      · rw [ih hrest, Function.update_of_ne (Ne.symm hx)]
      · exact ih hrest loggers

/-- The listener, seen by one name. -/
theorem listener_at (h : listener old_value new_value loggers = some loggers') (x : Name) :
    stepAt (loggers x) (old_value.find x) (new_value.find x) = some (loggers' x) := by
  obtain ⟨middle, hadd, hrest⟩ := Option.bind_eq_some_iff.mp h
  cases hrest
  have hmiddle := addOrModify_at new_value.sorted hadd x
  have hfind : new_value.defs.find? (fun i => i.name = x) = new_value.find x := rfl
  rw [hfind] at hmiddle
  rw [removeGone_at old_value.sorted]
  cases hnew : new_value.find x with
  | some d =>
    rw [hnew] at hmiddle
    simpa using hmiddle
  | none =>
    rw [hnew] at hmiddle
    simp [stepAt, hmiddle, LogDefines.find]

/-- Equal sets have equal defines under every name. -/
theorem sameDefs_find {l' : List LogDefine} (h : sameDefs l l' = true) (x : Name) :
    (l.find? fun i => i.name = x).map LogDefine.key
      = (l'.find? fun i => i.name = x).map LogDefine.key := by
  induction l generalizing l' with
  | nil =>
    cases l' with
    | nil => rfl
    | cons oth rest' => exact nomatch h
  | cons i rest ih =>
    cases l' with
    | nil => exact nomatch h
    | cons oth rest' =>
      obtain ⟨hsame, hrest⟩ := Bool.and_eq_true_iff.mp h
      have hkey := same_iff.mp hsame
      have hname : i.name = oth.name := congrArg Prod.fst hkey
      rw [find?_cons, find?_cons, hname]
      by_cases hx : oth.name = x
      · simp [hx, hkey]
      · simpa [hx] using ih hrest

/-- The two are absent, or equal for `LogDefine::operator==`. -/
def Like (a b : Option LogDefine) : Prop := a.map LogDefine.key = b.map LogDefine.key

private theorem modified_congr (h : Like prev prev') (d : LogDefine) :
    modified prev d = modified prev' d := by
  rw [modified, modified, Bool.eq_iff_iff, Bool.not_eq_true', Bool.not_eq_true',
    ← Bool.not_eq_true, ← Bool.not_eq_true, any_same_iff, any_same_iff, h]

theorem stepAt_congr (h : Like prev prev') (logger : Logger) (cur : Option LogDefine) :
    stepAt logger prev cur = stepAt logger prev' cur := by
  cases cur with
  | some d => simp only [stepAt, modified_congr h]
  | none =>
    have hsome : prev.isSome = prev'.isSome := by
      rw [← Option.isSome_map (f := LogDefine.key), h, Option.isSome_map]
    simp only [stepAt, hsome]

/-- A define that is not modified leaves the logger as it is. -/
theorem stepAt_like (h : Like cur prev) (logger : Logger) :
    stepAt logger prev cur = some logger := by
  cases cur with
  | some d =>
    have hsame : prev.any d.same = true := any_same_iff.mpr h.symm
    simp [stepAt, modified, hsame]
  | none =>
    have hnone : prev = none := Option.map_eq_none_iff.mp h.symm
    simp [stepAt, hnone]

/-- **ONE ASSIGNMENT**, seen by one name. -/
theorem setValue_at {s : Store} (h : setValue s val = some t) (x : Name) :
    stepAt (s.loggers x) (s.m_val.find x) (val.find x) = some (t.loggers x)
      ∧ Like (t.m_val.find x) (val.find x) := by
  rw [setValue_eq] at h
  split at h
  · next hsame =>
      obtain rfl := Option.some.inj h
      have hlike : Like (val.find x) (s.m_val.find x) := sameDefs_find hsame x
      exact ⟨stepAt_like hlike _, hlike.symm⟩
  · obtain ⟨loggers, hlisten, rfl⟩ := Option.map_eq_some_iff.mp h
    exact ⟨listener_at hlisten x, rfl⟩

/-- The first loop goes through if the appenders of what it applies can be made. -/
theorem addOrModify_isSome : (addOrModify old_value l loggers).isSome
      ↔ ∀ d ∈ l, modified (old_value.find d.name) d = true → d.known = true := by
  induction l generalizing loggers with
  | nil => simp [addOrModify]
  | cons i rest ih =>
    rw [addOrModify, forall_mem_cons]
    by_cases hsame : (old_value.find i.name).any i.same = true
    · rw [if_pos hsame, ih]
      simp [modified, hsame]
    · rw [if_neg hsame, configure_spec]
      by_cases hknown : i.known = true
      · simp [hknown, ih]
      · simp [hknown, modified, hsame]

theorem setValue_isSome {s : Store} : (setValue s val).isSome
      ↔ ∀ x, ∀ d, val.find x = some d → modified (s.m_val.find x) d = true → d.known = true := by
  rw [setValue_eq]
  split
  · next hsame =>
      refine iff_of_true rfl fun x d hd hmod => ?_
      have hlike := sameDefs_find hsame x
      rw [LogDefines.find] at hd
      rw [hd] at hlike
      rw [modified, LogDefines.find, any_same_iff.mpr hlike.symm] at hmod
      exact nomatch hmod
  · rw [Option.isSome_map, listener]
    have hbind : ∀ o : Option Loggers,
        (o >>= fun l => some (removeGone val s.m_val.defs l)).isSome = o.isSome := by
      intro o
      cases o <;> rfl
    refine (Iff.of_eq (congrArg (· = true) (hbind _))).trans (addOrModify_isSome.trans ?_)
    constructor
    · intro h x d hd
      obtain ⟨hmem, rfl⟩ := LogDefines.mem_of_find hd
      exact h d hmem
    · intro h d hmem
      exact h d.name d (LogDefines.find_of_mem hmem)

/-! ## A history, seen by one name -/

/-- The defines that the listener applies, when the define goes through `curs` from
`prev`. -/
def applied : Option LogDefine → List (Option LogDefine) → List LogDefine
  | _, [] => []
  | _, none :: curs => applied none curs
  | prev, some d :: curs =>
    if modified prev d then d :: applied (some d) curs else applied (some d) curs

theorem mem_applied_cons {d : LogDefine} : d ∈ applied prev (cur :: curs)
      ↔ (cur = some d ∧ modified prev d = true) ∨ d ∈ applied cur curs := by
  cases cur with
  | none => simp [applied]
  | some e =>
    rw [applied]
    by_cases hmod : modified prev e = true
    · rw [if_pos hmod, mem_cons, Option.some.injEq]
      refine or_congr_left ⟨?_, fun h => h.1.symm⟩
      rintro rfl
      exact ⟨rfl, hmod⟩
    · rw [if_neg hmod]
      refine ⟨Or.inr, ?_⟩
      rintro (⟨heq, hmod'⟩ | h)
      · cases heq
        exact absurd hmod' hmod
      · exact h

def follow (logger : Logger) (prev : Option LogDefine) : List (Option LogDefine) → Option Logger
  | [] => some logger
  | cur :: curs => (stepAt logger prev cur).bind fun logger => follow logger cur curs

theorem applied_congr (h : Like prev prev') (curs : List (Option LogDefine)) :
    applied prev curs = applied prev' curs := by
  cases curs with
  | nil => rfl
  | cons cur curs =>
    cases cur with
    | none => rfl
    | some d => simp only [applied, modified_congr h]

theorem follow_congr (h : Like prev prev') (logger : Logger) (curs : List (Option LogDefine)) :
    follow logger prev curs = follow logger prev' curs := by
  cases curs with
  | nil => rfl
  | cons cur curs => simp only [follow, stepAt_congr h]

/-- The logger of a name after a history depends on the defines of the name only. -/
theorem exec_at {history : List LogDefines} {s : Store} (h : exec setValue s history = some t)
    (x : Name) :
    follow (s.loggers x) (s.m_val.find x) (history.map fun val => val.find x)
      = some (t.loggers x) := by
  induction history generalizing s with
  | nil =>
    cases h
    rfl
  | cons val history ih =>
    obtain ⟨u, hu, hrest⟩ := Option.bind_eq_some_iff.mp h
    obtain ⟨hstep, hlike⟩ := setValue_at hu x
    rw [map_cons, follow, hstep, Option.bind_some, ← ih hrest]
    exact (follow_congr hlike _ _).symm

/-- A history goes through if the appenders of all that is applied can be made. -/
theorem exec_isSome {history : List LogDefines} {s : Store} : (exec setValue s history).isSome
      ↔ ∀ x, ∀ d ∈ applied (s.m_val.find x) (history.map fun val => val.find x),
          d.known = true := by
  induction history generalizing s with
  | nil => simp [exec, applied]
  | cons val history ih =>
    simp only [map_cons, mem_applied_cons]
    -- the first assignment, and the others from the state after it
    have hrest : ∀ {u : Store}, setValue s val = some u →
        ((exec setValue s (val :: history)).isSome ↔ ∀ x,
          ∀ d ∈ applied (val.find x) (history.map fun val => val.find x), d.known = true) := by
      intro u hu
      rw [exec, hu, Option.bind_some, ih]
      refine forall_congr' fun x => ?_
      rw [applied_congr (setValue_at hu x).2]
    constructor
    · intro h x d hd
      cases hu : setValue s val with
      | none =>
        rw [exec, hu] at h
        cases h
      | some u =>
        rcases hd with ⟨hfind, hmod⟩ | hd
        · exact setValue_isSome.mp (by rw [hu]; rfl) x d hfind hmod
        · exact (hrest hu).mp h x d hd
    · intro h
      have hfirst : (setValue s val).isSome :=
        setValue_isSome.mpr fun x d hd hmod => h x d (Or.inl ⟨hd, hmod⟩)
      obtain ⟨u, hu⟩ := Option.isSome_iff_exists.mp hfirst
      exact (hrest hu).mpr fun x d hd => h x d (Or.inr hd)

/-- How a logger with the current define `prev` looks, of which `last` was applied last. -/
def Shows (logger : Logger) (prev last : Option LogDefine) : Prop :=
  match prev with
  | some d => ∃ d', last = some d' ∧ d'.key = d.key ∧ logger = described logger.m_formatter d'
  | none => last.isSome → logger.m_appenders = []

/-- One change of the define. -/
theorem shows_step {last : Option LogDefine} (hs : Shows logger prev last)
    (h : stepAt logger prev cur = some logger') :
    Shows logger' cur ((applied prev [cur]).getLast?.or last)
      ∧ logger'.m_formatter = (applied prev [cur]).foldl formatterAfter logger.m_formatter := by
  cases cur with
  | none =>
    cases h
    cases prev with
    | none => exact ⟨hs, rfl⟩
    | some d => exact ⟨fun _ => rfl, rfl⟩
  | some d =>
    rw [stepAt] at h
    by_cases hmod : modified prev d = true
    · rw [if_pos hmod, configure_spec] at h
      split at h
      · cases h
        simp only [applied, if_pos hmod]
        exact ⟨⟨d, rfl, rfl, rfl⟩, rfl⟩
      · exact nomatch h
    · rw [if_neg hmod] at h
      cases h
      simp only [applied, if_neg hmod]
      refine ⟨?_, rfl⟩
      -- the define before is equal, and shows the same logger
      rw [modified, Bool.not_eq_true', Bool.not_eq_false, any_same_iff] at hmod
      obtain ⟨e, rfl, hkey⟩ := Option.map_eq_some_iff.mp hmod
      obtain ⟨d', hlast, hkey', hlogger⟩ := hs
      exact ⟨d', hlast, hkey'.trans hkey, hlogger⟩

theorem applied_cons (prev cur : Option LogDefine) (curs : List (Option LogDefine)) :
    applied prev (cur :: curs) = applied prev [cur] ++ applied cur curs := by
  cases cur with
  | none => rfl
  | some d => by_cases hmod : modified prev d = true <;> simp [applied, hmod]

/-- **A HISTORY**, seen by one name: the define applied last shows, with the last valid formatter of
all. -/
theorem follow_spec {last : Option LogDefine} (hs : Shows logger prev last)
    (h : follow logger prev curs = some logger') :
    Shows logger' (curs.getLast?.getD prev) ((applied prev curs).getLast?.or last)
      ∧ logger'.m_formatter = (applied prev curs).foldl formatterAfter logger.m_formatter := by
  induction curs generalizing logger prev last with
  | nil =>
    cases h
    exact ⟨hs, rfl⟩
  | cons cur curs ih =>
    obtain ⟨middle, hmiddle, hrest⟩ := Option.bind_eq_some_iff.mp h
    obtain ⟨hs', hf⟩ := shows_step hs hmiddle
    obtain ⟨hshows, hformatter⟩ := ih hs' hrest
    rw [applied_cons, getLast?_append, Option.or_assoc, foldl_append, ← hf]
    refine ⟨?_, hformatter⟩
    rw [getLast?_cons]
    exact hshows

/-- While nothing is applied to a logger without a define, it stays as it is. -/
theorem follow_of_applied_nil (h : applied none curs = []) (logger : Logger) :
    follow logger none curs = some logger := by
  induction curs with
  | nil => rfl
  | cons cur curs ih =>
    cases cur with
    | none => exact ih h
    | some d => exact nomatch h

theorem applied_ne_nil {d : LogDefine} (h : some d ∈ curs) : applied none curs ≠ [] := by
  induction curs with
  | nil => exact nomatch h
  | cons cur curs ih =>
    cases cur with
    | none =>
      obtain h | h := mem_cons.mp h
      · exact nomatch h
      · exact ih h
    | some e => exact cons_ne_nil _ _

/-! ## Independence of the history -/

/-- Type, file, level and effective formatter of an appender. -/
def LogAppender.view (ap : LogAppender) : Target × Level × Option (List Char) :=
  (ap.target, ap.m_level, ap.m_formatter)

/-- What one sees of a logger. -/
def Logger.view (logger : Logger) :
    Level × List Char × List (Target × Level × Option (List Char)) :=
  (logger.m_level, logger.m_formatter, logger.m_appenders.map LogAppender.view)

/-- The assignments go through, the loggers of the last set are as if it alone had been assigned,
and those of earlier sets only reach no appender. -/
def Reconfigured (level : Name → Level) (history : List LogDefines) (last : LogDefines) :
    Prop :=
  ∃ s t, exec setValue (start level) (history ++ [last]) = some s
    ∧ exec setValue (start level) [last] = some t
    ∧ (∀ d ∈ last.defs, (s.loggers d.name).view = (t.loggers d.name).view)
    ∧ ∀ val ∈ history, ∀ d ∈ val.defs, last.find d.name = none →
        ∀ lv, s.log d.name lv = []

/-- The defines that the listener applies under a name in the course of a history. -/
def appliedTo (history : List LogDefines) (x : Name) : List LogDefine :=
  applied none (history.map fun val => val.find x)

/-- The root logger ends without appenders: it was removed, or what was applied last to it
has none. -/
def RootMute (history : List LogDefines) (last : LogDefines) : Prop :=
  ∃ d, (appliedTo (history ++ [last]) rootName).getLast? = some d
    ∧ (last.find rootName = none ∨ d.appenders = [])

/-- What the sets have to be like. -/
structure Reproducible (history : List LogDefines) (last : LogDefines) : Prop where
  /-- the appenders of all that is applied, and of the last set, can be made -/
  known : ∀ x, ∀ d ∈ appliedTo (history ++ [last]) x, d.known = true
  known_last : ∀ d ∈ last.defs, d.known = true
  /-- the last valid formatter under a name is the one of the last set, or the default -/
  formatter : ∀ d ∈ last.defs,
    (appliedTo (history ++ [last]) d.name).foldl formatterAfter defaultPattern
      = formatterAfter defaultPattern d
  /-- what was applied last under a name describes the appenders of the last set -/
  appenders : ∀ d ∈ last.defs, ∀ d',
    (appliedTo (history ++ [last]) d.name).getLast? = some d' →
      d'.appenders.map (fun a => (made (formatterAfter defaultPattern d) a).view)
        = d.appenders.map fun a => (made (formatterAfter defaultPattern d) a).view
  /-- no logger but the root was removed, or the root logger has no appenders -/
  silent : (∀ val ∈ history, ∀ d ∈ val.defs, last.find d.name = none → d.name = rootName)
    ∨ RootMute history last

section Independence

variable {level : Name → Level} {history : List LogDefines} {last : LogDefines} {s : Store}

/-- The outcome of a history under one name. -/
theorem outcome (h : exec setValue (start level) (history ++ [last]) = some s) (x : Name) :
    Shows (s.loggers x) (last.find x) (appliedTo (history ++ [last]) x).getLast?
      ∧ (s.loggers x).m_formatter
        = (appliedTo (history ++ [last]) x).foldl formatterAfter defaultPattern := by
  have hfresh : Shows (freshLogger level x) none none := fun hnone => nomatch hnone
  obtain ⟨hshows, hformatter⟩ := follow_spec hfresh (exec_at h x)
  have hdefault : (freshLogger level x).m_formatter = defaultPattern := by
    rw [freshLogger]
    split <;> rfl
  have hcur : ((history ++ [last]).map fun val => val.find x).getLast?.getD none
      = last.find x := by simp
  rw [hcur, Option.or_none] at hshows
  rw [hdefault] at hformatter
  exact ⟨hshows, hformatter⟩

/-- The outcome of the last set alone. -/
theorem outcome_alone (h : exec setValue (start level) [last] = some s) {d : LogDefine}
    (hd : d ∈ last.defs) :
    s.loggers d.name = described (formatterAfter defaultPattern d) d := by
  have hfind := LogDefines.find_of_mem hd
  have happlied : appliedTo ([] ++ [last]) d.name = [d] := by
    rw [appliedTo, nil_append, map_singleton, hfind]
    rfl
  have hempty : exec setValue (start level) ([] ++ [last]) = some s := h
  obtain ⟨hshows, hformatter⟩ := outcome hempty d.name
  rw [happlied] at hshows hformatter
  rw [hfind] at hshows
  obtain ⟨d', hd', -, hlogger⟩ := hshows
  cases hd'
  rw [hformatter] at hlogger
  exact hlogger

/-- A define of the last set, and the one applied last under its name. -/
theorem outcome_last (h : exec setValue (start level) (history ++ [last]) = some s)
    {d : LogDefine} (hd : d ∈ last.defs) :
    ∃ d', (appliedTo (history ++ [last]) d.name).getLast? = some d' ∧ d'.key = d.key
      ∧ s.loggers d.name = described
        ((appliedTo (history ++ [last]) d.name).foldl formatterAfter defaultPattern) d' := by
  obtain ⟨hshows, hformatter⟩ := outcome h d.name
  rw [LogDefines.find_of_mem hd] at hshows
  obtain ⟨d', hlast, hkey, hlogger⟩ := hshows
  rw [hformatter] at hlogger
  exact ⟨d', hlast, hkey, hlogger⟩

private theorem view_described (f : List Char) (d : LogDefine) :
    (described f d).view = (d.level, f, d.appenders.map fun a => (made f a).view) := by
  simp [described, Logger.view]

/-- What is gone has no appenders. -/
theorem gone_silent (h : exec setValue (start level) (history ++ [last]) = some s)
    {d : LogDefine} (hval : val ∈ history) (hd : d ∈ val.defs) (hgone : last.find d.name = none) :
    (s.loggers d.name).m_appenders = [] := by
  obtain ⟨hshows, -⟩ := outcome h d.name
  rw [hgone] at hshows
  apply hshows
  rw [getLast?_isSome]
  refine applied_ne_nil (d := d) (mem_map.mpr ⟨val, ?_, LogDefines.find_of_mem hd⟩)
  exact mem_append_left _ hval

/-- Without appenders a logger passes its events on to the root logger. -/
theorem log_of_nil {x : Name} (h : (s.loggers x).m_appenders = []) :
    (∀ lv, s.log x lv = []) ↔ x = rootName ∨ (s.loggers rootName).m_appenders = [] := by
  by_cases hx : x = rootName
  · refine iff_of_true (fun lv => ?_) (Or.inl hx)
    rw [Store.log, if_pos hx, Logger.log, if_neg (not_not.mpr h)]
    split <;> rfl
  · have hlog : ∀ lv, s.log x lv = if (s.loggers x).m_level.rank ≤ lv.rank then
            if (s.loggers rootName).m_level.rank ≤ lv.rank then
              (s.loggers rootName).m_appenders.filter fun ap => ap.m_level.rank ≤ lv.rank
            else []
          else [] := by
      intro lv
      rw [Store.log, if_neg hx, Logger.log, if_neg (not_not.mpr h)]
    constructor
    · intro hall
      -- an event of the highest level passes every test
      have hfatal := hall .FATAL
      rw [hlog, if_pos (rank_le_fatal _), if_pos (rank_le_fatal _)] at hfatal
      refine Or.inr ?_
      rwa [filter_eq_self.mpr fun ap _ => decide_eq_true (rank_le_fatal ap.m_level)] at hfatal
    · rintro (hroot | hroot) lv
      · exact absurd hroot hx
      · rw [hlog, hroot]
        split <;> [split <;> rfl; rfl]

theorem root_mute_iff (h : exec setValue (start level) (history ++ [last]) = some s) :
    (s.loggers rootName).m_appenders = [] ↔ RootMute history last := by
  obtain ⟨hshows, -⟩ := outcome h rootName
  rw [RootMute]
  cases hlast : (appliedTo (history ++ [last]) rootName).getLast? with
  | none =>
    -- never configured: it still has its first appender
    have hnone : applied none ((history ++ [last]).map fun val => val.find rootName) = [] :=
      getLast?_eq_none_iff.mp hlast
    have hfollow := (follow_of_applied_nil hnone (freshLogger level rootName)).symm.trans
      (exec_at h rootName)
    rw [← Option.some.inj hfollow]
    refine iff_of_false ?_ ?_
    · simp [freshLogger, Logger.addAppender]
    · rintro ⟨d, hd, -⟩
      cases hd
  | some d' =>
    rw [hlast] at hshows
    cases hcur : last.find rootName with
    | none =>
      rw [hcur] at hshows
      exact iff_of_true (hshows rfl) ⟨d', rfl, Or.inl rfl⟩
    | some d =>
      rw [hcur] at hshows
      obtain ⟨d'', hd'', -, hlogger⟩ := hshows
      cases hd''
      rw [hlogger, described]
      simp

/-- The logger of a define of the last set, against the last set alone. -/
theorem view_iff (hs : exec setValue (start level) (history ++ [last]) = some s)
    (ht : exec setValue (start level) [last] = some t) {d : LogDefine} (hd : d ∈ last.defs) :
    (s.loggers d.name).view = (t.loggers d.name).view
      ↔ (appliedTo (history ++ [last]) d.name).foldl formatterAfter defaultPattern
          = formatterAfter defaultPattern d
        ∧ ∀ d', (appliedTo (history ++ [last]) d.name).getLast? = some d' →
          d'.appenders.map (fun a => (made (formatterAfter defaultPattern d) a).view)
            = d.appenders.map fun a => (made (formatterAfter defaultPattern d) a).view := by
  obtain ⟨d', hd', hkey, hlogger⟩ := outcome_last hs hd
  have hlevel : d'.level = d.level := congrArg (fun k => k.2.1) hkey
  rw [hlogger, outcome_alone ht hd, view_described, view_described, hd', Prod.mk.injEq,
    Prod.mk.injEq]
  constructor
  · rintro ⟨-, hf, happ⟩
    rw [hf] at happ
    refine ⟨hf, fun e he => ?_⟩
    cases he
    exact happ
  · rintro ⟨hf, happ⟩
    rw [hf]
    exact ⟨hlevel, rfl, happ d' rfl⟩

/-- What is gone is silent unless its events reach the root logger's appenders. -/
theorem silent_iff (hs : exec setValue (start level) (history ++ [last]) = some s) :
    (∀ val ∈ history, ∀ d ∈ val.defs, last.find d.name = none → ∀ lv, s.log d.name lv = [])
      ↔ (∀ val ∈ history, ∀ d ∈ val.defs, last.find d.name = none → d.name = rootName)
        ∨ RootMute history last := by
  rw [← root_mute_iff hs]
  constructor
  · intro h
    by_cases hroot : (s.loggers rootName).m_appenders = []
    · exact Or.inr hroot
    · refine Or.inl fun val hval d hd hgone => ?_
      have hlog := (log_of_nil (gone_silent hs hval hd hgone)).mp (h val hval d hd hgone)
      exact hlog.resolve_right hroot
  · intro h val hval d hd hgone
    refine (log_of_nil (gone_silent hs hval hd hgone)).mpr ?_
    exact h.imp_left fun hnames => hnames val hval d hd hgone

/-- The last set alone goes through if its appenders can be made. -/
theorem alone_isSome :
    (exec setValue (start level) [last]).isSome ↔ ∀ d ∈ last.defs, d.known = true := by
  have happlied : ∀ (x : Name) (d : LogDefine),
      d ∈ applied none [last.find x] ↔ last.find x = some d := by
    intro x d
    rw [mem_applied_cons]
    simp [applied, modified]
  refine exec_isSome.trans ⟨fun h d hd => ?_, fun h x d hd => ?_⟩
  · exact h d.name d ((happlied d.name d).mpr (LogDefines.find_of_mem hd))
  · exact h d (LogDefines.mem_of_find ((happlied x d).mp hd)).1

end Independence

/-- **RECONFIGURATION** depends on the last set only, and silences what is gone, for
exactly these histories. -/
theorem reconfigured_iff (level : Name → Level) (history : List LogDefines) (last : LogDefines) :
    Reconfigured level history last ↔ Reproducible history last := by
  constructor
  · rintro ⟨s, t, hs, ht, hview, hsilent⟩
    have hviews := fun d hd => (view_iff hs ht hd).mp (hview d hd)
    constructor
    · exact (exec_isSome (s := start level)).mp (by rw [hs]; rfl)
    · exact alone_isSome.mp (by rw [ht]; rfl)
    · exact fun d hd => (hviews d hd).1
    · exact fun d hd => (hviews d hd).2
    · exact (silent_iff hs).mp hsilent
  · intro h
    have hsome : (exec setValue (start level) (history ++ [last])).isSome := exec_isSome.mpr h.known
    have hsome_last : (exec setValue (start level) [last]).isSome := alone_isSome.mpr h.known_last
    obtain ⟨s, hs⟩ := Option.isSome_iff_exists.mp hsome
    obtain ⟨t, ht⟩ := Option.isSome_iff_exists.mp hsome_last
    refine ⟨s, t, hs, ht, fun d hd => ?_, (silent_iff hs).mpr h.silent⟩
    exact (view_iff hs ht hd).mpr ⟨h.formatter d hd, h.appenders d hd⟩

/-- A set of one define, for a logger `a` of level `INFO`. -/
def single (formatter : String) (appenders : List LogAppenderDefine) : LogDefines :=
  ⟨[⟨"a".toList, .INFO, formatter.toList, appenders⟩], List.pairwise_singleton _ _⟩

/-- Other appenders of the same logger are not noticed; a formatter left out is not reset; a logger
that is gone writes to the root logger's appender. -/
theorem history_shows : ¬ Reconfigured (fun _ => .DEBUG) [single "" [⟨2, .DEBUG, [], []⟩]]
        (single "" [⟨1, .DEBUG, [], "a.txt".toList⟩])
      ∧ ¬ Reconfigured (fun _ => .DEBUG) [single "%m" []] (single "" [])
      ∧ ¬ Reconfigured (fun _ => .DEBUG) [single "" []] ⟨[], .nil⟩ := by
  refine ⟨?_, ?_, ?_⟩
  · rintro ⟨s, t, hs, ht, hview, -⟩
    cases hs
    cases ht
    exact absurd (hview _ mem_cons_self) (by decide)
  · rintro ⟨s, t, hs, ht, hview, -⟩
    cases hs
    cases ht
    exact absurd (hview _ mem_cons_self) (by decide)
  · rintro ⟨s, t, hs, ht, -, hsilent⟩
    cases hs
    exact absurd (hsilent _ mem_cons_self _ mem_cons_self rfl .INFO) (by decide)

end SylarLog
