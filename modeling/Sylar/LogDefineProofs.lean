import Mathlib.Data.List.Basic

/-! # The configuration of the loggers and its text (`log.cc`)

`LogDefine` and `LogAppenderDefine`, and the two specialisations of `LexicalCast` that
turn a `LogDefine` into a YAML text and back.  The writer leaves out what has its
default value, and the reader takes the default for what is missing; but the reader
never looks at the level of an appender.

* **`readAppender_spec`**, **`fromYaml_toYaml`** — what is read back.
* **`cast_iff`** — the two casts are inverse to each other on a `LogDefine` exactly if
  no appender has a level of its own. -/

namespace SylarLog

open List

/-! ## The code -/

/-- `LogLevel::Level`. -/
inductive Level where
  | UNKNOW
  | DEBUG
  | INFO
  | WARN
  | ERROR
  | FATAL
  deriving DecidableEq, Repr

/-- `LogLevel::ToString`. -/
def Level.ToString : Level → List Char
  | .DEBUG => "DEBUG".toList
  | .INFO => "INFO".toList
  | .WARN => "WARN".toList
  | .ERROR => "ERROR".toList
  | .FATAL => "FATAL".toList
  | .UNKNOW => "UNKNOW".toList

/-- The comparisons of `LogLevel::FromString`, in order. -/
def levelNames : List (List Char × Level) :=
  [("debug".toList, .DEBUG), ("info".toList, .INFO), ("warn".toList, .WARN),
    ("error".toList, .ERROR), ("fatal".toList, .FATAL), ("DEBUG".toList, .DEBUG),
    ("INFO".toList, .INFO), ("WARN".toList, .WARN), ("ERROR".toList, .ERROR),
    ("FATAL".toList, .FATAL)]

/-- `LogLevel::FromString`. -/
def Level.FromString (str : List Char) : Level := (levelNames.lookup str).getD .UNKNOW

/-- `LogAppenderDefine`; the types are 1 (file) and 2 (stdout), and 0 by default. -/
structure LogAppenderDefine where
  type : Int
  level : Level
  formatter : List Char
  file : List Char
  deriving DecidableEq, Repr

/-- `LogDefine`: one entry of the variable `logs`. -/
structure LogDefine where
  name : List Char
  level : Level
  formatter : List Char
  appenders : List LogAppenderDefine
  deriving DecidableEq, Repr

/-- `YAML::Node`. -/
inductive Yaml where
  | null
  | scalar (text : List Char)
  | sequence (items : List Yaml)
  | map (entries : List (List Char × Yaml))

/-- What the cast throws. -/
inductive CastError where
  /-- `std::logic_error("log config name is null")` -/
  | nameIsNull
  /-- a scalar with a subscript, or something else than a scalar as a string -/
  | yaml
  deriving DecidableEq, Repr

/-- `n[key]`; `none` is not defined. -/
def Yaml.get (key : List Char) : Yaml → Except CastError (Option Yaml)
  | .map entries => .ok (entries.lookup key)
  | .scalar _ => .error .yaml
  | .null | .sequence _ => .ok none

/-- `n.as<std::string>()`. -/
def Yaml.asString : Yaml → Except CastError (List Char)
  | .scalar text => .ok text
  | _ => .error .yaml

/-- `n[key].as<std::string>()` if `n[key].IsDefined()`. -/
def Yaml.text (n : Yaml) (key : List Char) : Except CastError (Option (List Char)) := do
  match ← n.get key with
  | none => pure none
  | some v => return some (← v.asString)

/-- The nodes `n[0]`, …, `n[n.size() - 1]`. -/
def Yaml.elements : Yaml → List Yaml
  | .sequence items => items
  | .map entries => (List.range entries.length).map fun x =>
    (entries.lookup (Nat.toDigits 10 x)).getD .null
  | .null | .scalar _ => []

/-- The body of the loop over `n["appenders"]`; `none` is `continue`. -/
def readAppender (a : Yaml) : Except CastError (Option LogAppenderDefine) := do
  match ← a.text "type".toList with
  | none => return none
  | some type =>
    if type = "FileLogAppender".toList then
      match ← a.text "file".toList with
      | none => return none
      | some file =>
          let formatter ← a.text "formatter".toList
          return some ⟨1, .UNKNOW, formatter.getD [], file⟩
    else if type = "StdoutLogAppender".toList then
      let formatter ← a.text "formatter".toList
      return some ⟨2, .UNKNOW, formatter.getD [], []⟩
    else return none

/-- The loop over `n["appenders"]`. -/
def readAppenders : List Yaml → Except CastError (List LogAppenderDefine)
  | [] => .ok []
  | a :: rest => do
    let lad ← readAppender a
    let lads ← readAppenders rest
    return lad.toList ++ lads

/-- `LexicalCast<std::string, LogDefine>`, after `YAML::Load`. -/
def fromYaml (n : Yaml) : Except CastError LogDefine := do
  match ← n.text "name".toList with
  | none => .error .nameIsNull
  | some name =>
    let level ← n.text "level".toList
    let formatter ← n.text "formatter".toList
    let appenders ← n.get "appenders".toList
    let lads ← readAppenders (appenders.elim [] Yaml.elements)
    return ⟨name, .FromString (level.getD []), formatter.getD [], lads⟩

/-- The two optional entries that a logger and an appender have in common. -/
def common (level : Level) (formatter : List Char) : List (List Char × Yaml) :=
  (if level ≠ .UNKNOW then [("level".toList, .scalar level.ToString)] else [])
    ++ if formatter ≠ [] then [("formatter".toList, .scalar formatter)] else []

/-- What the type of an appender writes. -/
def kind (a : LogAppenderDefine) : List (List Char × Yaml) :=
  if a.type = 1 then
    [("type".toList, .scalar "FileLogAppender".toList), ("file".toList, .scalar a.file)]
  else if a.type = 2 then [("type".toList, .scalar "StdoutLogAppender".toList)]
  else []

/-- The node `na` of an appender. -/
def writeAppender (a : LogAppenderDefine) : Yaml :=
  match kind a ++ common a.level a.formatter with
  | [] => .null
  | entries => .map entries

/-- What the loop over the appenders leaves in `n["appenders"]`. -/
def appendersEntry (appenders : List LogAppenderDefine) : List (List Char × Yaml) :=
  if appenders ≠ [] then [("appenders".toList, .sequence (appenders.map writeAppender))] else []

/-- `LexicalCast<LogDefine, std::string>`, before the node is written out. -/
def toYaml (i : LogDefine) : Yaml :=
  .map ([("name".toList, .scalar i.name)]
    ++ (common i.level i.formatter ++ appendersEntry i.appenders))

section Cast

variable (load : List Char → Except CastError Yaml) (emit : Yaml → List Char)

/-- `LexicalCast<std::string, LogDefine>`, over yaml-cpp's `Load`. -/
def castFromString (v : List Char) : Except CastError LogDefine := load v >>= fromYaml

/-- `LexicalCast<LogDefine, std::string>`, over yaml-cpp's `operator<<`. -/
def castToString (i : LogDefine) : List Char := emit (toYaml i)

end Cast

/-! ## What is read back -/

/-- Every level is read back from its name. -/
theorem fromString_toString (level : Level) : Level.FromString level.ToString = level := by
  cases level <;> rfl

/-- What is left out reads as the default. -/
theorem lookup_common_level (level : Level) (formatter : List Char) :
    (common level formatter).lookup "level".toList
      = if level = .UNKNOW then none else some (.scalar level.ToString) := by
  by_cases hl : level = .UNKNOW <;> by_cases hf : formatter = [] <;> simp [common, hl, hf]

/-- A formatter is written unless it is empty. -/
theorem lookup_common_formatter (level : Level) (formatter : List Char) :
    (common level formatter).lookup "formatter".toList
      = if formatter = [] then none else some (.scalar formatter) := by
  by_cases hl : level = .UNKNOW <;> by_cases hf : formatter = [] <;>
    simp [common, hl, hf, lookup_cons]

/-- The common part has no other keys. -/
theorem lookup_common_other (level : Level) (formatter key : List Char)
    (hlevel : key ≠ "level".toList) (hformatter : key ≠ "formatter".toList) :
    (common level formatter).lookup key = none := by
  rw [lookup_eq_none_iff]
  intro entry hentry
  rw [common, mem_append] at hentry
  rcases hentry with hentry | hentry
  · split at hentry
    · rw [mem_singleton.mp hentry]
      exact bne_iff_ne.mpr hlevel
    · exact nomatch hentry
  · split at hentry
    · rw [mem_singleton.mp hentry]
      exact bne_iff_ne.mpr hformatter
    · exact nomatch hentry

variable {entries : List (List Char × Yaml)} {key : List Char} {a : Yaml}
  {formatter : Option (List Char)}

/-- A key with a scalar. -/
theorem text_map_some {text : List Char} (h : entries.lookup key = some (.scalar text)) :
    (Yaml.map entries).text key = .ok (some text) := by
  simp only [Yaml.text, Yaml.get, h]
  rfl

/-- A key that is not there. -/
theorem text_map_none (h : entries.lookup key = none) : (Yaml.map entries).text key = .ok none := by
  simp only [Yaml.text, Yaml.get, h]
  rfl

/-- The formatter of a node that has the optional entries after others. -/
theorem text_formatter (before : List (List Char × Yaml)) (level : Level)
    (formatter : List Char) (rest : List (List Char × Yaml))
    (h : before.lookup "formatter".toList = none) (hrest : rest.lookup "formatter".toList = none) :
    ∃ text, (Yaml.map (before ++ (common level formatter ++ rest))).text "formatter".toList
        = .ok text ∧ text.getD [] = formatter := by
  by_cases hf : formatter = []
  · refine ⟨none, text_map_none ?_, hf.symm⟩
    rw [lookup_append, lookup_append, h, lookup_common_formatter, if_pos hf, hrest]
    rfl
  · refine ⟨some formatter, text_map_some ?_, rfl⟩
    rw [lookup_append, lookup_append, h, lookup_common_formatter, if_neg hf]
    rfl

/-- The level that is written, or none for `UNKNOW`, is read back. -/
theorem text_level (before : List (List Char × Yaml)) (level : Level)
    (formatter : List Char) (rest : List (List Char × Yaml))
    (h : before.lookup "level".toList = none) (hrest : rest.lookup "level".toList = none) :
    ∃ text, (Yaml.map (before ++ (common level formatter ++ rest))).text "level".toList
        = .ok text ∧ Level.FromString (text.getD []) = level := by
  by_cases hl : level = .UNKNOW
  · refine ⟨none, text_map_none ?_, hl ▸ rfl⟩
    rw [lookup_append, lookup_append, h, lookup_common_level, if_pos hl, hrest]
    rfl
  · refine ⟨some level.ToString, text_map_some ?_, fromString_toString level⟩
    rw [lookup_append, lookup_append, h, lookup_common_level, if_neg hl]
    rfl

/-- A file appender is read without its level. -/
theorem readAppender_file {file : List Char}
    (htype : a.text "type".toList = .ok (some "FileLogAppender".toList))
    (hfile : a.text "file".toList = .ok (some file))
    (hformatter : a.text "formatter".toList = .ok formatter) :
    readAppender a = .ok (some ⟨1, .UNKNOW, formatter.getD [], file⟩) := by
  simp only [readAppender, htype, hfile, hformatter]
  rfl

/-- So is one for the standard output. -/
theorem readAppender_stdout (htype : a.text "type".toList = .ok (some "StdoutLogAppender".toList))
    (hformatter : a.text "formatter".toList = .ok formatter) :
    readAppender a = .ok (some ⟨2, .UNKNOW, formatter.getD [], []⟩) := by
  simp only [readAppender, htype, hformatter]
  rfl

/-- An entry without a type is skipped. -/
theorem readAppender_untyped (htype : a.text "type".toList = .ok none) :
    readAppender a = .ok none := by
  simp only [readAppender, htype]
  rfl

/-- What comes back of an appender. -/
def restored (a : LogAppenderDefine) : Option LogAppenderDefine :=
  if a.type = 1 then some { a with level := .UNKNOW }
  else if a.type = 2 then some { a with level := .UNKNOW, file := [] }
  else none

theorem writeAppender_cons {a : LogAppenderDefine} {entry : List Char × Yaml}
    (hkind : kind a = entry :: entries) :
    writeAppender a = .map (entry :: entries ++ (common a.level a.formatter ++ [])) := by
  rw [writeAppender, hkind, append_nil]
  rfl

/-- **ONE APPENDER**: its level does not come back, and without a known type nothing does. -/
theorem readAppender_spec (a : LogAppenderDefine) :
    readAppender (writeAppender a) = .ok (restored a) := by
  obtain ⟨type, level, formatter, file⟩ := a
  by_cases h1 : type = 1
  · subst h1
    rw [writeAppender_cons rfl]
    obtain ⟨text, htext, hget⟩ := text_formatter
      [("type".toList, .scalar "FileLogAppender".toList), ("file".toList, .scalar file)]
      level formatter [] rfl rfl
    rw [readAppender_file (text_map_some rfl) (text_map_some rfl) htext, hget]
    rfl
  by_cases h2 : type = 2
  · subst h2
    rw [writeAppender_cons rfl]
    obtain ⟨text, htext, hget⟩ := text_formatter
      [("type".toList, .scalar "StdoutLogAppender".toList)] level formatter [] rfl rfl
    rw [readAppender_stdout (text_map_some rfl) htext, hget]
    rfl
  · have huntyped : (writeAppender ⟨type, level, formatter, file⟩).text "type".toList
        = .ok none := by
      have hnone := lookup_common_other level formatter "type".toList (by decide) (by decide)
      simp only [writeAppender, kind, if_neg h1, if_neg h2, nil_append]
      cases hc : common level formatter with
      | nil => rfl
      | cons entry entries => exact text_map_none (hc ▸ hnone)
    rw [readAppender_untyped huntyped, restored, if_neg h1, if_neg h2]

/-- The appenders that were written come back without their levels. -/
theorem readAppenders_spec (appenders : List LogAppenderDefine) :
    readAppenders (appenders.map writeAppender) = .ok (appenders.filterMap restored) := by
  induction appenders with
  | nil => rfl
  | cons a appenders ih =>
    rw [map_cons, readAppenders, readAppender_spec, ih, filterMap_cons]
    cases restored a <;> rfl

/-- A tree is read field by field. -/
theorem fromYaml_of_texts {n : Yaml} {name : List Char} {level : Option (List Char)}
    {appenders : Option Yaml} {lads : List LogAppenderDefine}
    (hname : n.text "name".toList = .ok (some name)) (hlevel : n.text "level".toList = .ok level)
    (hformatter : n.text "formatter".toList = .ok formatter)
    (happenders : n.get "appenders".toList = .ok appenders)
    (hlads : readAppenders (appenders.elim [] Yaml.elements) = .ok lads) :
    fromYaml n = .ok ⟨name, .FromString (level.getD []), formatter.getD [], lads⟩ := by
  simp only [fromYaml, hname, hlevel, hformatter, happenders]
  change (readAppenders (appenders.elim [] Yaml.elements) >>= _) = _
  rw [hlads]
  rfl

theorem lookup_appendersEntry (appenders : List LogAppenderDefine)
    (h : key ≠ "appenders".toList) : (appendersEntry appenders).lookup key = none := by
  rw [appendersEntry]
  split
  · rw [lookup_cons, beq_false_of_ne h]
    rfl
  · rfl

/-- The list that is written, or no entry if it is empty. -/
theorem get_appenders (d : LogDefine) : ∃ node, (toYaml d).get "appenders".toList = .ok node
      ∧ node.elim [] Yaml.elements = d.appenders.map writeAppender := by
  have hcommon := lookup_common_other d.level d.formatter "appenders".toList (by decide) (by decide)
  refine ⟨(appendersEntry d.appenders).lookup "appenders".toList, ?_, ?_⟩
  · rw [toYaml, Yaml.get, lookup_append, lookup_append, hcommon]
    rfl
  · cases hd : d.appenders with
    | nil => rfl
    | cons a appenders => rfl

/-- **THE WHOLE**: everything but the levels of the appenders comes back. -/
theorem fromYaml_toYaml (d : LogDefine) :
    fromYaml (toYaml d) = .ok { d with appenders := d.appenders.filterMap restored } := by
  obtain ⟨level, hlevel, hgetl⟩ := text_level [("name".toList, .scalar d.name)]
    d.level d.formatter (appendersEntry d.appenders) rfl (lookup_appendersEntry _ (by decide))
  obtain ⟨formatter, hformatter, hgetf⟩ := text_formatter [("name".toList, .scalar d.name)]
    d.level d.formatter (appendersEntry d.appenders) rfl (lookup_appendersEntry _ (by decide))
  obtain ⟨node, hnode, helements⟩ := get_appenders d
  have hlads := readAppenders_spec d.appenders
  rw [← helements] at hlads
  have hread := fromYaml_of_texts (text_map_some rfl) hlevel hformatter hnode hlads
  rw [hgetl, hgetf] at hread
  exact hread

/-! ## The two casts -/

/-- An appender as the configuration describes it: a file with a name, or the standard
output. -/
def Typed (a : LogAppenderDefine) : Prop :=
  a.type = 1 ∧ a.file ≠ [] ∨ a.type = 2 ∧ a.file = []

/-- A typed appender loses its level only. -/
theorem restored_of_typed {a : LogAppenderDefine} (h : Typed a) :
    restored a = some { a with level := .UNKNOW } := by
  obtain ⟨type, level, formatter, file⟩ := a
  obtain ⟨rfl, -⟩ | ⟨rfl, rfl⟩ := h <;> rfl

/-- So does each in a list. -/
theorem filterMap_restored {appenders : List LogAppenderDefine} (h : ∀ a ∈ appenders, Typed a) :
    appenders.filterMap restored = appenders.map fun a => { a with level := .UNKNOW } := by
  induction appenders with
  | nil => rfl
  | cons a appenders ih =>
    obtain ⟨ha, hrest⟩ := forall_mem_cons.mp h
    rw [filterMap_cons, restored_of_typed ha, map_cons, ih hrest]

/-- **ROUND TRIP.**  Of yaml-cpp it is assumed that loading the written tree gives it
back. -/
theorem cast_iff {load : List Char → Except CastError Yaml} {emit : Yaml → List Char}
    {d : LogDefine} (hload : load (emit (toYaml d)) = .ok (toYaml d))
    (htyped : ∀ a ∈ d.appenders, Typed a) :
    castFromString load (castToString emit d) = .ok d ↔ ∀ a ∈ d.appenders, a.level = .UNKNOW := by
  have hcast : castFromString load (castToString emit d)
      = .ok { d with appenders := d.appenders.map fun a => { a with level := .UNKNOW } } := by
    rw [castFromString, castToString, hload, ← filterMap_restored htyped]
    exact fromYaml_toYaml d
  rw [hcast]
  constructor
  · intro h a ha
    have happenders := congrArg LogDefine.appenders (Except.ok.inj h)
    have hsame := map_inj_left.mp (happenders.trans (map_id _).symm) a ha
    exact (congrArg LogAppenderDefine.level hsame).symm
  · intro h
    have hsame : d.appenders.map (fun a => { a with level := .UNKNOW }) = d.appenders.map id :=
      map_inj_left.mpr fun a ha => by rw [← h a ha]; rfl
    rw [hsame, map_id]

/-- `YAML::Load` on the text that is written for a tree. -/
def loads (text : List Char) (tree : Yaml) (v : List Char) : Except CastError Yaml :=
  if v = text then .ok tree else .error .yaml

/-- A logger with a file of its own. -/
def systemLog : LogDefine :=
  ⟨"system".toList, .INFO, "%m%n".toList, [⟨1, .UNKNOW, [], "system.txt".toList⟩]⟩

/-- What yaml-cpp writes for it: a scalar that begins with a percent sign is quoted. -/
def systemText : List Char :=
  ("name: system\nlevel: INFO\nformatter: \"%m%n\"\n"
    ++ "appenders:\n  - type: FileLogAppender\n    file: system.txt").toList

/-- The tree of this text. -/
def systemTree : Yaml :=
  .map [("name".toList, .scalar "system".toList), ("level".toList, .scalar "INFO".toList),
    ("formatter".toList, .scalar "%m%n".toList),
    ("appenders".toList, .sequence [.map [("type".toList, .scalar "FileLogAppender".toList),
      ("file".toList, .scalar "system.txt".toList)]])]

/-- A logger whose appenders have no level of their own, with its real text. -/
theorem cast_iff_systemLog : (∀ a ∈ systemLog.appenders, a.level = .UNKNOW)
      ∧ castFromString (loads systemText systemTree) (castToString (fun _ => systemText) systemLog)
        = .ok systemLog := by
  have hlevels : ∀ a ∈ systemLog.appenders, a.level = .UNKNOW := by
    intro a ha
    rw [mem_singleton.mp ha]
  refine ⟨hlevels, (cast_iff (if_pos rfl) fun a ha => ?_).mpr hlevels⟩
  rw [mem_singleton.mp ha]
  exact Or.inl ⟨rfl, by decide⟩

/-- A file appender for errors only. -/
def errorLog : LogDefine :=
  ⟨"system".toList, .INFO, [], [⟨1, .ERROR, [], "errors.txt".toList⟩]⟩

/-- What yaml-cpp writes for it. -/
def errorText : List Char :=
  ("name: system\nlevel: INFO\n"
    ++ "appenders:\n  - type: FileLogAppender\n    file: errors.txt\n    level: ERROR").toList

/-- The tree of this text. -/
def errorTree : Yaml :=
  .map [("name".toList, .scalar "system".toList), ("level".toList, .scalar "INFO".toList),
    ("appenders".toList, .sequence [.map [("type".toList, .scalar "FileLogAppender".toList),
      ("file".toList, .scalar "errors.txt".toList), ("level".toList, .scalar "ERROR".toList)]])]

/-- The level is in the tree that is written, and the appender comes back as one for every
level. -/
theorem level_is_lost : toYaml errorLog = errorTree
      ∧ castFromString (loads errorText errorTree) (castToString (fun _ => errorText) errorLog)
        = .ok { errorLog with appenders := [⟨1, .UNKNOW, [], "errors.txt".toList⟩] }
      ∧ castFromString (loads errorText errorTree) (castToString (fun _ => errorText) errorLog)
        ≠ .ok errorLog := by
  have hread : castFromString (loads errorText errorTree)
      (castToString (fun _ => errorText) errorLog)
        = .ok { errorLog with appenders := [⟨1, .UNKNOW, [], "errors.txt".toList⟩] } := by
    rw [castFromString, castToString, loads, if_pos rfl]
    rfl
  refine ⟨rfl, hread, fun h => ?_⟩
  rw [hread] at h
  exact absurd (congrArg LogDefine.appenders (Except.ok.inj h)) (by decide)

end SylarLog
