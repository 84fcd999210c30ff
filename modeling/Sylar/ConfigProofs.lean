import Mathlib.Logic.Function.Basic
import Mathlib.Data.Nat.Basic
import Mathlib.Logic.Nontrivial.Basic
import Sylar.ConfigListingProofs

/-! # Configuration variables (`config.h`, `config.cc`)

`Config::LoadFromYaml` takes the listing of a tree and calls `fromString` on the
variables it finds by name.  `fromString` converts the text and, if the value does not
compare equal to the current one, runs the listeners and assigns it; a `std::exception`
on the way is logged and ends there.

* **`assigns`** — what a variable makes of some texts: which of them are assigned, and
  which calls its listeners get.
* **`loadNodes_spec`** — every variable sees the texts under its own name, whatever
  the others make of theirs.
* **`config_covered_iff`** — a variable gets the value at the last path that spells its name.
* **`config_frame_iff`** — every variable sees the texts at the dot paths that are its name. -/

namespace SylarConfig

open List

/-! ## The code -/

/-- What is thrown: `std::exception` or something else. -/
inductive Exception where
  | std (what : List Char)
  | other
  deriving DecidableEq, Repr

/-- What is left of an exception after `catch(std::exception& e)`. -/
def Exception.uncaught : Exception → Option Exception
  | .std _ => none
  | .other => some .other

/-- A call of a listener, by its number. -/
structure Call (V : Type) where
  id : Nat
  old_value : V
  new_value : V
  deriving DecidableEq, Repr

/-- `ConfigVar`; all values are in `V`, `eq` is the `operator==` of the variable's own type.  The
listeners stand in the order of their numbers and change nothing of the configuration. -/
structure ConfigVar (V : Type) where
  typeName : List Char
  eq : V → V → Bool
  m_val : V
  fromStr : List Char → Except Exception V
  m_cbs : List (Nat × (V → V → Except Exception Unit))

/-- `Config::GetDatas()`. -/
abbrev Datas (V : Type) := Name → Option (ConfigVar V)

section Code

variable {V : Type}

/-- What `Lookup` lets pass. -/
def lookupChars : List Char := "abcdefghijklmnopqrstuvwxyz._0123456789".toList

/-- `Config::Lookup` with a default: the variable, a null pointer if one of another type is there,
or `std::invalid_argument(name)`. -/
def Lookup (datas : Datas V) (name : Name) (var : ConfigVar V) :
    Except Exception (Option (ConfigVar V) × Datas V) :=
  match datas name with
  | some old => .ok (if old.typeName = var.typeName then some old else none, datas)
  | none =>
    if (find_first_not_of name lookupChars).isSome then .error (.std name)
    else .ok (some var, Function.update datas name (some var))

/-- `ConfigVar::setValue` for a type with this `operator==` and listeners with effects in `m`: the
value afterwards. -/
def setValue {m : Type → Type} [Monad m] (eq : V → V → Bool) (m_cbs : List (V → V → m Unit))
    (m_val val : V) : m V :=
  if eq val m_val then pure m_val
  else do
    forM m_cbs fun cb => cb m_val val
    return val

/-- A listener that records its call and then returns or throws. -/
def called (cb : Nat × (V → V → Except Exception Unit)) (old new : V) :
    ExceptT Exception (StateM (List (Call V))) Unit :=
  ExceptT.mk fun calls => (cb.2 old new, calls ++ [⟨cb.1, old, new⟩])

namespace ConfigVar

def setValue (var : ConfigVar V) (val : V) : ConfigVar V × List (Call V) × Option Exception :=
  match (SylarConfig.setValue var.eq (var.m_cbs.map called) var.m_val val).run.run [] with
  | (.ok m_val, calls) => ({ var with m_val := m_val }, calls, none)
  | (.error e, calls) => (var, calls, some e)

/-- `fromString`, with the exception that leaves it. -/
def fromString (var : ConfigVar V) (val : List Char) :
    ConfigVar V × List (Call V) × Option Exception :=
  match var.fromStr val with
  | .error e => (var, [], e.uncaught)
  | .ok val =>
    let (var, calls, e) := var.setValue val
    (var, calls, e.bind Exception.uncaught)

end ConfigVar

/-- The variables, and the calls of listeners so far. -/
structure Loaded (V : Type) where
  datas : Datas V
  calls : List (Name × Call V)

/-- The text of a node: `Scalar()`, or what `operator<<` writes. -/
def Node.text (emit : Entries → List Char) : Node → List Char
  | .scalar text => text
  | .map entries => emit entries
  | .other text => text

/-- The loop of `LoadFromYaml`; an exception that leaves `fromString` ends it. -/
def loadNodes (emit : Entries → List Char) :
    Loaded V → List (Name × Node) → Loaded V × Option Exception
  | s, [] => (s, none)
  | s, (name, node) :: rest =>
    if name.isEmpty then loadNodes emit s rest
    else
      let key := name.map Char.toLower
      match s.datas key with
      | none => loadNodes emit s rest
      | some var =>
          let (var, calls, e) := var.fromString (node.text emit)
          let s : Loaded V :=
            ⟨Function.update s.datas key (some var), s.calls ++ calls.map (key, ·)⟩
          match e with
          | some e => (s, some e)
          | none => loadNodes emit s rest

/-- `Config::LoadFromYaml`. -/
def LoadFromYaml (emit : Entries → List Char) (datas : Datas V) (root : Node) :
    Loaded V × Option Exception :=
  loadNodes emit ⟨datas, []⟩ (listAllMember [] root)

end Code

/-! ## What a variable makes of its texts -/

section Assigns

variable {V : Type}

/-- The loop over the listeners: the calls, and the exception that ends it. -/
def notify (old new : V) :
    List (Nat × (V → V → Except Exception Unit)) → List (Call V) × Option Exception
  | [] => ([], none)
  | (id, cb) :: rest =>
    match cb old new with
    | .error e => ([⟨id, old, new⟩], some e)
    | .ok () =>
        let (calls, e) := notify old new rest
        (⟨id, old, new⟩ :: calls, e)

/-- The loop of `setValue` does what `notify` says. -/
theorem forM_called (old new : V) (cbs : List (Nat × (V → V → Except Exception Unit)))
    (calls : List (Call V)) :
    (forM cbs fun cb => called cb old new).run.run calls
      = ((notify old new cbs).2.elim (.ok ()) .error, calls ++ (notify old new cbs).1) := by
  induction cbs generalizing calls with
  | nil =>
    rw [notify, append_nil]
    rfl
  | cons cb cbs ih =>
    obtain ⟨id, f⟩ := cb
    have hrest := ih (calls ++ [⟨id, old, new⟩])
    rw [append_assoc, singleton_append] at hrest
    have hfirst : (forM ((id, f) :: cbs) fun cb => called cb old new).run.run calls
        = (ExceptT.bindCont (fun _ => forM cbs fun cb => called cb old new) (f old new)).run
          (calls ++ [⟨id, old, new⟩]) := rfl
    rw [hfirst, notify]
    cases f old new with
    | error e => rfl
    | ok u => exact hrest

/-- `setValue`: nothing for an equal value; else the listeners run, and unless one throws the
value is assigned. -/
theorem ConfigVar.setValue_eq (var : ConfigVar V) (val : V) :
    var.setValue val = if var.eq val var.m_val = true then (var, [], none)
      else match notify var.m_val val var.m_cbs with
        | (calls, some e) => (var, calls, some e)
        | (calls, none) => ({ var with m_val := val }, calls, none) := by
  have hloop := forM_called var.m_val val var.m_cbs []
  rw [setValue, SylarConfig.setValue]
  by_cases heq : var.eq val var.m_val = true
  · rw [if_pos heq, if_pos heq]
    rfl
  · rw [if_neg heq, if_neg heq]
    rcases hnotify : notify var.m_val val var.m_cbs with ⟨calls, _ | e⟩
    · rw [hnotify] at hloop
      simp [hloop]
      rfl
    · rw [hnotify] at hloop
      simp [hloop]
      rfl

/-- The value after some texts, and the calls on the way: a text that cannot be converted, or
converts to an equal value, does nothing; any other is assigned, and every listener called once. -/
def ConfigVar.assigns (var : ConfigVar V) :
    V → List (List Char) → V × List (Call V)
  | val, [] => (val, [])
  | val, text :: texts =>
    match var.fromStr text with
    | .error _ => var.assigns val texts
    | .ok new =>
        if var.eq new val then var.assigns val texts
        else
          let (last, calls) := var.assigns new texts
          (last, (var.m_cbs.map fun (id, _) => ⟨id, val, new⟩) ++ calls)

/-- No listener throws, and conversions throw a `std::exception` if anything. -/
structure Quiet (datas : Datas V) : Prop where
  listeners : ∀ name var, datas name = some var → ∀ cb ∈ var.m_cbs, ∀ old new,
    cb.2 old new = .ok ()
  conversions : ∀ name var, datas name = some var → ∀ text e,
    var.fromStr text = .error e → e.uncaught = none

/-- The texts that `LoadFromYaml` finds under a name. -/
def textsAt (emit : Entries → List Char) (nodes : List (Name × Node)) (name : Name) :
    List (List Char) :=
  (nodes.filter fun e => !e.1.isEmpty && e.1.map Char.toLower == name).map (·.2.text emit)

/-- The calls that the listeners of a variable got. -/
def callsOf (calls : List (Name × Call V)) (name : Name) : List (Call V) :=
  (calls.filter (·.1 == name)).map Prod.snd

theorem ConfigVar.assigns_with (var : ConfigVar V) (m_val val : V)
    (texts : List (List Char)) :
    { var with m_val := m_val }.assigns val texts = var.assigns val texts := by
  induction texts generalizing val with
  | nil => rfl
  | cons text texts ih =>
    rw [assigns, assigns]
    show (match var.fromStr text with | .error _ => _ | .ok new => _) = _
    cases var.fromStr text with
    | error e => exact ih val
    | ok new =>
      show (if var.eq new val = true then _ else _) = _
      rw [ih val, ih new]

/-- The first text, and then the others. -/
theorem ConfigVar.assigns_cons (var : ConfigVar V) (val : V) (text : List Char)
    (texts : List (List Char)) :
    var.assigns val (text :: texts) = ((var.assigns (var.assigns val [text]).1 texts).1,
      (var.assigns val [text]).2 ++ (var.assigns (var.assigns val [text]).1 texts).2) := by
  rw [assigns, assigns]
  cases var.fromStr text with
  | error e => rfl
  | ok new =>
    by_cases hnew : var.eq new val = true
    · simp only [if_pos hnew]
      rfl
    · simp only [if_neg hnew, assigns, append_nil]

/-- The listeners are called one after the other. -/
theorem notify_eq {cbs : List (Nat × (V → V → Except Exception Unit))} {old new : V}
    (h : ∀ cb ∈ cbs, cb.2 old new = .ok ()) :
    notify old new cbs = (cbs.map fun (id, _) => ⟨id, old, new⟩, none) := by
  induction cbs with
  | nil => rfl
  | cons cb cbs ih =>
    obtain ⟨id, f⟩ := cb
    have hcb : f old new = .ok () := h (id, f) mem_cons_self
    rw [notify, hcb]
    simp only [ih fun cb hcb => h cb (mem_cons_of_mem _ hcb), map_cons]

variable {datas : Datas V} {var : ConfigVar V}

/-- One text: `fromString` does what `assigns` says, and nothing leaves it. -/
theorem fromString_eq {name : Name} (h : Quiet datas) (hvar : datas name = some var)
    (text : List Char) :
    var.fromString text = ({ var with m_val := (var.assigns var.m_val [text]).1 },
      (var.assigns var.m_val [text]).2, none) := by
  rw [ConfigVar.fromString, ConfigVar.assigns]
  cases hconv : var.fromStr text with
  | error e =>
    simp only [h.conversions name var hvar text e hconv]
    rfl
  | ok new =>
    by_cases hnew : var.eq new var.m_val = true
    · simp only [ConfigVar.setValue_eq, if_pos hnew]
      rfl
    · have hcalls := notify_eq fun cb hcb => h.listeners name var hvar cb hcb var.m_val new
      simp only [ConfigVar.setValue_eq, if_neg hnew, hcalls, ConfigVar.assigns, append_nil]
      rfl

private theorem callsOf_append {name : Name} (a b : List (Name × Call V)) :
    callsOf (a ++ b) name = callsOf a name ++ callsOf b name := by
  rw [callsOf, filter_append, map_append]
  rfl

theorem callsOf_map {name key : Name} (calls : List (Call V)) :
    callsOf (calls.map (key, ·)) name = if key = name then calls else [] := by
  rw [callsOf, filter_map, map_map]
  by_cases hkey : key = name
  · rw [if_pos hkey, filter_eq_self.mpr]
    · exact map_id calls
    · exact fun _ _ => beq_iff_eq.mpr hkey
  · rw [if_neg hkey, filter_eq_nil_iff.mpr]
    · rfl
    · exact fun _ _ h => hkey (beq_iff_eq.mp h)

/-- An assignment leaves listeners and conversions as they are. -/
theorem Quiet.assigned {name : Name} (h : Quiet datas) (hvar : datas name = some var) (val : V) :
    Quiet (Function.update datas name (some { var with m_val := val })) := by
  have hof : ∀ {n w}, Function.update datas name (some { var with m_val := val }) n = some w →
      ∃ v, datas n = some v ∧ w.m_cbs = v.m_cbs ∧ w.fromStr = v.fromStr := by
    intro n w hw
    by_cases hn : n = name
    · subst hn
      rw [Function.update_self] at hw
      cases hw
      exact ⟨var, hvar, rfl, rfl⟩
    · rw [Function.update_of_ne hn] at hw
      exact ⟨w, hw, rfl, rfl⟩
  refine ⟨fun n w hw cb hcb => ?_, fun n w hw text e he => ?_⟩
  · obtain ⟨v, hv, hcbs, -⟩ := hof hw
    rw [hcbs] at hcb
    exact h.listeners n v hv cb hcb
  · obtain ⟨v, hv, -, hfrom⟩ := hof hw
    rw [hfrom] at he
    exact h.conversions n v hv text e he

end Assigns

/-! ## The whole load -/

section Load

variable {V : Type} {emit : Entries → List Char} {name key : Name}
variable {node : Node} {nodes : List (Name × Node)}

theorem textsAt_cons_ne (h : key.map Char.toLower ≠ name) :
    textsAt emit ((key, node) :: nodes) name = textsAt emit nodes name := by
  rw [textsAt, filter_cons_of_neg]
  · rfl
  · rw [beq_eq_false_iff_ne.mpr h, Bool.and_false]
    exact Bool.false_ne_true

theorem textsAt_cons_self (h : key ≠ []) :
    textsAt emit ((key, node) :: nodes) (key.map Char.toLower)
      = node.text emit :: textsAt emit nodes (key.map Char.toLower) := by
  rw [textsAt, filter_cons_of_pos]
  · rfl
  · rw [beq_self_eq_true, Bool.and_true, Bool.not_eq_true', isEmpty_eq_false_iff]
    exact h

/-- What becomes of a variable under some texts. -/
def after (datas : Datas V) (texts : Name → List (List Char)) : Datas V := fun name =>
  (datas name).map fun var =>
    { var with m_val := (var.assigns var.m_val (texts name)).1 }

/-- The calls that its listeners get. -/
def callsIn (datas : Datas V) (texts : Name → List (List Char)) (name : Name) :
    List (Call V) :=
  (datas name).elim [] fun var => (var.assigns var.m_val (texts name)).2

variable {datas : Datas V} {var : ConfigVar V}

/-- Only the texts of a variable that is there matter. -/
theorem after_congr {texts texts' : Name → List (List Char)}
    (h : ∀ name var, datas name = some var → texts name = texts' name) :
    after datas texts = after datas texts'
      ∧ ∀ name, callsIn datas texts name = callsIn datas texts' name := by
  refine ⟨funext fun name => ?_, fun name => ?_⟩
  · rw [after, after]
    cases hvar : datas name with
    | none => rfl
    | some var => rw [h name var hvar]
  · rw [callsIn, callsIn]
    cases hvar : datas name with
    | none => rfl
    | some var => rw [h name var hvar]

/-- The state after one text of a variable. -/
def Loaded.assign (s : Loaded V) (key : Name) (var : ConfigVar V) (text : List Char) :
    Loaded V :=
  ⟨Function.update s.datas key (some { var with m_val := (var.assigns var.m_val [text]).1 }),
    s.calls ++ (var.assigns var.m_val [text]).2.map (key, ·)⟩

theorem Loaded.assign_self (s : Loaded V) (key : Name) (var : ConfigVar V) (text : List Char) :
    (s.assign key var text).datas key
      = some { var with m_val := (var.assigns var.m_val [text]).1 } :=
  Function.update_self ..

theorem Loaded.assign_of_ne (s : Loaded V) (var : ConfigVar V) (text : List Char)
    (h : name ≠ key) : (s.assign key var text).datas name = s.datas name :=
  Function.update_of_ne h ..

theorem callsOf_assign (s : Loaded V) (key : Name) (var : ConfigVar V) (text : List Char)
    (name : Name) :
    callsOf (s.assign key var text).calls name = callsOf s.calls name
      ++ if key = name then (var.assigns var.m_val [text]).2 else [] := by
  rw [← callsOf_map]
  exact callsOf_append _ _

/-- One text of one variable, and then the others. -/
theorem after_assign {s : Loaded V} (hkey : key ≠ [])
    (hvar : s.datas (key.map Char.toLower) = some var) :
    after (s.assign (key.map Char.toLower) var (node.text emit)).datas (textsAt emit nodes)
      = after s.datas (textsAt emit ((key, node) :: nodes))
    ∧ ∀ name, callsOf (s.assign (key.map Char.toLower) var (node.text emit)).calls name
        ++ callsIn (s.assign (key.map Char.toLower) var (node.text emit)).datas
          (textsAt emit nodes) name
      = callsOf s.calls name ++ callsIn s.datas (textsAt emit ((key, node) :: nodes)) name := by
  have hcons := var.assigns_cons var.m_val (node.text emit)
    (textsAt emit nodes (key.map Char.toLower))
  have hwith := var.assigns_with (var.assigns var.m_val [node.text emit]).1
    (var.assigns var.m_val [node.text emit]).1 (textsAt emit nodes (key.map Char.toLower))
  refine ⟨funext fun name => ?_, fun name => ?_⟩
  · by_cases hname : name = key.map Char.toLower
    · subst hname
      rw [after, after, Loaded.assign_self, hvar, textsAt_cons_self hkey, Option.map_some,
        Option.map_some, hcons, hwith]
    · rw [after, after, Loaded.assign_of_ne s var _ hname, textsAt_cons_ne (Ne.symm hname)]
  · rw [callsOf_assign, append_assoc]
    by_cases hname : name = key.map Char.toLower
    · subst hname
      rw [if_pos rfl, callsIn, callsIn, Loaded.assign_self, hvar, textsAt_cons_self hkey,
        Option.elim_some, Option.elim_some, hcons, hwith]
    · rw [if_neg (Ne.symm hname), callsIn, callsIn, Loaded.assign_of_ne s var _ hname,
        textsAt_cons_ne (Ne.symm hname), nil_append]

/-- **EVERY VARIABLE SEES ITS OWN TEXTS**, by induction on the listing. -/
theorem loadNodes_spec (nodes : List (Name × Node)) (s : Loaded V) (h : Quiet s.datas) :
    (loadNodes emit s nodes).2 = none
    ∧ (loadNodes emit s nodes).1.datas = after s.datas (textsAt emit nodes)
    ∧ ∀ name, callsOf (loadNodes emit s nodes).1.calls name
      = callsOf s.calls name ++ callsIn s.datas (textsAt emit nodes) name := by
  induction nodes generalizing s with
  | nil =>
    refine ⟨rfl, funext fun name => ?_, fun name => ?_⟩
    · show s.datas name = (s.datas name).map _
      cases s.datas name <;> rfl
    · show _ = _ ++ (s.datas name).elim [] _
      cases s.datas name <;> exact (append_nil _).symm
  | cons hd nodes ih =>
    obtain ⟨key, node⟩ := hd
    by_cases hkey : key = []
    · subst hkey
      exact ih s h
    · have hempty : key.isEmpty = false := isEmpty_eq_false_iff.mpr hkey
      cases hvar : s.datas (key.map Char.toLower) with
      | none =>
        have hload : loadNodes emit s ((key, node) :: nodes) = loadNodes emit s nodes := by
          rw [loadNodes]
          simp only [hempty, hvar]
          rfl
        have hsame : ∀ name var, s.datas name = some var →
            textsAt emit nodes name = textsAt emit ((key, node) :: nodes) name := by
          intro name var hname
          refine (textsAt_cons_ne ?_).symm
          rintro rfl
          rw [hvar] at hname
          exact nomatch hname
        obtain ⟨hnone, hdatas, hcalls⟩ := ih s h
        rw [hload]
        refine ⟨hnone, hdatas.trans (after_congr hsame).1, fun name => ?_⟩
        rw [hcalls name, (after_congr hsame).2 name]
      | some var =>
        have hload : loadNodes emit s ((key, node) :: nodes)
            = loadNodes emit (s.assign (key.map Char.toLower) var (node.text emit)) nodes := by
          rw [loadNodes]
          simp only [hempty, hvar, fromString_eq h hvar]
          rfl
        have hquiet : Quiet (s.assign (key.map Char.toLower) var (node.text emit)).datas :=
          h.assigned hvar _
        obtain ⟨hnone, hdatas, hcalls⟩ := ih _ hquiet
        rw [hload]
        refine ⟨hnone, hdatas.trans (after_assign hkey hvar).1, fun name => ?_⟩
        rw [hcalls name, (after_assign hkey hvar).2 name]

/-- THE LOAD of a tree. -/
theorem loadFromYaml_spec (emit : Entries → List Char) (h : Quiet datas) (root : Node) :
    (LoadFromYaml emit datas root).2 = none
    ∧ (LoadFromYaml emit datas root).1.datas = after datas (textsAt emit (listAllMember [] root))
    ∧ ∀ name, callsOf (LoadFromYaml emit datas root).1.calls name
      = callsIn datas (textsAt emit (listAllMember [] root)) name :=
  loadNodes_spec (listAllMember [] root) ⟨datas, []⟩ h

/-- The texts of a tree under a name: at the paths that spell it, if the filter lets it pass and it
is not empty. -/
theorem textsAt_listAllMember (emit : Entries → List Char) (root : Node) (name : Name) :
    textsAt emit (listAllMember [] root) name = if name ≠ [] ∧ listed name = true
      then (root.paths.filter fun e => spell [] e.1 == name).map (·.2.text emit) else [] := by
  rw [listAllMember_eq, textsAt, listing, filter_filter, filter_map, map_map]
  have hpass : ∀ key : Name, (!key.isEmpty && key.map Char.toLower == name && listed key) = true
      ↔ key = name ∧ name ≠ [] ∧ listed name = true := by
    intro key
    rw [Bool.and_eq_true, Bool.and_eq_true, Bool.not_eq_true', isEmpty_eq_false_iff, beq_iff_eq]
    constructor
    · rintro ⟨⟨hne, hlower⟩, hlisted⟩
      rw [toLower_of_listed hlisted] at hlower
      subst hlower
      exact ⟨rfl, hne, hlisted⟩
    · rintro ⟨rfl, hne, hlisted⟩
      exact ⟨⟨hne, toLower_of_listed hlisted⟩, hlisted⟩
  by_cases hname : name ≠ [] ∧ listed name = true
  · rw [if_pos hname]
    refine congrArg _ (filter_congr fun e _ => Bool.eq_iff_iff.mpr ?_)
    rw [beq_iff_eq]
    exact (hpass _).trans ⟨fun h => h.1, fun h => ⟨h, hname⟩⟩
  · rw [if_neg hname]
    refine congrArg _ (filter_eq_nil_iff.mpr fun e _ h => ?_)
    exact hname ((hpass _).mp h).2

/-- After the last text a variable has its value, if values that compare equal are equal. -/
theorem assigns_last {text : List Char} {new : V} (heq : ∀ a b, var.eq a b = true → a = b) :
    ∀ {texts : List (List Char)} (val : V), texts.getLast? = some text →
      var.fromStr text = .ok new → (var.assigns val texts).1 = new := by
  intro texts
  induction texts with
  | nil => exact fun _ h => nomatch h
  | cons hd tl ih =>
    intro val hlast hconv
    rw [ConfigVar.assigns_cons]
    cases tl with
    | nil =>
      obtain rfl : hd = text := Option.some.inj hlast
      show (var.assigns val [hd]).1 = new
      rw [ConfigVar.assigns, hconv]
      by_cases hnew : var.eq new val = true
      · simp only [if_pos hnew]
        exact (heq _ _ hnew).symm
      · simp only [if_neg hnew]
        rfl
    | cons next tl =>
      rw [getLast?_cons_cons] at hlast
      exact ih _ hlast hconv

end Load

/-! ## Coverage -/

/-- `Lookup` registers a variable under the name. -/
def Registers (name : Name) : Prop := find_first_not_of name lookupChars = none

theorem listed_of_registers {name : Name} (h : Registers name) :
    listed name = true ↔ '9' ∉ name := by
  have hchars : lookupChars.all (fun c => c == '9' || listChars.contains c) = true := by decide
  rw [Registers, find_first_not_of, findIdx?_eq_none_iff] at h
  rw [listed_iff]
  refine ⟨fun hlisted hmem => absurd (hlisted '9' hmem) (by decide), fun hnine c hc => ?_⟩
  have hc' : c ∈ lookupChars := by simpa using h c hc
  rcases (Bool.or_eq_true _ _).mp (all_eq_true.mp hchars c hc') with heq | hmem
  · exact absurd (beq_iff_eq.mp heq ▸ hc) hnine
  · exact contains_iff_mem.mp hmem

/-- The last node of the tree at a path that spells the name with its dots. -/
def Node.lastAt (root : Node) (name : Name) : Option Node :=
  (root.paths.filter fun e => dotted e.1 == name).getLast?.map Prod.snd

theorem lastAt_single {name : Name} (h : name ≠ []) :
    (Node.map (.cons name (.scalar []) .nil)).lastAt name = some (.scalar []) := by
  have hroot : (dotted [] == name) = false := beq_eq_false_iff_ne.mpr (Ne.symm h)
  have hkey : (dotted [name] == name) = true := by
    rw [dotted_cons, beq_iff_eq]
    exact append_nil name
  show (filter (fun e => dotted e.1 == name)
    [([], _), ([name], Node.scalar [])]).getLast?.map Prod.snd = _
  rw [filter_cons, filter_cons]
  simp only [hroot, hkey]
  rfl

/-- No path that begins with an empty key spells the name, with that key or without. -/
def Clear (name : Name) (root : Node) : Prop :=
  ∀ e ∈ root.paths, e.1.head? = some [] → dotted e.1 ≠ name ∧ spell [] e.1 ≠ name

instance (name : Name) (root : Node) : Decidable (Clear name root) :=
  inferInstanceAs (Decidable (∀ e ∈ root.paths, e.1.head? = some [] →
    dotted e.1 ≠ name ∧ spell [] e.1 ≠ name))

theorem clear_single {name : Name} (h : name ≠ []) :
    Clear name (.map (.cons name (.scalar []) .nil)) := by
  intro e he hhead
  rcases mem_cons.mp he with rfl | he
  · exact nomatch hhead
  · rw [mem_singleton.mp he] at hhead
    exact absurd (Option.some.inj hhead) h

section Theorems

variable {V : Type}

/-- A variable with one value that converts everything to another. -/
def constant (eq : V → V → Bool) (val new : V) : ConfigVar V :=
  ⟨[], eq, val, fun _ => .ok new, []⟩

/-- The registry with one variable. -/
def only (name : Name) (var : ConfigVar V) : Datas V := fun n => if n = name then some var else none

theorem quiet_only (name : Name) {var : ConfigVar V}
    (hcbs : ∀ cb ∈ var.m_cbs, ∀ old new, cb.2 old new = .ok ())
    (hconv : ∀ text e, var.fromStr text = .error e → e.uncaught = none) :
    Quiet (only name var) := by
  have hof : ∀ {n w}, only name var n = some w → w = var := by
    intro n w hw
    rw [only] at hw
    split at hw
    · exact (Option.some.inj hw).symm
    · exact nomatch hw
  refine ⟨fun n w hw => ?_, fun n w hw => ?_⟩
  · rw [hof hw]
    exact hcbs
  · rw [hof hw]
    exact hconv

private theorem quiet_constant (name : Name) (eq : V → V → Bool) (val new : V) :
    Quiet (only name (constant eq val new)) :=
  quiet_only name (fun _ h => absurd h not_mem_nil) fun _ _ h => nomatch h

/-- The texts under a name in the tree that has it as its only key. -/
theorem textsAt_single (emit : Entries → List Char) {name : Name} (hne : name ≠ [])
    (hlisted : listed name = true) :
    textsAt emit (listAllMember [] (.map (.cons name (.scalar []) .nil))) name = [[]] := by
  have hroot : (spell [] [] == name) = false := beq_eq_false_iff_ne.mpr (Ne.symm hne)
  have hkey : (spell [] [name] == name) = true := beq_self_eq_true name
  rw [textsAt_listAllMember, if_pos ⟨hne, hlisted⟩]
  show (filter (fun e => spell [] e.1 == name) [([], _), ([name], Node.scalar [])]).map _ = _
  rw [filter_cons, filter_cons]
  simp only [hroot, hkey]
  rfl

/-- **COVERAGE.**  For a name that `Lookup` registers and a type with the `operator==` `eq`:
every load assigns the variable the value at the last path that spells its name, if
and only if the name is not empty and has no `9`, and values that compare equal are
equal.  (Listeners do not throw, conversions throw `std::exception` if anything.) -/
theorem config_covered_iff [Nontrivial V] (emit : Entries → List Char) {name : Name}
    (hname : Registers name) (eq : V → V → Bool) :
    (∀ (datas : Datas V) (root : Node), Quiet datas → Clear name root →
      ∀ var node new, datas name = some var → var.eq = eq → root.lastAt name = some node →
        var.fromStr (node.text emit) = .ok new →
        ((LoadFromYaml emit datas root).1.datas name).map (·.m_val) = some new)
    ↔ name ≠ [] ∧ '9' ∉ name ∧ ∀ a b, eq a b = true → a = b := by
  rw [← listed_of_registers hname]
  constructor
  · intro h
    have hconstant : ∀ val new, only name (constant eq val new) name
        = some (constant eq val new) := fun _ _ => if_pos rfl
    -- A load that leaves the variable as it is.
    have hcontra : ∀ root node val new, Clear name root → root.lastAt name = some node →
        ((LoadFromYaml emit (only name (constant eq val new)) root).1.datas name).map (·.m_val)
          = some val → val = new := by
      intro root node val new hclear hlast hkeeps
      have hnew := h _ root (quiet_constant name eq val new) hclear _ node new
        (hconstant val new) rfl hlast rfl
      exact Option.some.inj (hkeeps.symm.trans hnew)
    have hfound : name ≠ [] ∧ listed name = true := by
      obtain ⟨val, new, hne⟩ := exists_pair_ne V
      by_contra hskip
      -- Nothing is found under the name, so the variable keeps its value.
      have hkeeps : ∀ root : Node, ((LoadFromYaml emit (only name (constant eq val new))
          root).1.datas name).map (·.m_val) = some val := by
        intro root
        rw [(loadFromYaml_spec emit (quiet_constant name eq val new) root).2.1, after,
          textsAt_listAllMember, if_neg hskip, hconstant]
        rfl
      by_cases hempty : name = []
      · subst hempty
        refine hne (hcontra (.scalar []) (.scalar []) val new (fun e he hhead => ?_) rfl (hkeeps _))
        rw [mem_singleton.mp he] at hhead
        exact nomatch hhead
      · exact hne (hcontra _ (.scalar []) val new (clear_single hempty) (lastAt_single hempty)
          (hkeeps _))
    refine ⟨hfound.1, hfound.2, fun a b hab => ?_⟩
    -- The load finds a value that compares equal, and assigns nothing.
    refine (hcontra _ (.scalar []) b a (clear_single hfound.1) (lastAt_single hfound.1) ?_).symm
    rw [(loadFromYaml_spec emit (quiet_constant name eq b a) _).2.1, after, hconstant,
      textsAt_single emit hfound.1 hfound.2]
    show some ((if eq a b = true then _ else _ : V × List (Call V)).1) = some b
    rw [if_pos hab]
    rfl
  · rintro ⟨hne, hlisted, heq⟩ datas root hquiet hclear var node new hvar rfl hlast hconv
    have hpaths : (root.paths.filter fun e => spell [] e.1 == name)
        = root.paths.filter fun e => dotted e.1 == name := by
      refine filter_congr fun e he => ?_
      by_cases hhead : e.1.head? = some []
      · obtain ⟨hdotted, hspell⟩ := hclear e he hhead
        rw [beq_eq_false_iff_ne.mpr hdotted, beq_eq_false_iff_ne.mpr hspell]
      · rw [spell_eq_dotted hhead]
    have hlastText : (textsAt emit (listAllMember [] root) name).getLast?
        = some (node.text emit) := by
      obtain ⟨e, he, rfl⟩ := Option.map_eq_some_iff.mp hlast
      rw [textsAt_listAllMember, if_pos ⟨hne, hlisted⟩, hpaths, getLast?_map, he]
      rfl
    rw [(loadFromYaml_spec emit hquiet root).2.1, after, hvar]
    exact congrArg some (assigns_last heq var.m_val hlastText hconv)

/-- A map in a map. -/
def nested : Node :=
  .map (.cons "db".toList (.map (.cons "port".toList (.scalar "80".toList) .nil)) .nil)

theorem config_covered_iff_nested : nested.lastAt "db.port".toList = some (.scalar "80".toList)
    ∧ ((LoadFromYaml (fun _ => []) (only "db.port".toList (constant BEq.beq 0 80)) nested).1.datas
      "db.port".toList).map (·.m_val) = some 80 := by
  have hname : Registers "db.port".toList := rfl
  have hcovered := (config_covered_iff (V := Nat) (fun _ => []) hname BEq.beq).mpr
    ⟨by decide, by decide, fun _ _ => eq_of_beq⟩
  exact ⟨rfl, hcovered _ nested (quiet_constant _ _ 0 80) (by decide) _ _ 80 rfl rfl rfl rfl⟩

/-- **A name with a `9`** can be registered, and is not loaded. -/
theorem nine_is_skipped :
    (∃ out, Lookup (fun _ => none) "port9".toList (constant BEq.beq 0 80) = .ok out)
    ∧ (Node.map (.cons "port9".toList (.scalar "80".toList) .nil)).lastAt "port9".toList
      = some (.scalar "80".toList)
    ∧ ((LoadFromYaml (fun _ => []) (only "port9".toList (constant BEq.beq 0 80))
        (.map (.cons "port9".toList (.scalar "80".toList) .nil))).1.datas
        "port9".toList).map (·.m_val) = some 0 :=
  ⟨⟨_, rfl⟩, rfl, rfl⟩

/-! ## Frame -/

/-- The dot paths of a tree, in lower case; the root has none. -/
def Node.dotPaths (root : Node) : List Name :=
  (root.paths.filter fun e => !e.1.isEmpty).map fun e => (dotted e.1).map Char.toLower

/-- The texts at the dot paths that are the name. -/
def Node.textsOn (emit : Entries → List Char) (root : Node) (name : Name) : List (List Char) :=
  (root.paths.filter fun e => !e.1.isEmpty && (dotted e.1).map Char.toLower == name).map
    (·.2.text emit)

/-- Under every name that can be registered stand, in order, the texts at the paths whose keys,
without empty ones at the front, are the name as written; none if it is empty or has a `9`. -/
def Node.Spelled (emit : Entries → List Char) (root : Node) : Prop :=
  ∀ name, Registers name → root.textsOn emit name = if name ≠ [] ∧ '9' ∉ name
    then (root.paths.filter fun e => dotted (e.1.dropWhile List.isEmpty) == name).map
      (·.2.text emit)
    else []

/-- Every path begins with a key that is not empty, and has no `9` and no upper case. -/
def Node.Plain (root : Node) : Prop :=
  ∀ e ∈ root.paths, e.1.head? ≠ some [] ∧ ∀ c ∈ dotted e.1, c ≠ '9' ∧ c.toLower = c

instance (root : Node) : Decidable root.Plain :=
  @List.decidableBAll _ _ (fun _ => @instDecidableAnd _ _ _ (List.decidableBAll _ _)) root.paths

theorem dotted_ne_nil {path : List Name} (h : path ≠ []) (hhead : path.head? ≠ some []) :
    dotted path ≠ [] := by
  cases path with
  | nil => exact absurd rfl h
  | cons key path =>
    have hkey : key ≠ [] := fun heq => hhead (congrArg some heq)
    rw [dotted_cons]
    exact append_ne_nil_of_left_ne_nil hkey _

variable {root : Node}

/-- A plain tree is spelled as it is written. -/
theorem spelled_of_plain (emit : Entries → List Char) (h : root.Plain) :
    root.Spelled emit := by
  intro name _
  have hlower : ∀ e ∈ root.paths, (dotted e.1).map Char.toLower = dotted e.1 := by
    intro e he
    have hsame : ∀ c ∈ dotted e.1, c.toLower = id c := fun c hc => ((h e he).2 c hc).2
    rw [map_congr_left hsame, map_id]
  have hdrop : ∀ e ∈ root.paths, e.1.dropWhile List.isEmpty = e.1 := by
    intro e he
    rcases hpath : e.1 with _ | ⟨key, path⟩
    · rfl
    · have hkey : key ≠ [] := fun heq => (h e he).1 (by rw [hpath, heq]; rfl)
      rw [dropWhile_cons_of_neg]
      rwa [List.isEmpty_iff]
  rw [Node.textsOn]
  split
  · next hname =>
    refine congrArg _ (filter_congr fun e he => ?_)
    rw [hlower e he, hdrop e he]
    rcases hpath : e.1 with _ | ⟨key, path⟩
    · exact (beq_eq_false_iff_ne.mpr (Ne.symm hname.1)).symm
    · rfl
  · next hname =>
    refine congrArg _ (filter_eq_nil_iff.mpr fun e he hpass => hname ?_)
    rw [Bool.and_eq_true, Bool.not_eq_true', isEmpty_eq_false_iff, beq_iff_eq, hlower e he] at hpass
    rw [← hpass.2]
    exact ⟨dotted_ne_nil hpass.1 (h e he).1, fun hnine => ((h e he).2 _ hnine).1 rfl⟩

/-- Nothing stands at a name that is no dot path. -/
theorem textsOn_eq_nil {emit : Entries → List Char} {name : Name} (hname : name ∉ root.dotPaths) :
    root.textsOn emit name = [] := by
  refine congrArg _ (filter_eq_nil_iff.mpr fun e he hpass => hname ?_)
  obtain ⟨hne, heq⟩ := (Bool.and_eq_true _ _).mp hpass
  exact mem_map.mpr ⟨e, mem_filter.mpr ⟨he, hne⟩, beq_iff_eq.mp heq⟩

/-- What the load finds under a name that can be registered. -/
theorem textsAt_of_registers (emit : Entries → List Char) (root : Node) {name : Name}
    (hname : Registers name) :
    textsAt emit (listAllMember [] root) name = if name ≠ [] ∧ '9' ∉ name
      then (root.paths.filter fun e => dotted (e.1.dropWhile List.isEmpty) == name).map
        (·.2.text emit)
      else [] := by
  rw [textsAt_listAllMember]
  simp only [listed_of_registers hname, spell_eq_dropWhile]

/-- Texts that every conversion takes to the same values are the same. -/
theorem eq_of_map_eq [Nontrivial V] {texts texts' : List (List Char)}
    (h : ∀ conv : List Char → V, texts.map conv = texts'.map conv) : texts = texts' := by
  obtain ⟨a, b, hab⟩ := exists_pair_ne V
  induction texts generalizing texts' with
  | nil => exact (map_eq_nil_iff.mp (h fun _ => a).symm).symm
  | cons text texts ih =>
    cases texts' with
    | nil => exact nomatch h fun _ => a
    | cons text' texts' =>
      have htext : text' = text := by
        by_contra hne
        have hmap : (if text = text then a else b) = if text' = text then a else b :=
          (cons.inj (h fun t => if t = text then a else b)).1
        rw [if_pos rfl, if_neg hne] at hmap
        exact hab hmap
      rw [htext, ih fun conv => (cons.inj (h conv)).2]

/-- A variable that takes every value for a new one, with one listener. -/
def eager (val : V) (conv : List Char → V) : ConfigVar V :=
  ⟨[], fun _ _ => false, val, fun text => .ok (conv text), [(0, fun _ _ => .ok ())]⟩

/-- Its listener sees the values of all texts. -/
theorem eager_assigns (m_val val : V) (conv : List Char → V) (texts : List (List Char)) :
    ((eager m_val conv).assigns val texts).2.map Call.new_value = texts.map conv := by
  induction texts generalizing val with
  | nil => rfl
  | cons text texts ih => exact congrArg (conv text :: ·) (ih (conv text))

/-- Every variable has a name that `Lookup` lets pass. -/
def Registered (datas : Datas V) : Prop := ∀ name var, datas name = some var → Registers name

/-- **FRAME.**  Let no listener throw, conversions throw `std::exception` if anything, and the
variables be registered by `Lookup`.  Every load of the tree ends, leaves the variables
alone whose name is no dot path of the tree, and makes of every variable what `assigns`
makes of the texts at its name, if and only if the tree is spelled as it is written. -/
theorem config_frame_iff [Nontrivial V] (emit : Entries → List Char) (root : Node) :
    (∀ datas : Datas V, Quiet datas → Registered datas → (LoadFromYaml emit datas root).2 = none
      ∧ (∀ name ∉ root.dotPaths, (LoadFromYaml emit datas root).1.datas name = datas name
        ∧ callsOf (LoadFromYaml emit datas root).1.calls name = [])
      ∧ ∀ name var, datas name = some var →
        (LoadFromYaml emit datas root).1.datas name = some { var with
          m_val := (var.assigns var.m_val (root.textsOn emit name)).1 }
        ∧ callsOf (LoadFromYaml emit datas root).1.calls name
          = (var.assigns var.m_val (root.textsOn emit name)).2)
    ↔ root.Spelled emit := by
  constructor
  · intro h name hname
    obtain ⟨val, -⟩ := exists_pair_ne V
    rw [← textsAt_of_registers emit root hname]
    refine eq_of_map_eq (V := V) fun conv => ?_
    -- The calls of the listener show the texts that the load finds.
    have hquiet : Quiet (only name (eager val conv)) :=
      quiet_only name (fun cb hcb _ _ => by rw [mem_singleton.mp hcb]) fun _ _ h => nomatch h
    have hvar : only name (eager val conv) name = some (eager val conv) := if_pos rfl
    have hregistered : Registered (only name (eager val conv)) := fun n var hn => by
      rw [only] at hn
      split at hn
      · next heq => rwa [heq]
      · exact nomatch hn
    have hsaid := ((h _ hquiet hregistered).2.2 name _ hvar).2
    rw [(loadFromYaml_spec emit hquiet root).2.2, callsIn, hvar] at hsaid
    have hvalues := congrArg (map Call.new_value) hsaid.symm
    rwa [eager_assigns, Option.elim_some, eager_assigns] at hvalues
  · intro hspelled datas hquiet hregistered
    obtain ⟨hnone, hdatas, hcalls⟩ := loadFromYaml_spec emit hquiet root
    -- The load finds what stands at the name of the variable.
    have htexts : ∀ name var, datas name = some var →
        textsAt emit (listAllMember [] root) name = root.textsOn emit name := by
      intro name var hvar
      have hname := hregistered name var hvar
      rw [textsAt_of_registers emit root hname, hspelled name hname]
    rw [hdatas, (after_congr htexts).1]
    simp only [hcalls, (after_congr htexts).2]
    refine ⟨hnone, fun name hname => ?_, fun name var hvar => ?_⟩
    · rw [after, callsIn, textsOn_eq_nil hname]
      cases datas name <;> exact ⟨rfl, rfl⟩
    · rw [after, callsIn, hvar]
      exact ⟨rfl, rfl⟩

end Theorems

/-- A variable with a listener. -/
def watched : ConfigVar Nat := { constant BEq.beq 0 80 with m_cbs := [(5, fun _ _ => .ok ())] }

theorem config_frame_iff_nested : nested.Plain
    ∧ callsOf (LoadFromYaml (fun _ => []) (only "db.port".toList watched) nested).1.calls
      "db.port".toList = [⟨5, 0, 80⟩] := by
  have hplain : nested.Plain := by decide
  have hquiet : Quiet (only "db.port".toList watched) := by
    refine quiet_only _ (fun cb hcb old new => ?_) fun _ _ h => nomatch h
    rw [mem_singleton.mp hcb]
  have hregistered : Registered (only "db.port".toList watched) := fun n var hn => by
    rw [only] at hn
    split at hn
    · next heq =>
      rw [heq]
      rfl
    · exact nomatch hn
  have hframe := (config_frame_iff (fun _ => []) nested).mpr (spelled_of_plain _ hplain) _
    hquiet hregistered
  exact ⟨hplain, (hframe.2.2 "db.port".toList watched rfl).2.trans rfl⟩

/-- **An empty key at the front**: the one path below it is `.port`, and `port` is assigned.  **A
`9` or a capital**: the variable is on a path, and is left as it is. -/
theorem empty_key_assigns :
    ("port".toList ∉ (Node.map (.cons [] (.map (.cons "port".toList (.scalar "80".toList) .nil))
      .nil)).dotPaths
    ∧ ((LoadFromYaml (fun _ => []) (only "port".toList (constant BEq.beq 0 80))
        (.map (.cons [] (.map (.cons "port".toList (.scalar "80".toList) .nil)) .nil))).1.datas
        "port".toList).map (·.m_val) = some 80)
    ∧ ("port9".toList ∈ (Node.map (.cons "port9".toList (.scalar "80".toList) .nil)).dotPaths
    ∧ ((LoadFromYaml (fun _ => []) (only "port9".toList (constant BEq.beq 0 80))
        (.map (.cons "port9".toList (.scalar "80".toList) .nil))).1.datas
        "port9".toList).map (·.m_val) = some 0)
    ∧ "port".toList ∈ (Node.map (.cons "Port".toList (.scalar "80".toList) .nil)).dotPaths
    ∧ ((LoadFromYaml (fun _ => []) (only "port".toList (constant BEq.beq 0 80))
        (.map (.cons "Port".toList (.scalar "80".toList) .nil))).1.datas
        "port".toList).map (·.m_val) = some 0 :=
  ⟨⟨by decide, rfl⟩, ⟨by decide, rfl⟩, by decide, rfl⟩

end SylarConfig
