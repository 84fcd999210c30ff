import Mathlib.Data.List.AList
import Mathlib.Data.List.Perm.Basic
import Sylar.StepSystemProofs

/-! # The module registry (`module.cc`)

`ModuleManager` keeps its modules in two tables: `m_modules` by id and
`m_type2Modules` by type and id.  `add` first calls `del` for the id and then inserts
the module in a critical section of its own; `del` calls `onUnload` after its section;
`delAll` copies the table and calls `del` for every id of the copy.

A call is the list of the sections it has still to go through.

* **`Consistent`** — the two tables hold the same modules, each under its own id and
  type, and no type without modules; **`listAll_perm`**: so the two listings agree.
* **`good_step`** — one section of a call that replaces nothing.
* **`registry_consistent`** — the tables agree, and every module that is gone was unloaded once. -/

namespace SylarModule

open StepSystem List

/-! ## The code -/

/-- A module; `obj` is the object the pointer points to. -/
structure Module where
  obj : Nat
  id : String
  type : UInt32
  deriving DecidableEq, Repr

/-- A table of modules by id. -/
abbrev Modules := AList fun _ : String => Module

/-- The two tables. -/
structure Tables where
  m_modules : Modules
  m_type2Modules : AList fun _ : UInt32 => Modules

/-- `m_type2Modules[type]`, which is there afterwards. -/
def Tables.ofType (t : Tables) (type : UInt32) : Modules :=
  (t.m_type2Modules.lookup type).getD ∅

/-- The locked section of `add`. -/
def Tables.insert (t : Tables) (m : Module) : Tables where
  m_modules := t.m_modules.insert m.id m
  m_type2Modules := t.m_type2Modules.insert m.type ((t.ofType m.type).insert m.id m)

/-- The locked section of `del`: the module it found, and the tables without it. -/
def Tables.del (t : Tables) (name : String) : Option Module × Tables :=
  match t.m_modules.lookup name with
  | none => (none, t)
  | some module =>
    let left := (t.ofType module.type).erase module.id
    (some module,
      { m_modules := t.m_modules.erase name
        m_type2Modules :=
          if left.entries.isEmpty then t.m_type2Modules.erase module.type
          else t.m_type2Modules.insert module.type left })

/-- `ModuleManager::get`. -/
def Tables.get (t : Tables) (name : String) : Option Module := t.m_modules.lookup name

/-- The modules of a table, as a loop over it meets them. -/
def listOf (modules : Modules) : List Module := modules.entries.map Sigma.snd

/-- `ModuleManager::listAll`. -/
def Tables.listAll (t : Tables) : List Module := listOf t.m_modules

/-- `ModuleManager::listByType`. -/
def Tables.listByType (t : Tables) (type : UInt32) : List Module :=
  match t.m_type2Modules.lookup type with
  | none => []
  | some modules => listOf modules

/-- What a call has still to do: the section of `del`, then `onUnload`, the section of `add`, or the
copy of `delAll`. -/
inductive Section where
  | del (name : String)
  | onUnload (m : Module)
  | insert (m : Module)
  | copy
  deriving DecidableEq, Repr

/-- The tables, the calls in progress, and the calls of `onUnload` and insertions so far. -/
structure State where
  tables : Tables
  calls : List (List Section)
  unloaded : List Module
  added : List Module

/-- A call begins, or call `i` goes through its next section; the ids of a copy come in the order of
the hash table. -/
inductive Act where
  | add (m : Module)
  | del (name : String)
  | delAll
  | next (i : Nat)
  | copied (i : Nat) (names : List String)
  deriving DecidableEq, Repr

/-- A call begins with its sections. -/
def State.begin (s : State) (call : List Section) : State :=
  { s with calls := s.calls ++ [call] }

/-- Call `i` has still to do `call`. -/
def State.at (s : State) (i : Nat) (call : List Section) : State :=
  { s with calls := s.calls.set i call }

/-- The system: the sections of all calls, in any interleaving. -/
def step (s : State) : Act → Option State
  | .add m => some (s.begin [.del m.id, .insert m])
  | .del name => some (s.begin [.del name])
  | .delAll => some (s.begin [.copy])
  | .next i =>
    match s.calls[i]? with
    | some (.del name :: rest) =>
        let (module, tables) := s.tables.del name
        some { s.at i (module.toList.map .onUnload ++ rest) with tables }
    | some (.onUnload m :: rest) =>
        some { s.at i rest with unloaded := s.unloaded ++ [m] }
    | some (.insert m :: rest) =>
        some { s.at i rest with tables := s.tables.insert m, added := s.added ++ [m] }
    | _ => none
  | .copied i names =>
    match s.calls[i]? with
    | some (.copy :: rest) =>
        if names.isPerm s.tables.m_modules.keys then
          some (s.at i (names.map .del ++ rest))
        else none
    | _ => none

/-- No modules and no calls. -/
def init : State := ⟨⟨∅, ∅⟩, [], [], []⟩

/-! ## Consistent tables -/

/-- The module under a type and an id. -/
def Tables.byType (t : Tables) (type : UInt32) (id : String) : Option Module :=
  (t.ofType type).lookup id

/-- The tables hold the same modules, each under its own id and type, and no type without
modules. -/
structure Consistent (t : Tables) : Prop where
  ids : ∀ {id : String} {m : Module}, t.get id = some m → m.id = id
  agree : ∀ {type : UInt32} {id : String} {m : Module},
    t.byType type id = some m ↔ t.get id = some m ∧ m.type = type
  inhabited : ∀ {type : UInt32} {modules : Modules},
    t.m_type2Modules.lookup type = some modules → modules.entries ≠ []

/-- Empty tables agree. -/
theorem consistent_init : Consistent init.tables where
  ids h := nomatch h
  agree := iff_of_false (fun h => nomatch h) fun h => nomatch h.1
  inhabited h := nomatch h

variable {type : UInt32} {modules : Modules}

section Tables

variable {t : Tables}

theorem Tables.ofType_of_lookup (h : t.m_type2Modules.lookup type = some modules) :
    t.ofType type = modules := by
  rw [Tables.ofType, h, Option.getD_some]

/-! ### Inserting -/

/-- An insertion, seen by id. -/
theorem Tables.get_insert (m : Module) (id : String) :
    (t.insert m).get id = if id = m.id then some m else t.get id := by
  by_cases h : id = m.id
  · rw [if_pos h, h]
    exact AList.lookup_insert _
  · rw [if_neg h]
    exact AList.lookup_insert_ne h

/-- An insertion, seen by type and id. -/
theorem Tables.byType_insert (m : Module) (type : UInt32) (id : String) :
    (t.insert m).byType type id
      = if type = m.type ∧ id = m.id then some m else t.byType type id := by
  by_cases htype : type = m.type
  · subst htype
    have hinner : (t.insert m).ofType m.type = (t.ofType m.type).insert m.id m :=
      Tables.ofType_of_lookup (AList.lookup_insert _)
    rw [Tables.byType, hinner]
    by_cases hid : id = m.id
    · rw [if_pos ⟨rfl, hid⟩, hid]
      exact AList.lookup_insert _
    · rw [if_neg fun h => hid h.2]
      exact AList.lookup_insert_ne hid
  · rw [if_neg fun h => htype h.1, Tables.byType, Tables.byType, Tables.ofType, Tables.ofType]
    rw [Tables.insert, AList.lookup_insert_ne htype]

/-- **The section of `add`** on a free id keeps the tables consistent. -/
theorem Consistent.insert (h : Consistent t) {m : Module} (hfree : t.get m.id = none) :
    Consistent (t.insert m) where
  ids {id m'} hget := by
    rw [Tables.get_insert] at hget
    split at hget
    · next hid =>
      cases hget
      exact hid.symm
    · exact h.ids hget
  agree {type id m'} := by
    rw [Tables.byType_insert, Tables.get_insert]
    by_cases hid : id = m.id
    · subst hid
      -- nothing was registered under this id, under any type
      have hnone : t.byType type m.id = none := by
        rw [Option.eq_none_iff_forall_ne_some]
        intro m₀ hm₀
        rw [h.agree, hfree] at hm₀
        cases hm₀.1
      by_cases htype : type = m.type
      · rw [if_pos ⟨htype, rfl⟩, if_pos rfl]
        constructor
        · intro hm
          cases hm
          exact ⟨rfl, htype.symm⟩
        · exact fun hm => hm.1
      · rw [if_neg fun h => htype h.1, if_pos rfl, hnone]
        refine iff_of_false (fun hm => nomatch hm) ?_
        rintro ⟨hm, hty⟩
        cases hm
        exact htype hty.symm
    · rw [if_neg fun h => hid h.2, if_neg hid]
      exact h.agree
  inhabited {type modules} hlook := by
    by_cases htype : type = m.type
    · subst htype
      rw [Tables.insert, AList.lookup_insert] at hlook
      cases hlook
      rw [AList.entries_insert]
      exact cons_ne_nil _ _
    · rw [Tables.insert, AList.lookup_insert_ne htype] at hlook
      exact h.inhabited hlook

/-! ### Removing -/

variable {name : String} {m : Module}

/-- Deleting an id that is not there changes nothing. -/
theorem Tables.del_none (h : t.get name = none) : t.del name = (none, t) := by
  rw [Tables.get] at h
  rw [Tables.del, h]

theorem Tables.del_fst (name : String) : (t.del name).1 = t.get name := by
  rw [Tables.del, Tables.get]
  cases t.m_modules.lookup name <;> rfl

/-- A deletion, seen by id. -/
theorem Tables.get_del (h : t.get name = some m) (id : String) :
    (t.del name).2.get id = if id = name then none else t.get id := by
  rw [Tables.get] at h
  rw [Tables.del, h, Tables.get]
  by_cases hid : id = name
  · rw [if_pos hid, hid]
    exact AList.lookup_erase _ _
  · rw [if_neg hid]
    exact AList.lookup_erase_ne hid

/-- A deletion leaves the other types alone. -/
theorem Tables.lookup_del (h : t.get name = some m) (hne : type ≠ m.type) :
    (t.del name).2.m_type2Modules.lookup type = t.m_type2Modules.lookup type := by
  rw [Tables.get] at h
  rw [Tables.del, h]
  simp only []
  split
  · exact AList.lookup_erase_ne hne
  · exact AList.lookup_insert_ne hne

theorem Tables.ofType_del (h : t.get name = some m) :
    (t.del name).2.ofType m.type = (t.ofType m.type).erase m.id := by
  rw [Tables.get] at h
  rw [Tables.del, h]
  simp only []
  split
  · next hempty =>
    rw [Tables.ofType, AList.lookup_erase, Option.getD_none]
    exact AList.ext (isEmpty_iff.mp hempty).symm
  · exact Tables.ofType_of_lookup (AList.lookup_insert _)

/-- A deletion, seen by type and id. -/
theorem Tables.byType_del (h : t.get name = some m) (type : UInt32) (id : String) :
    (t.del name).2.byType type id
      = if type = m.type ∧ id = m.id then none else t.byType type id := by
  by_cases htype : type = m.type
  · subst htype
    rw [Tables.byType, Tables.ofType_del h]
    by_cases hid : id = m.id
    · rw [if_pos ⟨rfl, hid⟩, hid]
      exact AList.lookup_erase _ _
    · rw [if_neg fun h => hid h.2]
      exact AList.lookup_erase_ne hid
  · rw [if_neg fun h => htype h.1, Tables.byType, Tables.byType, Tables.ofType,
      Tables.lookup_del h htype, Tables.ofType]

/-- **The section of `del`** keeps the tables consistent. -/
theorem Consistent.del (h : Consistent t) (name : String) : Consistent (t.del name).2 := by
  cases hm : t.get name with
  | none =>
    rw [Tables.del_none hm]
    exact h
  | some m =>
    have hname : m.id = name := h.ids hm
    refine ⟨?_, ?_, ?_⟩
    · intro id m' hget
      rw [Tables.get_del hm] at hget
      split at hget
      · cases hget
      · exact h.ids hget
    · intro type id m'
      rw [Tables.byType_del hm, Tables.get_del hm, hname]
      by_cases hid : id = name
      · rw [if_pos hid]
        refine iff_of_false ?_ fun h => nomatch h.1
        split
        · exact fun h => nomatch h
        · next hnot =>
          intro hby
          obtain ⟨hget, hty⟩ := h.agree.mp hby
          rw [hid, hm] at hget
          cases hget
          exact hnot ⟨hty.symm, hid⟩
      · rw [if_neg fun h => hid h.2, if_neg hid]
        exact h.agree
    · intro type modules hlook
      by_cases htype : type = m.type
      · subst htype
        rw [Tables.get] at hm
        rw [Tables.del, hm] at hlook
        simp only [] at hlook
        split at hlook
        · rw [AList.lookup_erase] at hlook
          cases hlook
        · next hne =>
          rw [AList.lookup_insert] at hlook
          cases hlook
          exact fun hnil => hne (isEmpty_iff.mpr hnil)
      · rw [Tables.lookup_del hm htype] at hlook
        exact h.inhabited hlook

/-! ### Listing -/

/-- A table lists what is found in it. -/
theorem mem_listOf : m ∈ listOf modules ↔ ∃ id, modules.lookup id = some m := by
  rw [listOf, mem_map]
  constructor
  · rintro ⟨⟨id, m'⟩, hmem, rfl⟩
    exact ⟨id, AList.mem_lookup_iff.mpr hmem⟩
  · rintro ⟨id, hget⟩
    exact ⟨⟨id, m⟩, AList.mem_lookup_iff.mp hget, rfl⟩

/-- A table that has every module under its own id lists none twice. -/
theorem nodup_listOf (h : ∀ {id : String} {m : Module}, modules.lookup id = some m → m.id = id) :
    (listOf modules).Nodup := by
  have hids : (listOf modules).map Module.id = modules.keys := by
    rw [listOf, map_map]
    refine map_congr_left fun e he => ?_
    exact h (AList.mem_lookup_iff.mpr he)
  exact List.Nodup.of_map Module.id (hids ▸ modules.keys_nodup)

theorem Tables.listByType_eq (t : Tables) (type : UInt32) :
    t.listByType type = listOf (t.ofType type) := by
  rw [Tables.listByType, Tables.ofType]
  cases t.m_type2Modules.lookup type <;> rfl

theorem Tables.mem_listByType :
    m ∈ t.listByType type ↔ ∃ id, t.byType type id = some m := by
  rw [Tables.listByType_eq]
  exact mem_listOf

/-- In consistent tables a module is listed under its own id. -/
theorem Consistent.mem_listAll (h : Consistent t) : m ∈ t.listAll ↔ t.get m.id = some m := by
  constructor
  · intro hm
    obtain ⟨id, hget⟩ := mem_listOf.mp hm
    rw [h.ids hget]
    exact hget
  · exact fun hget => mem_listOf.mpr ⟨m.id, hget⟩

/-- The two listings agree. -/
theorem Consistent.mem_listByType (h : Consistent t) :
    m ∈ t.listByType type ↔ m ∈ t.listAll ∧ m.type = type := by
  rw [Tables.mem_listByType, h.mem_listAll]
  constructor
  · rintro ⟨id, hby⟩
    obtain ⟨hget, htype⟩ := h.agree.mp hby
    exact ⟨h.ids hget ▸ hget, htype⟩
  · rintro ⟨hget, htype⟩
    exact ⟨m.id, h.agree.mpr ⟨hget, htype⟩⟩

/-- **The two listings enumerate the same modules.** -/
theorem listAll_perm (h : Consistent t) :
    t.listAll.Perm (t.m_type2Modules.keys.flatMap t.listByType) := by
  refine (perm_ext_iff_of_nodup (nodup_listOf h.ids) ?_).mpr fun m => ?_
  · rw [nodup_flatMap]
    refine ⟨fun type _ => ?_, ?_⟩
    · rw [Tables.listByType_eq]
      exact nodup_listOf fun hget => h.ids (h.agree.mp hget).1
    · refine t.m_type2Modules.keys_nodup.imp fun {type type'} hne => ?_
      intro m hm hm'
      exact hne ((h.mem_listByType.mp hm).2.symm.trans (h.mem_listByType.mp hm').2)
  · rw [mem_flatMap]
    constructor
    · intro hm
      have hby := h.mem_listByType.mpr ⟨hm, rfl⟩
      refine ⟨m.type, ?_, hby⟩
      rw [← AList.mem_keys, ← AList.lookup_isSome]
      rw [Tables.listByType] at hby
      cases hlook : t.m_type2Modules.lookup m.type with
      | none =>
        rw [hlook] at hby
        cases hby
      | some modules => rfl
    · rintro ⟨type, -, hm⟩
      exact (h.mem_listByType.mp hm).1

end Tables

/-! ## Runs -/

/-- A module is inserted while no module is registered under its id, and only once. -/
def free (s : State) : Act → Bool
  | .next i =>
    match s.calls[i]? with
    | some (.insert m :: _) => (s.tables.get m.id).isNone && !decide (m ∈ s.added)
    | _ => true
  | _ => true

/-- The same as a proposition. -/
abbrev Free (s : State) (a : Act) : Prop := free s a = true

/-- What the condition says of an insertion. -/
theorem Free.insert {s : State} {i : Nat} {m : Module} {rest : List Section}
    (h : Free s (.next i)) (hi : s.calls[i]? = some (.insert m :: rest)) :
    s.tables.get m.id = none ∧ m ∉ s.added := by
  rw [Free, free, hi] at h
  simpa using h

/-- The calls of `onUnload` for a module that are still to come. -/
def pending (s : State) (m : Module) : Nat :=
  (s.calls.map fun call => call.count (.onUnload m)).sum

/-- Whether a module is registered, as a number. -/
def listed (t : Tables) (m : Module) : Nat := if t.get m.id = some m then 1 else 0

/-- The tables are consistent, and every inserted module is there, or its `onUnload` was or will be
called. -/
structure Good (s : State) : Prop where
  tables : Consistent s.tables
  once : s.added.Nodup
  balance : ∀ m, s.unloaded.count m + pending s m + listed s.tables m = s.added.count m

/-- The invariant holds at the start. -/
theorem good_init : Good init where
  tables := consistent_init
  once := nodup_nil
  balance _ := rfl

section Listed

variable {t : Tables} {m₀ : Module}

/-- An insertion under a free id lists one module more. -/
theorem listed_insert (hfree : t.get m₀.id = none) (m : Module) :
    listed (t.insert m₀) m = listed t m + if m₀ = m then 1 else 0 := by
  rw [listed, listed, Tables.get_insert]
  by_cases hm : m₀ = m
  · subst hm
    rw [if_pos rfl, if_pos rfl, if_pos rfl, hfree, if_neg (by simp)]
  · rw [if_neg hm, Nat.add_zero]
    by_cases hid : m.id = m₀.id
    · rw [if_pos hid, if_neg (by simpa using hm), hid, hfree, if_neg (by simp)]
    · rw [if_neg hid]

/-- A deletion lists one module less. -/
theorem listed_del (h : Consistent t) {name : String} (hget : t.get name = some m₀)
    (m : Module) : listed (t.del name).2 m + (if m₀ = m then 1 else 0) = listed t m := by
  have hname : m₀.id = name := h.ids hget
  rw [listed, listed, Tables.get_del hget]
  by_cases hm : m₀ = m
  · subst hm
    rw [if_pos hname, if_neg (by simp), if_pos rfl, hname, hget, if_pos rfl]
  · rw [if_neg hm, Nat.add_zero]
    by_cases hid : m.id = name
    · rw [if_pos hid, if_neg (by simp), hid, hget, if_neg (by simpa using hm)]
    · rw [if_neg hid]

end Listed

theorem count_snoc {α : Type} [DecidableEq α] (l : List α) (a b : α) :
    (l ++ [a]).count b = l.count b + if a = b then 1 else 0 := by
  rw [count_append, count_singleton]
  congr 1
  by_cases h : a = b <;> simp [h]

section Steps

variable {s t : State} {i : Nat}

/-- The unloads that a new call has still to make. -/
theorem pending_begin (s : State) (call : List Section) (m : Module) :
    pending (s.begin call) m = pending s m + call.count (.onUnload m) := by
  rw [pending, State.begin, map_append, sum_append, map_singleton, sum_singleton, pending]

variable {call rest : List Section}

/-- The unloads still to be made, after call `i` has moved. -/
theorem pending_at (hi : s.calls[i]? = some call) (call' : List Section) (m : Module) :
    pending (s.at i call') m + call.count (.onUnload m) = pending s m + call'.count (.onUnload m) :=
  sum_moved hi

/-- A call that begins unloads nothing yet. -/
theorem good_begin (h : Good s) (hcall : ∀ m, call.count (.onUnload m) = 0) :
    Good (s.begin call) where
  tables := h.tables
  once := h.once
  balance m := by
    rw [pending_begin, hcall]
    exact h.balance m

/-- The section of `del` hands what it removes to `onUnload`. -/
theorem good_del (h : Good s) {name : String} (hi : s.calls[i]? = some (.del name :: rest)) :
    Good { s.at i ((s.tables.del name).1.toList.map .onUnload ++ rest) with
      tables := (s.tables.del name).2 } where
  tables := h.tables.del name
  once := h.once
  balance m := by
    have hbal := h.balance m
    have hmove := pending_at hi ((s.tables.del name).1.toList.map .onUnload ++ rest) m
    show s.unloaded.count m + pending (s.at i _) m + listed (s.tables.del name).2 m
      = s.added.count m
    rw [count_cons_of_ne (by simp)] at hmove
    cases hget : s.tables.get name with
    | none =>
      rw [Tables.del_none hget] at hmove ⊢
      simp only [Option.toList_none, map_nil, nil_append] at hmove ⊢
      omega
    | some m₀ =>
      have hlist := listed_del h.tables hget m
      have hcount : ((s.tables.del name).1.toList.map Section.onUnload ++ rest).count
          (.onUnload m) = rest.count (.onUnload m) + if m₀ = m then 1 else 0 := by
        rw [Tables.del_fst, hget, Option.toList_some, map_singleton, singleton_append, count_cons]
        congr 1
        by_cases hm : m₀ = m <;> simp [hm]
      omega

/-- `onUnload` is called: a pending unload becomes one that was made. -/
theorem good_onUnload (h : Good s) {m₀ : Module} (hi : s.calls[i]? = some (.onUnload m₀ :: rest)) :
    Good { s.at i rest with unloaded := s.unloaded ++ [m₀] } where
  tables := h.tables
  once := h.once
  balance m := by
    have hbal := h.balance m
    have hmove := pending_at hi rest m
    show (s.unloaded ++ [m₀]).count m + pending (s.at i rest) m + listed s.tables m
      = s.added.count m
    rw [count_snoc]
    by_cases hm : m₀ = m
    · subst hm
      rw [count_cons_self] at hmove
      rw [if_pos rfl]
      omega
    · rw [count_cons_of_ne (by simpa using hm)] at hmove
      rw [if_neg hm]
      omega

/-- A new module under a free id. -/
theorem good_insert (h : Good s) {m₀ : Module} (hi : s.calls[i]? = some (.insert m₀ :: rest))
    (hfree : s.tables.get m₀.id = none) (hnew : m₀ ∉ s.added) :
    Good { s.at i rest with
      tables := s.tables.insert m₀, added := s.added ++ [m₀] } where
  tables := h.tables.insert hfree
  once := nodup_append.mpr ⟨h.once, nodup_singleton _, fun a ha b hb hab =>
    hnew (by rw [← mem_singleton.mp hb, ← hab]; exact ha)⟩
  balance m := by
    have hbal := h.balance m
    have hmove := pending_at hi rest m
    have hlist := listed_insert hfree m
    show s.unloaded.count m + pending (s.at i rest) m + listed (s.tables.insert m₀) m
      = (s.added ++ [m₀]).count m
    rw [count_cons_of_ne (by simp)] at hmove
    rw [count_snoc, hlist]
    omega

/-- The copy of `delAll` only adds deletions. -/
theorem good_copied (h : Good s) {names : List String} (hi : s.calls[i]? = some (.copy :: rest)) :
    Good (s.at i (names.map .del ++ rest)) where
  tables := h.tables
  once := h.once
  balance m := by
    have hbal := h.balance m
    have hmove := pending_at hi (names.map .del ++ rest) m
    show s.unloaded.count m + pending (s.at i _) m + listed s.tables m = s.added.count m
    have hnone : (names.map Section.del).count (.onUnload m) = 0 :=
      count_eq_zero_of_not_mem (by simp)
    rw [count_cons_of_ne (by simp), count_append, hnone] at hmove
    omega

/-- **ONE SECTION** of a call that inserts under a free id. -/
theorem good_step {a : Act} (h : Good s) (hfree : Free s a) (hstep : step s a = some t) :
    Good t := by
  unfold step at hstep
  split at hstep
  · cases hstep
    exact good_begin h fun m => count_eq_zero_of_not_mem (by simp)
  · cases hstep
    exact good_begin h fun m => count_eq_zero_of_not_mem (by simp)
  · cases hstep
    exact good_begin h fun m => count_eq_zero_of_not_mem (by simp)
  · split at hstep
    · next hi =>
      cases hstep
      exact good_del h hi
    · next hi =>
      cases hstep
      exact good_onUnload h hi
    · next hi =>
      cases hstep
      obtain ⟨hget, hnew⟩ := hfree.insert hi
      exact good_insert h hi hget hnew
    · cases hstep
  · split at hstep
    · next hi =>
      split at hstep
      · cases hstep
        exact good_copied h hi
      · cases hstep
    · cases hstep

end Steps

/-- No call is in progress. -/
def Idle (s : State) : Prop := ∀ call ∈ s.calls, call = []

/-- Without calls in progress no `onUnload` is to come. -/
theorem pending_of_idle {s : State} (h : Idle s) (m : Module) : pending s m = 0 := by
  have hnone : s.calls.map (fun call => call.count (.onUnload m)) = s.calls.map fun _ => 0 :=
    map_congr_left fun call hcall => by rw [h call hcall]; rfl
  rw [pending, hnone, map_const', sum_replicate_nat, Nat.mul_zero]

/-- **THE REGISTRY IS CONSISTENT** in every state between two sections, along every run that
inserts under free ids: the two listings enumerate the same modules, and once all calls
have returned every module that is no longer listed has been unloaded exactly once. -/
theorem registry_consistent {s : State} (h : Reaches step Free init s) : Consistent s.tables
      ∧ s.tables.listAll.Perm (s.tables.m_type2Modules.keys.flatMap s.tables.listByType)
      ∧ (Idle s → ∀ m ∈ s.added, m ∉ s.tables.listAll → s.unloaded.count m = 1) := by
  have hgood : Good s := h.inv good_init fun hs hfree hstep => good_step hs hfree hstep
  refine ⟨hgood.tables, listAll_perm hgood.tables, fun hidle m hm hgone => ?_⟩
  have hbal := hgood.balance m
  rw [hgood.tables.mem_listAll] at hgone
  rw [pending_of_idle hidle, listed, if_neg hgone, count_eq_one_of_mem hgood.once hm] at hbal
  exact hbal

/-- Two versions of a module, the second one under another type. -/
def oldEcho : Module := ⟨0, "echo/1.0", 0⟩

/-- The module that replaces the old one. -/
def newEcho : Module := ⟨1, "echo/1.0", 1⟩

/-- The first one is added and replaced by the second. -/
def replaced : List Act :=
  [.add oldEcho, .next 0, .next 0, .add newEcho, .next 1, .next 1, .next 1]

/-- Adding a module under a used id unloads the old one. -/
theorem registry_consistent_replaced :
    ∃ s, exec step init replaced = some s ∧ s.tables.listAll = [newEcho]
      ∧ s.unloaded.count oldEcho = 1 := by
  obtain ⟨s, hrun⟩ : ∃ s, exec step init replaced = some s := ⟨_, rfl⟩
  have halong : Along step Free init replaced := by decide
  have h := registry_consistent (reaches_of_exec halong hrun)
  cases hrun
  exact ⟨_, rfl, rfl, h.2.2 (by unfold Idle; decide) oldEcho (by decide) (by decide)⟩

/-- Both calls of `add` go through `del` before either inserts. -/
def addedAtOnce : List Act :=
  [.add oldEcho, .add newEcho, .next 0, .next 1, .next 0, .next 1]

/-- **TWO CALLS OF `add` FOR ONE ID AT ONCE**: the first module is gone from `m_modules`, but stays
listed under its type and is not unloaded. -/
theorem stale_type_entry : ∃ s, exec step init addedAtOnce = some s ∧ Idle s
      ∧ s.tables.listAll = [newEcho] ∧ s.tables.listByType oldEcho.type = [oldEcho]
      ∧ s.unloaded = [] ∧ ¬ Consistent s.tables := by
  obtain ⟨s, hs⟩ : ∃ s, exec step init addedAtOnce = some s := ⟨_, rfl⟩
  have hend : (exec step init addedAtOnce).map (fun s => (s.calls, s.tables.listAll,
    s.tables.listByType oldEcho.type, s.unloaded)) = some ([[], []], [newEcho], [oldEcho], [])
    := rfl
  rw [hs, Option.map_some, Option.some.injEq, Prod.mk.injEq, Prod.mk.injEq, Prod.mk.injEq] at hend
  obtain ⟨hcalls, hall, htype, hunload⟩ := hend
  refine ⟨s, hs, ?_, hall, htype, hunload, fun h => ?_⟩
  · rw [Idle, hcalls]
    decide
  · have hmem : oldEcho ∈ s.tables.listByType oldEcho.type := by
      rw [htype]
      exact mem_singleton_self _
    have hlisted := (h.mem_listByType.mp hmem).1
    rw [hall] at hlisted
    exact absurd hlisted (by decide)

end SylarModule
