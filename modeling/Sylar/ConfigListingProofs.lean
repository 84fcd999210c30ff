import Mathlib.Data.List.Basic

/-! # The members of a configuration (`config.cc`)

`ListAllMember` goes through a YAML tree and lists the nodes under names made of the
keys on the way, joined by dots.  A name with a character outside its filter is left
out, with everything below it.

* **`listAllMember_eq`** — the listing is the list of all paths of the tree, under the
  names that `spell` makes of them, without the names that the filter rejects.
* **`spell_eq_dotted`** — a path that does not begin with an empty key is spelled with
  dots between its keys; one that does loses its empty keys at the front. -/

namespace SylarConfig

open List

abbrev Name := List Char

/-! ## The code -/

mutual

/-- `YAML::Node`: a scalar, a map, or something else with the text it is written as. -/
inductive Node where
  | scalar (text : List Char)
  | map (entries : Entries)
  | other (text : List Char)

/-- The entries of a map in the order of its iterator, by `first.Scalar()`. -/
inductive Entries where
  | nil
  | cons (key : Name) (node : Node) (rest : Entries)

end

/-- `std::string::find_first_not_of`; `none` is `npos`. -/
def find_first_not_of (s chars : List Char) : Option Nat := s.findIdx? fun c => c ∉ chars

/-- What `ListAllMember` lets pass. -/
def listChars : List Char := "abcdefghikjlmnopqrstuvwxyz._012345678".toList

/-- The name of a member: `prefix.empty() ? key : prefix + "." + key`. -/
def member (pre key : Name) : Name := if pre.isEmpty then key else pre ++ '.' :: key

mutual

def listAllMember (pre : Name) : Node → List (Name × Node)
  | .map entries =>
    if (find_first_not_of pre listChars).isSome then []
    else (pre, .map entries) :: listEntries pre entries
  | .scalar text =>
    if (find_first_not_of pre listChars).isSome then [] else [(pre, .scalar text)]
  | .other text =>
    if (find_first_not_of pre listChars).isSome then [] else [(pre, .other text)]

def listEntries (pre : Name) : Entries → List (Name × Node)
  | .nil => []
  | .cons key node rest => listAllMember (member pre key) node ++ listEntries pre rest

end

/-! ## Paths -/

mutual

/-- All paths of a tree with their nodes, in the order of the traversal. -/
def Node.paths : Node → List (List Name × Node)
  | .map entries => ([], .map entries) :: entries.paths
  | .scalar text => [([], .scalar text)]
  | .other text => [([], .other text)]

def Entries.paths : Entries → List (List Name × Node)
  | .nil => []
  | .cons key node rest =>
    (node.paths.map fun (path, node) => (key :: path, node)) ++ rest.paths

end

/-- The keys of a path, joined by dots. -/
def dotted (path : List Name) : Name := ['.'].intercalate path

/-- The name under which a path is listed. -/
def spell : Name → List Name → Name
  | pre, [] => pre
  | pre, key :: path => spell (member pre key) path

/-- The filter lets the name pass. -/
def listed (name : Name) : Bool := (find_first_not_of name listChars).isNone

variable {name pre : Name} {path : List Name}

theorem listed_iff : listed name = true ↔ ∀ c ∈ name, c ∈ listChars := by
  rw [listed, Option.isNone_iff_eq_none, find_first_not_of, findIdx?_eq_none_iff]
  simp only [decide_eq_false_iff_not, not_not]

theorem spell_of_ne_nil (h : pre ≠ []) (path : List Name) :
    spell pre path = pre ++ path.flatMap ('.' :: ·) := by
  induction path generalizing pre with
  | nil => exact (append_nil pre).symm
  | cons key path ih =>
    have hmember : member pre key = pre ++ '.' :: key := by
      rw [member, if_neg]
      rwa [List.isEmpty_iff]
    have hne : pre ++ '.' :: key ≠ [] := append_ne_nil_of_left_ne_nil h _
    rw [spell, hmember, ih hne, append_assoc]
    rfl

/-- A name is a front part of the names below it. -/
theorem prefix_spell (pre : Name) (path : List Name) : pre <+: spell pre path := by
  by_cases h : pre = []
  · rw [h]
    exact nil_prefix
  · rw [spell_of_ne_nil h]
    exact prefix_append _ _

private theorem listed_of_spell (h : listed (spell pre path) = true) : listed pre = true :=
  listed_iff.mpr fun c hc => listed_iff.mp h c ((prefix_spell pre path).subset hc)

/-- What is listed of some paths below a name. -/
def listing (pre : Name) (paths : List (List Name × Node)) : List (Name × Node) :=
  (paths.map fun (path, node) => (spell pre path, node)).filter fun e => listed e.1

private theorem listing_append (pre : Name) (a b : List (List Name × Node)) :
    listing pre (a ++ b) = listing pre a ++ listing pre b := by
  rw [listing, map_append, filter_append]
  rfl

theorem listing_key (pre key : Name) (paths : List (List Name × Node)) :
    listing pre (paths.map fun (path, node) => (key :: path, node))
      = listing (member pre key) paths := by
  rw [listing, map_map]
  rfl

/-- Below a name that is left out everything is left out. -/
theorem listing_of_not_listed (h : listed pre = false) (paths : List (List Name × Node)) :
    listing pre paths = [] := by
  refine filter_eq_nil_iff.mpr fun e he hlisted => ?_
  obtain ⟨⟨path, node⟩, -, rfl⟩ := mem_map.mp he
  exact Bool.false_ne_true (h.symm.trans (listed_of_spell hlisted))

private theorem isSome_eq_not_listed (name : Name) :
    (find_first_not_of name listChars).isSome = !listed name := by
  rw [listed]
  cases find_first_not_of name listChars <;> rfl

mutual

/-- **THE LISTING**, by induction on the tree. -/
theorem listAllMember_eq (pre : Name) (node : Node) :
    listAllMember pre node = listing pre node.paths := by
  cases hpre : listed pre with
  | false =>
    rw [listing_of_not_listed hpre]
    cases node <;> rw [listAllMember, isSome_eq_not_listed, hpre] <;> rfl
  | true =>
    have hhere : ∀ node, listing pre [([], node)] = [(pre, node)] := by
      intro node
      show [(pre, node)].filter (fun e => listed e.1) = _
      rw [filter_singleton, hpre, cond_true]
    cases node with
    | scalar text =>
      rw [listAllMember, isSome_eq_not_listed, hpre, Node.paths, hhere]
      rfl
    | other text =>
      rw [listAllMember, isSome_eq_not_listed, hpre, Node.paths, hhere]
      rfl
    | map entries =>
      have hsplit : listing pre (([], .map entries) :: entries.paths)
          = listing pre [([], .map entries)] ++ listing pre entries.paths :=
        listing_append pre [([], .map entries)] entries.paths
      rw [listAllMember, isSome_eq_not_listed, hpre, Node.paths, hsplit, hhere,
        ← listEntries_eq pre entries]
      rfl

theorem listEntries_eq (pre : Name) (entries : Entries) :
    listEntries pre entries = listing pre entries.paths := by
  cases entries with
  | nil => rfl
  | cons key node rest =>
    rw [listEntries, Entries.paths, listing_append, listing_key,
      listAllMember_eq (member pre key) node, listEntries_eq pre rest]

end

/-! ## Names -/

theorem dotted_cons (key : Name) (path : List Name) :
    dotted (key :: path) = key ++ path.flatMap ('.' :: ·) := by
  induction path generalizing key with
  | nil => rfl
  | cons next path ih =>
    rw [flatMap_cons, cons_append, ← ih next]
    rfl

/-- **Without an empty key at the front** a path is spelled with its dots. -/
theorem spell_eq_dotted (h : path.head? ≠ some []) :
    spell [] path = dotted path := by
  cases path with
  | nil => rfl
  | cons key path =>
    have hkey : key ≠ [] := fun heq => h (congrArg some heq)
    rw [dotted_cons, spell, ← spell_of_ne_nil hkey]
    rfl

/-- The empty keys at the front of a path are lost. -/
theorem spell_eq_dropWhile (path : List Name) :
    spell [] path = dotted (path.dropWhile List.isEmpty) := by
  induction path with
  | nil => rfl
  | cons key path ih =>
    by_cases hkey : key = []
    · rw [hkey, dropWhile_cons_of_pos (by rfl), ← ih]
      rfl
    · rw [dropWhile_cons_of_neg (by rwa [List.isEmpty_iff])]
      exact spell_eq_dotted fun hhead => hkey (Option.some.inj hhead)

/-- The filter lets no upper-case letter pass. -/
theorem toLower_of_listed (h : listed name = true) :
    name.map Char.toLower = name := by
  have hlower : listChars.all (fun c => c.toLower == c) = true := by decide
  have hsame : ∀ c ∈ name, c.toLower = id c := fun c hc =>
    beq_iff_eq.mp (all_eq_true.mp hlower c (listed_iff.mp h c hc))
  calc name.map Char.toLower
      = name.map id := map_congr_left hsame
    _ = name := map_id name

end SylarConfig
