import Mathlib.Data.List.Basic
import Mathlib.Algebra.Group.Nat.Defs

/-! # Trimming (`util.cc`)

`Trim`, `TrimLeft` and `TrimRight` look for the first and the last character outside of
`delimit`.  `TrimRight` ends in front of the last one, so it takes one character too many.

* **`trim_laws_iff`** — the laws hold exactly for strings of delimiters. -/

namespace SylarTrim

variable {str delimit : List Char}

/-! ## The code -/

/-- `std::string::npos`. -/
def npos : Nat := 2 ^ 64 - 1

def find_first_not_of (str delimit : List Char) : Option Nat := str.findIdx? (· ∉ delimit)

def find_last_not_of (str delimit : List Char) : Option Nat :=
  (str.reverse.findIdx? (· ∉ delimit)).map (str.length - 1 - ·)

def substr (str : List Char) (pos n : Nat) : List Char := (str.drop pos).take n

/-- `StringUtil::Trim`. -/
def Trim (str delimit : List Char) : List Char :=
  match find_first_not_of str delimit with
  | none => []
  | some begin =>
    let last := (find_last_not_of str delimit).getD npos
    substr str begin (last - begin + 1)

/-- `StringUtil::TrimLeft`. -/
def TrimLeft (str delimit : List Char) : List Char :=
  match find_first_not_of str delimit with
  | none => []
  | some begin => str.drop begin

/-- `StringUtil::TrimRight`. -/
def TrimRight (str delimit : List Char) : List Char :=
  match find_last_not_of str delimit with
  | none => []
  | some last => substr str 0 last

/-! ## The laws -/

/-- The longest suffix that does not start with a delimiter. -/
structure LongestSuffix (str delimit t : List Char) : Prop where
  suffix : t <:+ str
  start : ∀ c ∈ t.head?, c ∉ delimit
  longest : ∀ u, u <:+ str → (∀ c ∈ u.head?, c ∉ delimit) → u.length ≤ t.length

/-- The longest prefix that does not end with one. -/
structure LongestPrefix (str delimit t : List Char) : Prop where
  isPrefix : t <+: str
  last : ∀ c ∈ t.getLast?, c ∉ delimit
  longest : ∀ u, u <+: str → (∀ c ∈ u.getLast?, c ∉ delimit) → u.length ≤ t.length

/-- The laws of trimming. -/
structure TrimLaws (str delimit : List Char) : Prop where
  left_right : Trim str delimit = TrimLeft (TrimRight str delimit) delimit
  right_left : Trim str delimit = TrimRight (TrimLeft str delimit) delimit
  left : LongestSuffix str delimit (TrimLeft str delimit)
  right : LongestPrefix str delimit (TrimRight str delimit)
  trim_idem : Trim (Trim str delimit) delimit = Trim str delimit
  left_idem : TrimLeft (TrimLeft str delimit) delimit = TrimLeft str delimit
  right_idem : TrimRight (TrimRight str delimit) delimit = TrimRight str delimit

/-! ## What they do -/

private theorem find_first_eq_none_iff :
    find_first_not_of str delimit = none ↔ ∀ c ∈ str, c ∈ delimit := by
  simp [find_first_not_of, List.findIdx?_eq_none_iff]

private theorem find_last_eq_none_iff :
    find_last_not_of str delimit = none ↔ ∀ c ∈ str, c ∈ delimit := by
  simp [find_last_not_of, List.findIdx?_eq_none_iff]

theorem getElem?_find_last {last : Nat} (h : find_last_not_of str delimit = some last) :
    ∃ c, str[last]? = some c ∧ c ∉ delimit := by
  obtain ⟨i, hi, rfl⟩ := Option.map_eq_some_iff.mp h
  obtain ⟨hlt, hc, -⟩ := List.findIdx?_eq_some_iff_getElem.mp hi
  rw [List.length_reverse] at hlt
  refine ⟨str.reverse[i], ?_, of_decide_eq_true hc⟩
  rw [List.getElem_reverse, List.getElem?_eq_getElem]

/-- A string of delimiters has no other prefix or suffix than the empty one to leave. -/
theorem TrimLaws.of_delimiters (h : ∀ c ∈ str, c ∈ delimit) : TrimLaws str delimit := by
  have hfirst := find_first_eq_none_iff.mpr h
  have hlast := find_last_eq_none_iff.mpr h
  have htrim : Trim str delimit = [] := by rw [Trim, hfirst]
  have hleft : TrimLeft str delimit = [] := by rw [TrimLeft, hfirst]
  have hright : TrimRight str delimit = [] := by rw [TrimRight, hlast]
  refine ⟨by rw [htrim, hright]; rfl, by rw [htrim, hleft]; rfl, ?_, ?_, by rw [htrim]; rfl,
    by rw [hleft]; rfl, by rw [hright]; rfl⟩
  · rw [hleft]
    refine ⟨List.nil_suffix, nofun, fun u hu hstart => ?_⟩
    cases u with
    | nil => exact Nat.le_refl _
    | cons c u => exact absurd (h c (hu.subset List.mem_cons_self)) (hstart c rfl)
  · rw [hright]
    refine ⟨ List.nil_prefix, nofun, fun u hu hend => ?_⟩
    rcases List.eq_nil_or_concat u with rfl | ⟨u, c, rfl⟩
    · exact Nat.le_refl _
    · exact absurd (h c (hu.subset (by simp))) (hend c (by simp))

/-- **The laws hold exactly for strings of delimiters**: else `TrimRight` takes a character that is
to stay. -/
theorem trim_laws_iff (str delimit : List Char) :
    TrimLaws str delimit ↔ ∀ c ∈ str, c ∈ delimit := by
  refine ⟨fun h => ?_, TrimLaws.of_delimiters⟩
  rw [← find_last_eq_none_iff, Option.eq_none_iff_forall_ne_some]
  intro last hlast
  obtain ⟨c, hc, hout⟩ := getElem?_find_last hlast
  have hlt := (List.getElem?_eq_some_iff.mp hc).1
  have htake : str.take (last + 1) = str.take last ++ [c] := by
    rw [List.take_add_one, hc]
    rfl
  have hlonger := h.right.longest (str.take (last + 1)) ( List.take_prefix _ _) (by
    simp [htake, hout])
  rw [TrimRight, hlast] at hlonger
  simp [substr] at hlonger
  omega

/-- `"a"` has no blanks to take, and nothing is left of it. -/
theorem trimRight_takes_last :
    TrimRight ['a'] [' '] = [] ∧ Trim ['a'] [' '] = ['a'] ∧ ¬ TrimLaws ['a'] [' '] := by
  refine ⟨rfl, rfl, fun h => ?_⟩
  exact absurd h.left_right (by decide)

end SylarTrim
