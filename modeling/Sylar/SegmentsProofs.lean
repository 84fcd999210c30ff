import Mathlib.Data.List.Basic

/-! # A stream cut into segments

What a reader of a stream meets is a list of segments; their concatenation
is the stream.  Taking `n` cells off the front removes segments and cuts
the one in which the `n` cells end.

* **`flatten_skip`**, **`skip_skip`** — taking cells off, in one step or two.
* **`isCut_skip`** — the cuts that are left are cuts of the whole. -/

namespace Segments

open List

variable {α : Type}

/-- What is left of the segments when `n` cells are taken off the front. -/
def skip : Nat → List (List α) → List (List α)
  | _, [] => []
  | n, seg :: segs =>
    if seg.length ≤ n then skip (n - seg.length) segs else seg.drop n :: segs

/-- A segment ends (and the next one begins) behind `c` cells. -/
def IsCut (segs : List (List α)) (c : Nat) : Prop :=
  ∃ before rest, segs = before ++ rest ∧ before.flatten.length = c

/-- No segment is empty. -/
def Solid (segs : List (List α)) : Prop := ∀ seg ∈ segs, seg ≠ []

variable {seg : List α} {segs : List (List α)} {c : Nat}

theorem solid_cons :
    Solid (seg :: segs) ↔ seg ≠ [] ∧ Solid segs :=
  forall_mem_cons

theorem flatten_skip (segs : List (List α)) (n : Nat) :
    (skip n segs).flatten = segs.flatten.drop n := by
  induction segs generalizing n with
  | nil => rw [skip, flatten_nil, drop_nil]
  | cons seg segs ih =>
    rw [skip, flatten_cons]
    split
    · next hle => rw [ih, drop_append, drop_eq_nil_of_le hle, nil_append]
    · next hle =>
      rw [flatten_cons, drop_append_of_le_length (by omega)]

theorem Solid.skip {segs : List (List α)} (h : Solid segs) (n : Nat) :
    Solid (Segments.skip n segs) := by
  induction segs generalizing n with
  | nil => exact h
  | cons seg segs ih =>
    obtain ⟨hseg, hsegs⟩ := solid_cons.mp h
    rw [Segments.skip]
    split
    · exact ih hsegs _
    · next hle =>
      refine solid_cons.mpr ⟨fun hnil => hle ?_, hsegs⟩
      exact drop_eq_nil_iff.mp hnil

theorem skip_zero (h : Solid segs) : skip 0 segs = segs := by
  cases segs with
  | nil => rfl
  | cons seg segs =>
    have hpos := length_pos_iff.mpr (solid_cons.mp h).1
    rw [skip, if_neg (by omega), drop_zero]

/-- Taking off exactly the first segment. -/
theorem skip_length (h : Solid segs) :
    skip seg.length (seg :: segs) = segs := by
  rw [skip, if_pos (Nat.le_refl _), Nat.sub_self, skip_zero h]

theorem skip_skip (segs : List (List α)) (n m : Nat) :
    skip m (skip n segs) = skip (n + m) segs := by
  induction segs generalizing n with
  | nil => rfl
  | cons seg segs ih =>
    by_cases hn : seg.length ≤ n
    · rw [skip, if_pos hn, ih, skip, if_pos (by omega),
        show n - seg.length + m = n + m - seg.length by omega]
    · rw [skip, if_neg hn, skip, skip, length_drop, drop_drop]
      by_cases hm : seg.length ≤ n + m
      · rw [if_pos (by omega), if_pos hm, show m - (seg.length - n) = n + m - seg.length by omega]
      · rw [if_neg (by omega), if_neg hm]

theorem isCut_nil : IsCut ([] : List (List α)) c ↔ c = 0 := by
  constructor
  · rintro ⟨before, rest, happ, rfl⟩
    obtain ⟨rfl, -⟩ := append_eq_nil_iff.mp happ.symm
    rfl
  · rintro rfl
    exact ⟨[], [], rfl, rfl⟩

theorem isCut_cons :
    IsCut (seg :: segs) c ↔ c = 0 ∨ ∃ d, IsCut segs d ∧ c = seg.length + d := by
  constructor
  · rintro ⟨before, rest, happ, rfl⟩
    cases before with
    | nil => exact Or.inl rfl
    | cons x before =>
      obtain ⟨rfl, rfl⟩ := cons.inj happ
      refine Or.inr ⟨_, ⟨before, rest, rfl, rfl⟩, ?_⟩
      rw [flatten_cons, length_append]
  · rintro (rfl | ⟨d, ⟨before, rest, rfl, rfl⟩, rfl⟩)
    · exact ⟨[], seg :: segs, rfl, rfl⟩
    · refine ⟨seg :: before, rest, rfl, ?_⟩
      rw [flatten_cons, length_append]

/-- A cut of what is left is a cut of the whole, apart from the new front. -/
theorem isCut_skip {n : Nat} (h : IsCut (skip n segs) c) :
    c = 0 ∨ IsCut segs (n + c) := by
  induction segs generalizing n with
  | nil => exact Or.inl (isCut_nil.mp h)
  | cons seg segs ih =>
    rw [skip] at h
    split at h
    · next hle =>
      refine (ih h).imp id fun hcut => isCut_cons.mpr (Or.inr ⟨_, hcut, ?_⟩)
      omega
    · next hle =>
      refine (isCut_cons.mp h).imp id ?_
      rintro ⟨d, hcut, rfl⟩
      refine isCut_cons.mpr (Or.inr ⟨d, hcut, ?_⟩)
      rw [length_drop]
      omega

end Segments
