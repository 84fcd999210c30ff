import Mathlib.Data.List.Basic

/-! # Ordered maps that compare keys up to a folding

A map that orders its keys by what a function makes of them, kept as a
sorted list.  Two keys with the same folding are one key; an assignment to a
key that is there keeps the spelling that is there.

* **`sorted_set`** — an assignment keeps the order.
* **`lookup_set_self`**, **`lookup_set_ne`** — what is found after an assignment.
* **`lookup_setAll`** — the last of several assignments wins.
* **`setAll_singleton`** — assigning the entries of a sorted map, in their
  order, to a map with one other entry. -/

namespace FoldedMap

open List

variable {α β κ : Type} [LT κ] [DecidableLT κ] (fold : α → κ)

/-- `m[k] = v`. -/
def set (k : α) (v : β) : List (α × β) → List (α × β)
  | [] => [(k, v)]
  | (a, b) :: rest =>
    if fold k < fold a then (k, v) :: (a, b) :: rest
    else if fold a < fold k then (a, b) :: set k v rest
    else (a, v) :: rest

/-- `m.find(k)`. -/
def lookup (k : α) (m : List (α × β)) : Option β :=
  (m.find? fun e => !decide (fold k < fold e.1) && !decide (fold e.1 < fold k)).map
    Prod.snd

/-- Assignments from left to right. -/
def setAll (es m : List (α × β)) : List (α × β) :=
  es.foldl (fun m e => set fold e.1 e.2 m) m

/-- The order of the map. -/
def Sorted (m : List (α × β)) : Prop :=
  m.Pairwise fun a b => fold a.1 < fold b.1

theorem setAll_append (es fs m : List (α × β)) :
    setAll fold (es ++ fs) m = setAll fold fs (setAll fold es m) :=
  foldl_append

variable {fold}

variable {e : α × β} {k k' : α} {m : List (α × β)} {v : β} {a b : κ}

/-- The keys after an assignment. -/
theorem fold_mem_set (h : e ∈ set fold k v m) :
    fold e.1 = fold k ∨ ∃ e' ∈ m, fold e'.1 = fold e.1 := by
  induction m with
  | nil =>
    rw [set, mem_singleton] at h
    exact Or.inl (h ▸ rfl)
  | cons x rest ih =>
    obtain ⟨a, b⟩ := x
    rw [set] at h
    split_ifs at h
    · rcases mem_cons.mp h with rfl | h
      · exact Or.inl rfl
      · exact Or.inr ⟨e, h, rfl⟩
    · rcases mem_cons.mp h with rfl | h
      · exact Or.inr ⟨_, mem_cons_self, rfl⟩
      · refine (ih h).imp id ?_
        rintro ⟨e', he', hfold⟩
        exact ⟨e', mem_cons_of_mem _ he', hfold⟩
    · rcases mem_cons.mp h with rfl | h
      · exact Or.inr ⟨_, mem_cons_self, rfl⟩
      · exact Or.inr ⟨e, mem_cons_of_mem _ h, rfl⟩

section Values

variable {γ : Type} (f : β → γ)

omit [DecidableLT κ] in
/-- Other values do not change the order. -/
theorem Sorted.map_values {m : List (α × β)} (h : Sorted fold m) :
    Sorted fold (m.map fun e => (e.1, f e.2)) :=
  pairwise_map.mpr h

theorem lookup_map_values (k : α) (m : List (α × β)) :
    lookup fold k (m.map fun e => (e.1, f e.2)) = (lookup fold k m).map f := by
  rw [lookup, lookup, find?_map, Option.map_map, Option.map_map]
  rfl

end Values

variable [Std.Irrefl (α := κ) (· < ·)] [Std.Trichotomous (α := κ) (· < ·)]

omit [DecidableLT κ] in
/-- Neither key comes first: they are one key. -/
theorem not_lt_iff : ¬ a < b ∧ ¬ b < a ↔ a = b := by
  constructor
  · rintro ⟨hab, hba⟩
    rcases Std.lt_trichotomy a b with h | h | h
    · exact absurd h hab
    · exact h
    · exact absurd h hba
  · rintro rfl
    exact ⟨Std.lt_irrefl, Std.lt_irrefl⟩

theorem same_eq (a b : κ) : (!decide (a < b) && !decide (b < a)) = true ↔ a = b := by
  rw [Bool.and_eq_true, Bool.not_eq_true', Bool.not_eq_true', decide_eq_false_iff_not,
    decide_eq_false_iff_not]
  exact not_lt_iff

theorem lookup_cons (k : α) (e : α × β) (m : List (α × β)) :
    fold k = fold e.1 ∧ lookup fold k (e :: m) = some e.2
      ∨ fold k ≠ fold e.1 ∧ lookup fold k (e :: m) = lookup fold k m := by
  rw [lookup, lookup, find?_cons]
  by_cases h : fold k = fold e.1
  · rw [(same_eq _ _).mpr h]
    exact Or.inl ⟨h, rfl⟩
  · rw [Bool.eq_false_iff.mpr fun hsame => h ((same_eq _ _).mp hsame)]
    exact Or.inr ⟨h, rfl⟩

theorem lookup_cons_self (h : fold k = fold e.1) :
    lookup fold k (e :: m) = some e.2 :=
  ((lookup_cons k e m).resolve_right fun h' => h'.1 h).2

theorem lookup_cons_ne (h : fold k ≠ fold e.1) :
    lookup fold k (e :: m) = lookup fold k m :=
  ((lookup_cons k e m).resolve_left fun h' => h h'.1).2

/-- A key that is not there. -/
theorem lookup_eq_none (h : ∀ e ∈ m, fold k ≠ fold e.1) :
    lookup fold k m = none := by
  induction m with
  | nil => rfl
  | cons e m ih =>
    obtain ⟨he, hm⟩ := forall_mem_cons.mp h
    rw [lookup_cons_ne he, ih hm]

/-- **A key that was assigned** is found with the new value. -/
theorem lookup_set_self (h : fold k = fold k') (v : β) (m : List (α × β)) :
    lookup fold k (set fold k' v m) = some v := by
  induction m with
  | nil => exact lookup_cons_self h
  | cons x rest ih =>
    obtain ⟨a, b⟩ := x
    rw [set]
    split_ifs with hka hak
    · exact lookup_cons_self h
    · rw [lookup_cons_ne, ih]
      rintro heq
      rw [← h, heq] at hak
      exact Std.lt_irrefl hak
    · exact lookup_cons_self (h.trans (not_lt_iff.mp ⟨hka, hak⟩))

/-- **Another key** is found as before. -/
theorem lookup_set_ne (h : fold k ≠ fold k') (v : β) (m : List (α × β)) :
    lookup fold k (set fold k' v m) = lookup fold k m := by
  induction m with
  | nil => exact lookup_cons_ne h
  | cons x rest ih =>
    obtain ⟨a, b⟩ := x
    rw [set]
    split_ifs with hka hak
    · exact lookup_cons_ne h
    · by_cases hk : fold k = fold a
      · rw [lookup_cons_self hk, lookup_cons_self hk]
      · rw [lookup_cons_ne hk, lookup_cons_ne hk, ih]
    · have hne : fold k ≠ fold a := (not_lt_iff.mp ⟨hka, hak⟩) ▸ h
      rw [lookup_cons_ne hne, lookup_cons_ne hne]

/-- Leaving out other keys does not matter for a key. -/
theorem lookup_filter {p : α × β → Bool} (h : ∀ e ∈ m, fold k = fold e.1 → p e = true) :
    lookup fold k (m.filter p) = lookup fold k m := by
  induction m with
  | nil => rfl
  | cons e m ih =>
    obtain ⟨he, hm⟩ := forall_mem_cons.mp h
    have hrest := ih hm
    by_cases hp : p e = true
    · rw [filter_cons_of_pos hp]
      by_cases hk : fold k = fold e.1
      · rw [lookup_cons_self hk, lookup_cons_self hk]
      · rw [lookup_cons_ne hk, lookup_cons_ne hk, hrest]
    · rw [filter_cons_of_neg hp, hrest, lookup_cons_ne fun hk => hp (he hk)]

/-- **The last assignment wins.** -/
theorem lookup_setAll [DecidableEq κ] (k : α) (es m : List (α × β)) :
    lookup fold k (setAll fold es m)
      = ((es.filter fun e => fold e.1 = fold k).getLast?.map Prod.snd).or (lookup fold k m) := by
  induction es generalizing m with
  | nil => rfl
  | cons e es ih =>
    show lookup fold k (setAll fold es (set fold e.1 e.2 m)) = _
    rw [ih]
    by_cases hk : fold e.1 = fold k
    · rw [lookup_set_self hk.symm, filter_cons, if_pos (decide_eq_true hk), getLast?_cons]
      cases (es.filter fun e => fold e.1 = fold k).getLast? <;> rfl
    · rw [lookup_set_ne (Ne.symm hk), filter_cons, if_neg (by rwa [decide_eq_true_eq])]

variable [Trans (α := κ) (β := κ) (γ := κ) (· < ·) (· < ·) (· < ·)]

omit [DecidableLT κ] [Std.Trichotomous (α := κ) (· < ·)] in
theorem not_lt_of_lt (h : a < b) : ¬ b < a :=
  fun hba => Std.lt_irrefl (Std.lt_trans h hba)

omit [Std.Irrefl (α := κ) (· < ·)] [Std.Trichotomous (α := κ) (· < ·)] in
/-- **An assignment keeps the order.** -/
theorem sorted_set (h : Sorted fold m) (k : α) (v : β) :
    Sorted fold (set fold k v m) := by
  induction m with
  | nil => exact pairwise_singleton _ _
  | cons x rest ih =>
    obtain ⟨a, b⟩ := x
    obtain ⟨hfirst, hrest⟩ := pairwise_cons.mp h
    rw [set]
    split_ifs with hka hak
    · refine pairwise_cons.mpr ⟨?_, h⟩
      rintro e (_ | ⟨_, he⟩)
      · exact hka
      · exact Std.lt_trans hka (hfirst e he)
    · refine pairwise_cons.mpr ⟨fun e he => ?_, ih hrest⟩
      rcases fold_mem_set he with heq | ⟨e', he', heq⟩
      · rw [heq]
        exact hak
      · rw [← heq]
        exact hfirst e' he'
    · exact pairwise_cons.mpr ⟨hfirst, hrest⟩

omit [Std.Trichotomous (α := κ) (· < ·)] in
/-- A key behind all others is put at the end. -/
theorem set_last (h : ∀ e ∈ m, fold e.1 < fold k) :
    set fold k v m = m ++ [(k, v)] := by
  induction m with
  | nil => rfl
  | cons x rest ih =>
    obtain ⟨a, b⟩ := x
    obtain ⟨ha, hrest⟩ := forall_mem_cons.mp h
    rw [set, if_neg (not_lt_of_lt ha), if_pos ha, ih hrest, cons_append]

/-- Two assignments of which one is to a key behind all that are there. -/
theorem set_set_last {x : α} {y : β} (h : ∀ e ∈ m, fold e.1 < fold x) (hne : fold x ≠ fold k) :
    set fold x y (set fold k v m) = set fold k v (m ++ [(x, y)]) := by
  induction m with
  | nil =>
    rcases Std.lt_trichotomy (fold x) (fold k) with hlt | heq | hlt
    · rw [nil_append, set, set, if_pos hlt, set, if_neg (not_lt_of_lt hlt), if_pos hlt, set]
    · exact absurd heq hne
    · rw [nil_append, set, set, if_neg (not_lt_of_lt hlt), if_pos hlt, set, set, if_pos hlt]
  | cons e rest ih =>
    obtain ⟨a, b⟩ := e
    obtain ⟨ha, hrest⟩ := forall_mem_cons.mp h
    rw [cons_append, set, set]
    split_ifs with hka hak
    · have hkx := Std.lt_trans hka ha
      rw [set, if_neg (not_lt_of_lt hkx), if_pos hkx, set, if_neg (not_lt_of_lt ha),
        if_pos ha, set_last hrest]
    · rw [set, if_neg (not_lt_of_lt ha), if_pos ha, ih hrest]
    · rw [set, if_neg (not_lt_of_lt ha), if_pos ha, set_last hrest]

theorem setAll_set (m pre : List (α × β)) (hsorted : Sorted fold (pre ++ m))
    (hne : ∀ e ∈ m, fold e.1 ≠ fold k) :
    setAll fold m (set fold k v pre) = set fold k v (pre ++ m) := by
  induction m generalizing pre with
  | nil =>
    rw [append_nil]
    rfl
  | cons e m ih =>
    obtain ⟨he, hm⟩ := forall_mem_cons.mp hne
    have hbefore : ∀ x ∈ pre, fold x.1 < fold e.1 := fun x hx =>
      (pairwise_append.mp hsorted).2.2 x hx e mem_cons_self
    show setAll fold m (set fold e.1 e.2 (set fold k v pre)) = _
    rw [set_set_last hbefore he, ih (pre ++ [e]) (by simpa using hsorted) hm,
      append_assoc, singleton_append]

/-- **The entries of a sorted map**, assigned in order to a map with one other entry, give the map
with that entry. -/
theorem setAll_singleton (h : Sorted fold m) (v : β) (hne : ∀ e ∈ m, fold e.1 ≠ fold k) :
    setAll fold m [(k, v)] = set fold k v m :=
  setAll_set m [] h hne

omit [Std.Trichotomous (α := κ) (· < ·)] in
/-- The same without another entry. -/
theorem setAll_nil (h : Sorted fold m) : setAll fold m [] = m := by
  suffices hgen : ∀ (m pre : List (α × β)), Sorted fold (pre ++ m) →
      setAll fold m pre = pre ++ m from hgen m [] h
  intro m
  induction m with
  | nil =>
    intro pre _
    rw [append_nil]
    rfl
  | cons e m ih =>
    intro pre hsorted
    have hbefore : ∀ x ∈ pre, fold x.1 < fold e.1 := fun x hx =>
      (pairwise_append.mp hsorted).2.2 x hx e mem_cons_self
    show setAll fold m (set fold e.1 e.2 pre) = _
    rw [set_last hbefore, ih (pre ++ [e]) (by simpa using hsorted), append_assoc, singleton_append]

/-- Assignments that have the same entries for a key as a sorted map. -/
theorem lookup_setAll_sorted [DecidableEq κ] {es : List (α × β)} (hm : Sorted fold m)
    (h : (es.filter fun e => fold e.1 = fold k) = m.filter fun e => fold e.1 = fold k) :
    lookup fold k (setAll fold es []) = lookup fold k m := by
  rw [lookup_setAll, h, ← lookup_setAll, setAll_nil hm]

end FoldedMap
