import Mathlib.Order.Lattice
import Mathlib.Data.List.Basic

/-! # Ordered sets with a comparator

A set that keeps its elements in the order of a comparator, as a list.  The
comparator may read data that the elements only point to, so the order of a
list is a statement about the present data: whoever changes the data of an
element has to take it out first.

* **`mem_insert`**, **`sorted_insert`** — `insert`.
* **`remove_of_mem`** — an element of an ordered list is found and erased.
* **`Sorted.congr`** — data of elements outside the list may change.
* **`Sorted.not_of_mem_dropWhile`** — what a search leaves behind it. -/

namespace OrderedSet

open List

variable {α κ : Type} (lt : α → α → Bool)

/-- `insert(a)`: nothing happens if an equivalent element is there. -/
def insert (a : α) : List α → List α
  | [] => [a]
  | b :: l =>
    if lt a b then a :: b :: l
    else if lt b a then b :: insert a l
    else b :: l

/-- `erase(find(a))`; `none` if `find` gives `end()`. -/
def remove (a : α) : List α → Option (List α)
  | [] => none
  | b :: l =>
    if lt b a then (remove a l).map (b :: ·)
    else if lt a b then none
    else some l

/-- The part from `lower_bound(a)` on. -/
def lowerBound (a : α) (l : List α) : List α := l.dropWhile (lt · a)

/-- What stands first after `insert`. -/
theorem head_insert (a : α) (l : List α) :
    (insert lt a l).head? = some a ∨ (insert lt a l).head? = l.head? := by
  cases l with
  | nil => exact Or.inl rfl
  | cons b l =>
    rw [insert]
    split_ifs
    · exact Or.inl rfl
    · exact Or.inr rfl
    · exact Or.inr rfl

variable [LinearOrder κ]

/-- The comparator compares keys, and equivalent elements are equal. -/
structure OrderedBy (key : α → κ) : Prop where
  lt_iff : ∀ a b, lt a b = true ↔ key a < key b
  inj : Function.Injective key

/-- The elements stand in the order of their keys. -/
def Sorted (key : α → κ) (l : List α) : Prop := l.Pairwise fun a b => key a < key b

variable {lt} {key : α → κ}

theorem Sorted.nodup {l : List α} (h : Sorted key l) : l.Nodup :=
  h.imp fun hab heq => absurd (heq ▸ hab) (lt_irrefl _)

theorem Sorted.congr {l : List α} {key' : α → κ} (h : Sorted key l)
    (hkey : ∀ a ∈ l, key' a = key a) : Sorted key' l := by
  refine List.Pairwise.imp_of_mem (fun {a b} ha hb hab => ?_) h
  rw [hkey a ha, hkey b hb]
  exact hab

/-- **Skipping**: if what comes before a skipped element is skipped too, nothing
that would be skipped is left. -/
theorem Sorted.not_of_mem_dropWhile {l : List α} (h : Sorted key l) {p : α → Bool}
    (hp : ∀ a ∈ l, ∀ b ∈ l, key a < key b → p b = true → p a = true) :
    ∀ x ∈ l.dropWhile p, ¬ p x = true := by
  induction l with
  | nil => exact fun x hx => absurd hx not_mem_nil
  | cons b l ih =>
    obtain ⟨hb, hl⟩ := pairwise_cons.mp h
    by_cases hpb : p b = true
    · rw [dropWhile_cons_of_pos hpb]
      exact ih hl fun x hx y hy =>
        hp x (mem_cons_of_mem _ hx) y (mem_cons_of_mem _ hy)
    · rw [dropWhile_cons_of_neg hpb]
      intro x hx hpx
      rcases mem_cons.mp hx with rfl | hmem
      · exact hpb hpx
      · exact hpb (hp b mem_cons_self x hx (hb x hmem) hpx)

section Order

variable (ho : OrderedBy lt key)
include ho

/-- Neither comes first: they are one element. -/
theorem OrderedBy.eq_of_not_lt {a b : α} (hab : ¬ lt a b = true) (hba : ¬ lt b a = true) :
    a = b := by
  rw [ho.lt_iff] at hab hba
  exact ho.inj (le_antisymm (not_lt.mp hba) (not_lt.mp hab))

theorem mem_insert {a x : α} {l : List α} : x ∈ insert lt a l ↔ x = a ∨ x ∈ l := by
  induction l with
  | nil => rw [insert, mem_singleton, mem_nil_iff, or_false]
  | cons b l ih =>
    rw [insert]
    by_cases hab : lt a b = true
    · rw [if_pos hab, mem_cons]
    · rw [if_neg hab]
      by_cases hba : lt b a = true
      · rw [if_pos hba, mem_cons, ih, mem_cons, or_left_comm]
      · rw [if_neg hba, ho.eq_of_not_lt hab hba, mem_cons, or_self_left]

/-- **`insert`** keeps the order. -/
theorem sorted_insert {l : List α} (a : α) (hl : Sorted key l) : Sorted key (insert lt a l) := by
  induction l with
  | nil => exact pairwise_singleton _ _
  | cons b l ih =>
    obtain ⟨hb, hl'⟩ := pairwise_cons.mp hl
    rw [insert]
    by_cases hab : lt a b = true
    · rw [if_pos hab]
      have hlt := (ho.lt_iff a b).mp hab
      refine pairwise_cons.mpr ⟨fun x hx => ?_, hl⟩
      rcases mem_cons.mp hx with rfl | hx
      · exact hlt
      · exact lt_trans hlt (hb x hx)
    · rw [if_neg hab]
      by_cases hba : lt b a = true
      · rw [if_pos hba]
        refine pairwise_cons.mpr ⟨fun x hx => ?_, ih hl'⟩
        rcases (mem_insert ho).mp hx with rfl | hx
        · exact (ho.lt_iff b x).mp hba
        · exact hb x hx
      · rw [if_neg hba]
        exact hl

/-- **`erase(find(a))`** on an ordered list that has `a`. -/
theorem remove_of_mem {a : α} {l : List α} (hl : Sorted key l) (ha : a ∈ l) :
    ∃ l', remove lt a l = some l' ∧ Sorted key l' ∧ ∀ x, x ∈ l' ↔ x ∈ l ∧ x ≠ a := by
  induction l with
  | nil => exact absurd ha not_mem_nil
  | cons b l ih =>
    obtain ⟨hb, hl'⟩ := pairwise_cons.mp hl
    rw [remove]
    by_cases hba : lt b a = true
    · have hlt := (ho.lt_iff b a).mp hba
      have hne : b ≠ a := fun h => absurd (h ▸ hlt) (lt_irrefl _)
      obtain ⟨l', hrem, hsorted, hmem⟩ := ih hl' ((mem_cons.mp ha).resolve_left hne.symm)
      refine ⟨b :: l', by rw [if_pos hba, hrem]; rfl, ?_, fun x => ?_⟩
      · exact pairwise_cons.mpr ⟨fun x hx => hb x ((hmem x).mp hx).1, hsorted⟩
      · rw [mem_cons, hmem, mem_cons]
        constructor
        · rintro (rfl | ⟨hx, hxa⟩)
          · exact ⟨Or.inl rfl, hne⟩
          · exact ⟨Or.inr hx, hxa⟩
        · rintro ⟨rfl | hx, hxa⟩
          · exact Or.inl rfl
          · exact Or.inr ⟨hx, hxa⟩
    · have hab : ¬ lt a b = true := by
        -- an element behind `b` does not come before it
        intro h
        have hlt := (ho.lt_iff a b).mp h
        rcases mem_cons.mp ha with rfl | ha
        · exact lt_irrefl _ hlt
        · exact lt_asymm hlt (hb a ha)
      obtain rfl := ho.eq_of_not_lt hab hba
      refine ⟨l, by rw [if_neg hba, if_neg hab], hl', fun x => ?_⟩
      rw [mem_cons]
      constructor
      · intro hx
        exact ⟨Or.inr hx, fun h => lt_irrefl _ (h ▸ hb x hx)⟩
      · rintro ⟨rfl | hx, hxa⟩
        · exact absurd rfl hxa
        · exact hx

end Order

end OrderedSet
