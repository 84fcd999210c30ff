import Mathlib.Data.List.Basic
import Mathlib.Tactic.Ring

/-! # Windows of a list, and lists cut into equal blocks

Two views of a memory meet in a chunked buffer: the FLAT list of cells and
the CHAIN of equally long blocks whose concatenation it is.  This file has
the vocabulary for both:

* `overwrite l p b` — the cells of `l` from `p` on replaced by `b`;
* `window l p n` — the `n` cells of `l` from `p` on;
* `Uniform k c` — every block of the chain `c` has length `k`.

The lemmas say how the first two distribute over `++`, which is all that a
loop walking the chain block by block needs. -/

namespace ListWindow

open List

variable {α : Type}

/-- The cells of `l` from position `p` on replaced by those of `b`. -/
def overwrite (l : List α) (p : Nat) (b : List α) : List α :=
  l.take p ++ b ++ l.drop (p + b.length)

/-- The `n` cells of `l` from position `p` on. -/
def window (l : List α) (p n : Nat) : List α :=
  (l.drop p).take n

/-- Every block of the chain has length `k`. -/
def Uniform (k : Nat) (c : List (List α)) : Prop :=
  ∀ n ∈ c, n.length = k

/-! ## Overwriting -/

@[simp] theorem overwrite_nil (l : List α) (p : Nat) : overwrite l p [] = l := by
  simp [overwrite]

variable {p n k : Nat}

variable {b l a : List α} {m : Nat} {c d : List (List α)}

/-- Overwriting inside the list keeps its length. -/
theorem length_overwrite (h : p + b.length ≤ l.length) :
    (overwrite l p b).length = l.length := by
  simp only [overwrite, length_append, length_take, length_drop]
  omega

/-- A position behind `a` only touches what follows `a`. -/
theorem overwrite_append_right (a c b : List α) (p : Nat) :
    overwrite (a ++ c) (a.length + p) b = a ++ overwrite c p b := by
  have hd : a.length + p + b.length = a.length + (p + b.length) := by omega
  rw [overwrite, overwrite, hd, take_length_add_append, drop_length_add_append, append_assoc,
    append_assoc, append_assoc]

/-- What fits into the first part leaves the second part alone. -/
theorem overwrite_append_left (c : List α) (h : p + b.length ≤ a.length) :
    overwrite (a ++ c) p b = overwrite a p b ++ c := by
  rw [overwrite, overwrite, take_append_of_le_length (by omega), drop_append_of_le_length h]
  simp only [append_assoc]

/-- Writing across a block border is writing the two parts separately. -/
theorem overwrite_cross (c : List α) (hp : p ≤ a.length) (hb : a.length - p ≤ b.length) :
    overwrite (a ++ c) p b = overwrite a p (b.take (a.length - p))
      ++ overwrite c 0 (b.drop (a.length - p)) := by
  have hlen : p + (b.take (a.length - p)).length = a.length := by
    rw [length_take]; omega
  have hd : p + b.length = a.length + (b.drop (a.length - p)).length := by
    rw [length_drop]; omega
  rw [overwrite, overwrite, overwrite, hd, hlen, drop_length_add_append,
    take_append_of_le_length hp, drop_length, take_zero, append_nil, nil_append, Nat.zero_add]
  simp only [append_assoc]
  rw [← append_assoc (b.take _), take_append_drop]

/-- Two adjacent writes are one write. -/
theorem overwrite_overwrite {b₁ : List α} (b₂ : List α) (h : p + b₁.length ≤ l.length) :
    overwrite (overwrite l p b₁) (p + b₁.length) b₂ = overwrite l p (b₁ ++ b₂) := by
  have hlen : (l.take p ++ b₁).length = p + b₁.length := by
    rw [length_append, length_take]; omega
  have hsplit : overwrite l p b₁ = (l.take p ++ b₁) ++ l.drop (p + b₁.length) := rfl
  have hmove := overwrite_append_right (l.take p ++ b₁) (l.drop (p + b₁.length)) b₂ 0
  rw [Nat.add_zero, hlen] at hmove
  rw [hsplit, hmove, overwrite, overwrite, take_zero, nil_append,
    Nat.zero_add, drop_drop, length_append, Nat.add_assoc]
  simp only [append_assoc]

/-- Cells before the written range are unchanged. -/
theorem take_overwrite (b : List α) {q : Nat} (hq : q ≤ p) (hp : p ≤ l.length) :
    (overwrite l p b).take q = l.take q := by
  have hlen : q ≤ (l.take p).length := by rw [length_take]; omega
  rw [overwrite, append_assoc, take_append_of_le_length hlen, take_take, Nat.min_eq_left hq]

/-- Up to the end of the written range: what was before it, and the write. -/
theorem take_add_overwrite (b : List α) (hp : p ≤ l.length) :
    (overwrite l p b).take (p + b.length) = l.take p ++ b := by
  have hlen : (l.take p ++ b).length = p + b.length := by
    rw [length_append, length_take, Nat.min_eq_left hp]
  rw [overwrite, ← hlen, take_left]

/-- FRAME: a cell outside the written range keeps its value. -/
theorem getElem?_overwrite_of_outside {i : Nat} (hp : p + b.length ≤ l.length)
    (hi : i < p ∨ p + b.length ≤ i) : (overwrite l p b)[i]? = l[i]? := by
  have hlen : (l.take p).length = p := by rw [length_take]; omega
  rcases hi with hlt | hge
  · rw [overwrite, append_assoc, getElem?_append_left (by omega), getElem?_take, if_pos hlt]
  · have hlen2 : (l.take p ++ b).length = p + b.length := by
      rw [length_append, hlen]
    rw [overwrite, getElem?_append_right (by omega), hlen2, getElem?_drop]
    congr 1
    omega

/-! ## Windows -/

@[simp] theorem window_zero (l : List α) (p : Nat) : window l p 0 = [] := by
  simp [window]

theorem length_window (h : p + n ≤ l.length) : (window l p n).length = n := by
  simp only [window, length_take, length_drop]
  omega

/-- A window behind `a` is a window of what follows `a`. -/
theorem window_append_right (a c : List α) (p n : Nat) :
    window (a ++ c) (a.length + p) n = window c p n := by
  rw [window, window, drop_length_add_append]

/-- A window on a part in the middle. -/
theorem window_middle (a b c : List α) : window (a ++ (b ++ c)) a.length b.length = b := by
  rw [window, drop_left, take_left]

/-- A window inside the first part does not see the second. -/
theorem window_append_left (c : List α) (h : p + n ≤ a.length) :
    window (a ++ c) p n = window a p n := by
  rw [window, window, drop_append_of_le_length (by omega),
    take_append_of_le_length (by rw [length_drop]; omega)]

/-- A window across a block border is the two partial windows in order. -/
theorem window_cross (c : List α) (hp : p ≤ a.length) (hm : a.length - p ≤ m) :
    window (a ++ c) p m = window a p (a.length - p) ++ window c 0 (m - (a.length - p)) := by
  have hlen : (a.drop p).length = a.length - p := length_drop ..
  rw [window, window, window, drop_append_of_le_length hp, take_append, hlen, drop_zero,
    take_of_length_le (hlen.trans_le hm), take_of_length_le hlen.le]

/-- A window splits at any inner point. -/
theorem window_add (l : List α) (p n m : Nat) :
    window l p (n + m) = window l p n ++ window l (p + n) m := by
  rw [window, window, window, take_add, drop_drop]

/-- What was written is what the written range holds. -/
theorem window_overwrite_self (hp : p ≤ l.length) :
    window (overwrite l p b) p b.length = b := by
  have hlen : (l.take p).length = p := by rw [length_take]; omega
  have hmove := window_append_right (l.take p) (b ++ l.drop (p + b.length)) 0 b.length
  rw [Nat.add_zero, hlen] at hmove
  rw [overwrite, append_assoc, hmove, window, drop_zero, take_left]

/-! ## Uniform chains -/

theorem uniform_nil (k : Nat) : Uniform k ([] : List (List α)) := by
  intro n hn
  exact nomatch hn

theorem uniform_cons {n : List α} :
    Uniform k (n :: c) ↔ n.length = k ∧ Uniform k c := by
  simp [Uniform]

theorem uniform_append : Uniform k (c ++ d) ↔ Uniform k c ∧ Uniform k d := by
  simp only [Uniform, mem_append]
  constructor
  · intro h
    exact ⟨fun n hn => h n (Or.inl hn), fun n hn => h n (Or.inr hn)⟩
  · rintro ⟨hc, hd⟩ n (hn | hn)
    · exact hc n hn
    · exact hd n hn

theorem uniform_replicate {n : List α} (h : n.length = k) :
    Uniform k (replicate m n) := by
  intro x hx
  rw [eq_of_mem_replicate hx]
  exact h

/-- The flat length of a uniform chain. -/
theorem Uniform.length_flatten (h : Uniform k c) :
    c.flatten.length = c.length * k := by
  induction c with
  | nil => simp
  | cons n c ih =>
    obtain ⟨hn, hc⟩ := uniform_cons.mp h
    rw [flatten_cons, length_append, ih hc, hn, length_cons, Nat.succ_mul, Nat.add_comm]

/-- A uniform chain is determined by its flat view. -/
theorem Uniform.flatten_inj (hc : Uniform k c) (hd : Uniform k d) (hlen : c.length = d.length)
    (h : c.flatten = d.flatten) : c = d := by
  induction c generalizing d with
  | nil => exact (length_eq_zero_iff.mp hlen.symm).symm
  | cons n c ih =>
    cases d with
    | nil => exact nomatch hlen
    | cons m d =>
      obtain ⟨hn, hc'⟩ := uniform_cons.mp hc
      obtain ⟨hm, hd'⟩ := uniform_cons.mp hd
      rw [flatten_cons, flatten_cons] at h
      obtain ⟨hhead, htail⟩ := append_inj h (hn.trans hm.symm)
      rw [length_cons, length_cons] at hlen
      rw [hhead, ih hc' hd' (by omega) htail]

end ListWindow
