import Mathlib.Algebra.Order.BigOperators.Group.List
import Mathlib.Algebra.Order.Ring.Nat
import Mathlib.Data.List.Infix

/-! # Interleaving systems with partial steps

A system is a step function `σ → ℓ → Option σ`: the label says which party
moves and what its environment answers, and `none` means that the move is
not possible.  A run may be restricted to steps that meet a condition on
the state before the step and the label.

* **`Reaches`** — what a run whose steps all meet the condition can reach.
* **`Reaches.inv`** — an invariant of one such step is one of such runs.
* **`exec`**, **`Along`** — a schedule executed, and a condition met by all
  its steps; **`reaches_of_exec`** connects them to `Reaches`.
* **`getElem?_moved`**, **`countP_moved`** and others — the parties of a system in a
  list, after one of them has moved. -/

namespace StepSystem

open List

variable {σ ℓ : Type}

/-- `t` is reached from `s` by steps that all meet `C`. -/
inductive Reaches (step : σ → ℓ → Option σ) (C : σ → ℓ → Prop) (s : σ) : σ → Prop
  | refl : Reaches step C s s
  | tail {t u : σ} {l : ℓ} (h : Reaches step C s t) (hc : C t l)
      (hstep : step t l = some u) : Reaches step C s u

/-- The state after a schedule, if every step of it is possible. -/
def exec (step : σ → ℓ → Option σ) : σ → List ℓ → Option σ
  | s, [] => some s
  | s, l :: ls => (step s l).bind fun t => exec step t ls

variable {step : σ → ℓ → Option σ} {C : σ → ℓ → Prop}

/-- **INVARIANT RULE.** -/
theorem Reaches.inv {P : σ → Prop} {s t : σ} (h : Reaches step C s t) (hinit : P s)
    (hstep : ∀ {a b : σ} {l : ℓ}, P a → C a l → step a l = some b → P b) :
    P t := by
  induction h with
  | refl => exact hinit
  | tail _ hc hs ih => exact hstep ih hc hs

theorem Reaches.trans {s t u : σ} (h₁ : Reaches step C s t)
    (h₂ : Reaches step C t u) : Reaches step C s u := by
  induction h₂ with
  | refl => exact h₁
  | tail _ hc hs ih => exact ih.tail hc hs

theorem Reaches.single {s t : σ} {l : ℓ} (hc : C s l) (h : step s l = some t) :
    Reaches step C s t :=
  Reaches.refl.tail hc h

/-- Every step of the schedule, as far as it can be executed, meets `C`. -/
def Along (step : σ → ℓ → Option σ) (C : σ → ℓ → Prop) : σ → List ℓ → Prop
  | _, [] => True
  | s, l :: ls => C s l ∧ ∀ t, step s l = some t → Along step C t ls

/-- Whether a schedule meets a decidable condition can be computed. -/
instance decidableAlong [∀ s l, Decidable (C s l)] :
    (ls : List ℓ) → (s : σ) → Decidable (Along step C s ls)
  | [], _ => isTrue trivial
  | l :: ls, s =>
    match h : step s l with
    | none => decidable_of_iff (C s l)
        ⟨fun hc => ⟨hc, fun t ht => by rw [h] at ht; cases ht⟩, And.left⟩
    | some t =>
        have := decidableAlong ls t
        decidable_of_iff (C s l ∧ Along step C t ls)
          ⟨fun ⟨hc, hrest⟩ => ⟨hc, fun u hu => by rw [h] at hu; cases hu; exact hrest⟩,
            fun ⟨hc, hrest⟩ => ⟨hc, hrest t h⟩⟩

theorem Along.mono {D : σ → ℓ → Prop} (hCD : ∀ {a : σ} {l : ℓ}, C a l → D a l) :
    ∀ {s : σ} {ls : List ℓ}, Along step C s ls → Along step D s ls
  | _, [], _ => trivial
  | _, _ :: _, ⟨hc, hrest⟩ => ⟨hCD hc, fun t ht => (hrest t ht).mono hCD⟩

theorem along_of_forall : ∀ {ls : List ℓ} {s : σ}, (∀ l ∈ ls, ∀ t, C t l) → Along step C s ls
  | [], _, _ => trivial
  | l :: _, s, h => ⟨h l mem_cons_self s,
      fun _ _ => along_of_forall fun l hl => h l (mem_cons_of_mem _ hl)⟩

/-- A schedule that executes is a run. -/
theorem reaches_of_exec : ∀ {ls : List ℓ} {s t : σ}, Along step C s ls → exec step s ls = some t →
      Reaches step C s t := by
  intro ls
  induction ls with
  | nil =>
    intro s t _ h
    cases h
    exact Reaches.refl
  | cons l ls ih =>
    rintro s t ⟨hc, hrest⟩ h
    obtain ⟨u, hu, ht⟩ := Option.bind_eq_some_iff.mp h
    exact (Reaches.single hc hu).trans (ih (hrest u hu) ht)

theorem exec_append (a b : List ℓ) (s : σ) :
    exec step s (a ++ b) = (exec step s a).bind fun t => exec step t b := by
  induction a generalizing s with
  | nil => rfl
  | cons l a ih =>
    rw [cons_append, exec, exec, Option.bind_assoc]
    congr 1
    funext t
    exact ih t

/-- The condition along a schedule splits where the schedule does. -/
theorem along_append : ∀ {a b : List ℓ} {s : σ}, Along step C s (a ++ b) → Along step C s a
        ∧ ∀ {t : σ}, exec step s a = some t → Along step C t b := by
  intro a
  induction a with
  | nil =>
    intro b s h
    refine ⟨trivial, fun ht => ?_⟩
    cases ht
    exact h
  | cons l a ih =>
    rintro b s ⟨hc, hrest⟩
    refine ⟨⟨hc, fun u hu => (ih (hrest u hu)).1⟩, fun ht => ?_⟩
    obtain ⟨u, hu, ht⟩ := Option.bind_eq_some_iff.mp ht
    exact (ih (hrest u hu)).2 ht

/-- A condition along a schedule, state by state. -/
theorem along_iff : ∀ {ls : List ℓ} {s : σ}, Along step C s ls ↔ ∀ before l, before ++ [l] <+: ls →
          ∀ t, exec step s before = some t → C t l := by
  intro ls
  induction ls with
  | nil =>
    refine fun {s} => ⟨fun _ before l h => ?_, fun _ => trivial⟩
    exact absurd (prefix_nil.mp h) (append_ne_nil_of_right_ne_nil _ (by simp))
  | cons k ls ih =>
    intro s
    constructor
    · rintro ⟨hk, hrest⟩ before l h t ht
      cases before with
      | nil =>
        obtain ⟨rfl, -⟩ := cons_prefix_cons.mp h
        cases ht
        exact hk
      | cons k' before =>
        obtain ⟨rfl, hpre⟩ := cons_prefix_cons.mp h
        obtain ⟨u, hu, ht⟩ := Option.bind_eq_some_iff.mp ht
        exact ih.mp (hrest u hu) before l hpre t ht
    · intro h
      refine ⟨h [] k ⟨ls, rfl⟩ s rfl, fun u hu => ih.mpr fun before l hpre t ht => ?_⟩
      refine h (k :: before) l (cons_prefix_cons.mpr ⟨rfl, hpre⟩) t ?_
      rw [exec, hu]
      exact ht

/-- The states a schedule passes through are reached under its condition. -/
theorem Along.reaches {ls before : List ℓ} {l : ℓ} {s t : σ}
    (h : Along step C s ls) (hpre : before ++ [l] <+: ls)
    (ht : exec step s before = some t) : Reaches step C s t := by
  obtain ⟨rest, rfl⟩ := hpre
  exact reaches_of_exec (along_append (along_append h).1).1 ht

/-! ## Parties in a list, one of which moves -/

section Moved

variable {α : Type} {l : List α} {i j : Nat} {a b x : α} {P : α → Prop}

/-- A party is the one that moved, or is as it was. -/
theorem getElem?_moved (h : (l.set i b)[j]? = some x) :
    (j = i ∧ x = b) ∨ (j ≠ i ∧ l[j]? = some x) := by
  by_cases hj : j = i
  · subst hj
    rw [getElem?_set, if_pos rfl] at h
    split at h
    · exact Or.inl ⟨rfl, (Option.some.inj h).symm⟩
    · exact nomatch h
  · rw [getElem?_set_ne (Ne.symm hj)] at h
    exact Or.inr ⟨hj, h⟩

theorem moved_mem (ha : l[i]? = some a) : b ∈ l.set i b :=
  List.mem_of_getElem? (List.getElem?_set_self (List.getElem?_eq_some_iff.mp ha).1)

theorem exists_moved (ha : l[i]? = some a) (h : ∃ x ∈ l, P x) (hP : P a → P b) :
    ∃ x ∈ l.set i b, P x := by
  obtain ⟨x, hx, hPx⟩ := h
  obtain ⟨j, hj⟩ := getElem?_of_mem hx
  by_cases hji : j = i
  · subst hji
    obtain rfl : x = a := Option.some.inj (hj.symm.trans ha)
    exact ⟨b, moved_mem ha, hP hPx⟩
  · refine ⟨x, List.mem_of_getElem? (i := j) ?_, hPx⟩
    rwa [getElem?_set_ne (Ne.symm hji)]

theorem forall_moved (h : ∀ x ∈ l, P x) (hP : P b) : ∀ x ∈ l.set i b, P x := by
  intro x hx
  rcases mem_or_eq_of_mem_set hx with hx | rfl
  · exact h x hx
  · exact hP

theorem sum_moved {f : α → Nat} (ha : l[i]? = some a) :
    ((l.set i b).map f).sum + f a = (l.map f).sum + f b := by
  induction l generalizing i with
  | nil => exact nomatch ha
  | cons hd tl ih =>
    cases i with
    | zero =>
      obtain rfl : hd = a := Option.some.inj ha
      rw [set_cons_zero, map_cons, map_cons, sum_cons, sum_cons]
      omega
    | succ i =>
      have htail := ih (i := i) ha
      rw [set_cons_succ, map_cons, map_cons, sum_cons, sum_cons]
      omega

/-- Two parties have no more than all. -/
theorem add_le_sum {f : α → Nat} (ha : l[i]? = some a) (hx : l[j]? = some x) (hne : i ≠ j) :
    f a + f x ≤ (l.map f).sum := by
  induction l generalizing i j with
  | nil => exact nomatch ha
  | cons hd tl ih =>
    rw [map_cons, sum_cons]
    cases i with
    | zero =>
      cases j with
      | zero => exact absurd rfl hne
      | succ j =>
        obtain rfl : hd = a := Option.some.inj ha
        have hx' : f x ∈ tl.map f := mem_map_of_mem (List.mem_of_getElem? (i := j) hx)
        exact Nat.add_le_add_left (le_sum_of_mem hx') _
    | succ i =>
      cases j with
      | zero =>
        obtain rfl : hd = x := Option.some.inj hx
        have ha' : f a ∈ tl.map f := mem_map_of_mem (List.mem_of_getElem? (i := i) ha)
        rw [Nat.add_comm]
        exact Nat.add_le_add_left (le_sum_of_mem ha') _
      | succ j =>
        have htail := ih (i := i) (j := j) ha hx (by omega)
        omega

theorem countP_moved {p : α → Bool} (ha : l[i]? = some a) :
    (l.set i b).countP p + (p a).toNat = l.countP p + (p b).toNat := by
  obtain ⟨hi, rfl⟩ := List.getElem?_eq_some_iff.mp ha
  have hpos : p l[i] = true → 0 < l.countP p := fun hp =>
    countP_pos_iff.mpr ⟨l[i], getElem_mem hi, hp⟩
  rw [countP_set hi]
  cases hp : p l[i] with
  | true =>
    have := hpos hp
    cases p b <;> simp <;> omega
  | false => cases p b <;> simp

end Moved

end StepSystem
