import Sylar.ConfigProofs
import Sylar.StepSystemProofs

/-! # Concurrent assignments of a configuration variable (`config.h`)

`ConfigVar::setValue` compares and calls the listeners under the READ lock, which
several calls may hold together, and assigns under the write lock that it takes anew.
Nothing ties the order of the notifications to the order of the assignments, and a
listener that throws keeps the value it was called with from being assigned.

* **`inv_step`** — one step of a call that announces a new value while no other one is
  announced, and whose listeners return.
* **`listeners_follow`** — then a listener sees a chain of values from the first to the current one.
* **`setValue_alone`** — a call that is not interrupted does what `setValue` of
  `ConfigProofs` does, whether its listeners return or throw. -/

namespace SylarConfigRace

open StepSystem SylarConfig List

variable {V : Type}

/-! ## The code -/

/-- Where a call of `setValue` stands. -/
inductive Pc (V : Type) where
  /-- holds the read lock, has not compared yet -/
  | entered (val : V)
  /-- in the loop over the listeners -/
  | notifying (val : V) (todo : List Nat)
  /-- has released the read lock and waits for the write lock -/
  | waiting (val : V)
  /-- has returned, or was left by the exception of a listener -/
  | returned
  deriving DecidableEq, Repr

/-- The call holds the read lock. -/
def Pc.reads : Pc V → Bool
  | .entered _ | .notifying _ _ => true
  | .waiting _ | .returned => false

/-- The call has found another value and has not assigned its own yet. -/
def Pc.announcing : Pc V → Bool
  | .notifying _ _ | .waiting _ => true
  | .entered _ | .returned => false

/-- The value, the calls of `setValue`, and the calls of listeners so far. -/
structure State (V : Type) where
  m_val : V
  calls : List (Pc V)
  log : List (Call V)
  deriving DecidableEq, Repr

/-- A call of `setValue` takes the read lock, or call `i` moves on; a listener returns (`notify`) or
throws. -/
inductive Act (V : Type) where
  | setValue (val : V)
  | compare (i : Nat)
  | notify (i : Nat)
  | throws (i : Nat)
  | unlock (i : Nat)
  | assign (i : Nat)
  deriving DecidableEq, Repr

def State.at (s : State V) (i : Nat) (pc : Pc V) : State V :=
  { s with calls := s.calls.set i pc }

/-- One step, for the type's `operator==` and the listeners `m_cbs`. -/
def step (eq : V → V → Bool) (m_cbs : List Nat) (s : State V) : Act V → Option (State V)
  | .setValue val => some { s with calls := s.calls ++ [.entered val] }
  | .compare i =>
    match s.calls[i]? with
    | some (.entered val) =>
        some (s.at i (if eq val s.m_val then .returned else .notifying val m_cbs))
    | _ => none
  | .notify i =>
    match s.calls[i]? with
    | some (.notifying val (id :: todo)) =>
        some { s.at i (.notifying val todo) with log := s.log ++ [⟨id, s.m_val, val⟩] }
    | _ => none
  | .throws i =>
    match s.calls[i]? with
    | some (.notifying val (id :: _)) =>
        -- the read lock is released on the way out, and nothing is assigned
        some { s.at i .returned with log := s.log ++ [⟨id, s.m_val, val⟩] }
    | _ => none
  | .unlock i =>
    match s.calls[i]? with
    | some (.notifying val []) => some (s.at i (.waiting val))
    | _ => none
  | .assign i =>
    match s.calls[i]? with
    | some (.waiting val) =>
        -- the write lock is free only if nobody holds the read lock
        if s.calls.any Pc.reads then none
        else some { s.at i .returned with m_val := val }
    | _ => none

def init (v : V) : State V := ⟨v, [], []⟩

/-! ## What a listener sees -/

/-- The calls of one listener. -/
def seen (id : Nat) (log : List (Call V)) : List (Call V) :=
  log.filter fun c => c.id = id

/-- Every call passes as the old value what the one before passed as the new one: a chain
from `v` to `w`. -/
def Chained : V → List (Call V) → V → Prop
  | v, [], w => w = v
  | v, c :: cs, w => c.old_value = v ∧ Chained c.new_value cs w

/-- A variable that a listener keeps (`s_http_request_buffer_size`): `getValue()` at first, then the
new value of every call. -/
def mirror (v : V) (calls : List (Call V)) : V :=
  calls.foldl (fun _ c => c.new_value) v

/-- No call is in progress. -/
def Idle (s : State V) : Prop := ∀ pc ∈ s.calls, pc = .returned

/-- A call finds another value only while no other stands between such a finding and its assignment,
and no listener throws. -/
def oneByOne (eq : V → V → Bool) (s : State V) : Act V → Bool
  | .compare i =>
    match s.calls[i]? with
    | some (.entered val) => eq val s.m_val || s.calls.all fun pc => !pc.announcing
    | _ => true
  | .throws _ => false
  | _ => true

abbrev OneByOne (eq : V → V → Bool) (s : State V) (a : Act V) : Prop := oneByOne eq s a = true

variable {eq : V → V → Bool} {val w : V} {cs : List (Call V)} {id j : Nat} {pc : Pc V}
  {todo : List Nat}

theorem OneByOne.alone {s : State V} {i : Nat} (h : OneByOne eq s (.compare i))
    (hi : s.calls[i]? = some (.entered val)) (hval : ¬ eq val s.m_val = true) :
    ∀ pc ∈ s.calls, pc.announcing = false := by
  rw [OneByOne, oneByOne, hi] at h
  simpa [hval] using h

theorem chained_snoc {v : V} {c : Call V} (h : Chained v cs w) (hold : c.old_value = w) :
    Chained v (cs ++ [c]) c.new_value := by
  induction cs generalizing v with
  | nil => exact ⟨hold.trans h, rfl⟩
  | cons d cs ih => exact ⟨h.1, ih h.2⟩

/-- At the end of a chain the mirror has its last value. -/
theorem mirror_of_chained {v : V} (h : Chained v cs w) : mirror v cs = w := by
  induction cs generalizing v with
  | nil => exact h.symm
  | cons c cs ih => exact ih h.2

private theorem seen_snoc_self (log : List (Call V)) (id : Nat) (old new : V) :
    seen id (log ++ [⟨id, old, new⟩]) = seen id log ++ [⟨id, old, new⟩] := by
  simp [seen]

private theorem seen_snoc_ne (log : List (Call V)) {id' : Nat} (old new : V) (h : id' ≠ id) :
    seen id (log ++ [⟨id', old, new⟩]) = seen id log := by
  simp [seen, h]

/-! ## One announcement at a time -/

section Invariant

variable {m_cbs : List Nat} {v : V}

/-- No call but number `i` announces a value. -/
def OnlyAt (s : State V) (i : Nat) : Prop :=
  ∀ (j : Nat) (pc : Pc V), s.calls[j]? = some pc → j ≠ i → pc.announcing = false

/-- Nobody announces a value, or one call does: listeners it has called are at its value, the others
at the current one. -/
inductive Inv (m_cbs : List Nat) (v : V) (s : State V) : Prop
  | quiet (hnone : ∀ pc ∈ s.calls, pc.announcing = false)
      (hseen : ∀ id ∈ m_cbs, Chained v (seen id s.log) s.m_val)
  | notifying (i : Nat) (val : V) (called todo : List Nat)
      (hi : s.calls[i]? = some (.notifying val todo)) (honly : OnlyAt s i)
      (hsplit : m_cbs = called ++ todo)
      (hcalled : ∀ id ∈ called, Chained v (seen id s.log) val)
      (htodo : ∀ id ∈ todo, Chained v (seen id s.log) s.m_val)
  | waiting (i : Nat) (val : V) (hi : s.calls[i]? = some (.waiting val))
      (honly : OnlyAt s i) (hseen : ∀ id ∈ m_cbs, Chained v (seen id s.log) val)

variable {s t : State V} {i : Nat}

/-- The call that announces is the one the invariant speaks of. -/
theorem OnlyAt.index_eq (h : OnlyAt s i) (hj : s.calls[j]? = some pc) (hpc : pc.announcing = true) :
    j = i := by
  by_contra hne
  rw [h j pc hj hne] at hpc
  cases hpc

theorem OnlyAt.at_self (h : OnlyAt s i) (pc : Pc V) : OnlyAt (s.at i pc) i := by
  intro j pc' hj hne
  obtain ⟨rfl, -⟩ | ⟨-, hold⟩ := getElem?_moved hj
  · exact absurd rfl hne
  · exact h j pc' hold hne

theorem OnlyAt.at_other (h : OnlyAt s i) (hpc : pc.announcing = false) : OnlyAt (s.at j pc) i := by
  intro k pc' hk hne
  obtain ⟨-, rfl⟩ | ⟨-, hold⟩ := getElem?_moved hk
  · exact hpc
  · exact h k pc' hold hne

/-- A call that is notifying is the one the invariant speaks of. -/
theorem Inv.of_notifying (h : Inv m_cbs v s) (hi : s.calls[i]? = some (.notifying val todo)) :
    OnlyAt s i ∧ ∃ called, m_cbs = called ++ todo ∧ (∀ id ∈ called, Chained v (seen id s.log) val)
      ∧ ∀ id ∈ todo, Chained v (seen id s.log) s.m_val := by
  cases h with
  | quiet hnone _ => exact absurd (hnone _ (mem_of_getElem? hi)) (by simp [Pc.announcing])
  | notifying k val' called todo' hk honly hsplit hcalled htodo =>
    obtain rfl := honly.index_eq hi rfl
    obtain ⟨rfl, rfl⟩ := Pc.notifying.inj (Option.some.inj (hi.symm.trans hk))
    exact ⟨honly, called, hsplit, hcalled, htodo⟩
  | waiting k val' hk honly _ =>
    obtain rfl := honly.index_eq hi rfl
    exact nomatch Option.some.inj (hi.symm.trans hk)

/-- So is one that waits for the write lock. -/
theorem Inv.of_waiting (h : Inv m_cbs v s) (hi : s.calls[i]? = some (.waiting val)) :
    OnlyAt s i ∧ ∀ id ∈ m_cbs, Chained v (seen id s.log) val := by
  cases h with
  | quiet hnone _ => exact absurd (hnone _ (mem_of_getElem? hi)) (by simp [Pc.announcing])
  | notifying k val' called todo' hk honly hsplit hcalled htodo =>
    obtain rfl := honly.index_eq hi rfl
    exact nomatch Option.some.inj (hi.symm.trans hk)
  | waiting k val' hk honly hseen =>
    obtain rfl := honly.index_eq hi rfl
    obtain rfl := Pc.waiting.inj (Option.some.inj (hi.symm.trans hk))
    exact ⟨honly, hseen⟩

/-- If no call announces a value, the listeners are at the current one. -/
theorem Inv.of_quiet (h : Inv m_cbs v s) (hnone : ∀ pc ∈ s.calls, pc.announcing = false) :
    ∀ id ∈ m_cbs, Chained v (seen id s.log) s.m_val := by
  cases h with
  | quiet _ hseen => exact hseen
  | notifying i val called todo hi _ _ _ _ =>
    exact nomatch (hnone _ (mem_of_getElem? hi))
  | waiting i val hi _ _ => exact nomatch (hnone _ (mem_of_getElem? hi))

theorem inv_setValue (h : Inv m_cbs v s) (val : V) :
    Inv m_cbs v { s with calls := s.calls ++ [.entered val] } := by
  have hkeep : ∀ {k : Nat} {pc : Pc V}, s.calls[k]? = some pc →
      (s.calls ++ [.entered val])[k]? = some pc := fun hk => by
    rw [List.getElem?_append_left (List.getElem?_eq_some_iff.mp hk).1, hk]
  have honly' : ∀ {k : Nat}, OnlyAt s k →
      OnlyAt { s with calls := s.calls ++ [.entered val] } k := by
    intro k honly j pc hj hne
    by_cases hlt : j < s.calls.length
    · exact honly j pc ((List.getElem?_append_left hlt).symm.trans hj) hne
    · have hmem := mem_of_getElem? ((getElem?_append_right (by omega)).symm.trans hj)
      rw [mem_singleton.mp hmem]
      rfl
  cases h with
  | quiet hnone hseen =>
    refine .quiet (fun pc hpc => ?_) hseen
    rcases mem_append.mp hpc with hpc | hpc
    · exact hnone pc hpc
    · rw [mem_singleton.mp hpc]
      rfl
  | notifying k val' called todo hk honly hsplit hcalled htodo =>
    exact .notifying k val' called todo (hkeep hk) (honly' honly) hsplit hcalled htodo
  | waiting k val' hk honly hseen => exact .waiting k val' (hkeep hk) (honly' honly) hseen

/-- A call that finds the current value returns. -/
theorem inv_same (h : Inv m_cbs v s) (hi : s.calls[i]? = some (.entered val)) :
    Inv m_cbs v (s.at i .returned) := by
  have hkeep : ∀ {k : Nat} {pc : Pc V}, s.calls[k]? = some pc → pc.announcing = true →
      (s.at i .returned).calls[k]? = some pc := by
    intro k pc hk hpc
    have hne : i ≠ k := by
      rintro rfl
      rw [hi] at hk
      cases hk
      cases hpc
    exact (getElem?_set_ne hne).trans hk
  cases h with
  | quiet hnone hseen => exact .quiet (forall_moved hnone rfl) hseen
  | notifying k val' called todo hk honly hsplit hcalled htodo =>
    exact .notifying k val' called todo (hkeep hk rfl) (honly.at_other rfl) hsplit hcalled htodo
  | waiting k val' hk honly hseen =>
    exact .waiting k val' (hkeep hk rfl) (honly.at_other rfl) hseen

/-- A call that finds another value begins to announce its own. -/
theorem inv_announce (h : Inv m_cbs v s) (hi : s.calls[i]? = some (.entered val))
    (hnone : ∀ pc ∈ s.calls, pc.announcing = false) :
    Inv m_cbs v (s.at i (.notifying val m_cbs)) := by
  have honly : OnlyAt s i := fun j pc hj _ => hnone pc (mem_of_getElem? hj)
  refine .notifying i val [] m_cbs ?_ (honly.at_self _) rfl (fun id hid => nomatch hid)
    (h.of_quiet hnone)
  exact List.getElem?_set_self (List.getElem?_eq_some_iff.mp hi).1

theorem inv_notify (hnodup : m_cbs.Nodup) (h : Inv m_cbs v s)
    (hi : s.calls[i]? = some (.notifying val (id :: todo))) :
    Inv m_cbs v { s.at i (.notifying val todo) with log := s.log ++ [⟨id, s.m_val, val⟩] } := by
  obtain ⟨honly, called, hsplit, hcalled, htodo⟩ := h.of_notifying hi
  -- every listener has its own number
  have hne : ∀ id' ∈ called ++ todo, id ≠ id' := by
    rw [hsplit] at hnodup
    have := (nodup_cons.mp (perm_middle.nodup_iff.mp hnodup)).1
    exact fun id' hid' heq => this (heq ▸ hid')
  obtain ⟨hfirst, hrest⟩ := forall_mem_cons.mp htodo
  refine .notifying i val (called ++ [id]) todo ?_ (honly.at_self _) ?_ ?_ ?_
  · exact List.getElem?_set_self (List.getElem?_eq_some_iff.mp hi).1
  · rw [hsplit, append_assoc, singleton_append]
  · intro id' hid'
    rcases mem_append.mp hid' with hid' | hid'
    · show Chained v (seen id' (s.log ++ [⟨id, s.m_val, val⟩])) val
      rw [seen_snoc_ne _ _ _ (hne id' (mem_append_left _ hid'))]
      exact hcalled id' hid'
    · rw [mem_singleton.mp hid']
      show Chained v (seen id (s.log ++ [⟨id, s.m_val, val⟩])) val
      rw [seen_snoc_self]
      exact chained_snoc hfirst rfl
  · intro id' hid'
    show Chained v (seen id' (s.log ++ [⟨id, s.m_val, val⟩])) s.m_val
    rw [seen_snoc_ne _ _ _ (hne id' (mem_append_right _ hid'))]
    exact hrest id' hid'

theorem inv_unlock (h : Inv m_cbs v s) (hi : s.calls[i]? = some (.notifying val [])) :
    Inv m_cbs v (s.at i (.waiting val)) := by
  obtain ⟨honly, called, hsplit, hcalled, -⟩ := h.of_notifying hi
  rw [append_nil] at hsplit
  refine .waiting i val ?_ (honly.at_self _) (hsplit ▸ hcalled)
  exact List.getElem?_set_self (List.getElem?_eq_some_iff.mp hi).1

theorem inv_assign (h : Inv m_cbs v s) (hi : s.calls[i]? = some (.waiting val)) :
    Inv m_cbs v { s.at i .returned with m_val := val } := by
  obtain ⟨honly, hseen⟩ := h.of_waiting hi
  refine .quiet (fun pc hpc => ?_) hseen
  obtain ⟨j, hj⟩ := getElem?_of_mem hpc
  obtain ⟨-, rfl⟩ | ⟨hne, hold⟩ := getElem?_moved hj
  · rfl
  · exact honly j pc hold hne

/-- **ONE STEP** of a call that announces its value while no other one is announced keeps
the invariant. -/
theorem inv_step (hnodup : m_cbs.Nodup) {a : Act V} (h : Inv m_cbs v s)
    (hone : OneByOne eq s a) (hstep : step eq m_cbs s a = some t) : Inv m_cbs v t := by
  unfold step at hstep
  split at hstep
  · cases hstep
    exact inv_setValue h _
  · split at hstep
    · next val hi =>
      cases hstep
      split
      · exact inv_same h hi
      · next hval => exact inv_announce h hi (hone.alone hi hval)
    · cases hstep
  · split at hstep
    · next val id todo hi =>
      cases hstep
      exact inv_notify hnodup h hi
    · cases hstep
  · exact absurd hone Bool.false_ne_true
  · split at hstep
    · next val hi =>
      cases hstep
      exact inv_unlock h hi
    · cases hstep
  · split at hstep
    · next val hi =>
      split at hstep
      · cases hstep
      · cases hstep
        exact inv_assign h hi
    · cases hstep

theorem inv_init (m_cbs : List Nat) (v : V) : Inv m_cbs v (init v) :=
  .quiet (fun _ hpc => nomatch hpc) fun _ _ => rfl

/-- Every listener sees a chain of values at any time. -/
theorem Inv.chained (h : Inv m_cbs v s) : ∀ id ∈ m_cbs, ∃ w, Chained v (seen id s.log) w := by
  intro id hid
  cases h with
  | quiet _ hseen => exact ⟨_, hseen id hid⟩
  | notifying i val called todo _ _ hsplit hcalled htodo =>
    rw [hsplit] at hid
    rcases mem_append.mp hid with hid | hid
    · exact ⟨_, hcalled id hid⟩
    · exact ⟨_, htodo id hid⟩
  | waiting i val _ _ hseen => exact ⟨_, hseen id hid⟩

end Invariant

/-- **LISTENERS FOLLOW THE VARIABLE**: along every run in which new values are announced one
by one and no listener throws, the calls of a listener form a chain from the first value
on; when no call is in progress the chain ends with the current value, and so does a
mirror. -/
theorem listeners_follow (eq : V → V → Bool) {m_cbs : List Nat} (hnodup : m_cbs.Nodup) {v : V}
    {s : State V} (h : Reaches (step eq m_cbs) (OneByOne eq) (init v) s) :
    ∀ id ∈ m_cbs, (∃ w, Chained v (seen id s.log) w)
      ∧ (Idle s → Chained v (seen id s.log) s.m_val ∧ mirror v (seen id s.log) = s.m_val) := by
  intro id hid
  have hinv : Inv m_cbs v s :=
    h.inv (inv_init m_cbs v) fun hs hone hstep => inv_step hnodup hs hone hstep
  refine ⟨hinv.chained id hid, fun hidle => ?_⟩
  have hchain := hinv.of_quiet (fun pc hpc => by rw [hidle pc hpc]; rfl) id hid
  exact ⟨hchain, mirror_of_chained hchain⟩

/-! ## A call that is not interrupted -/

/-- The steps of a call from the loop over the listeners on. -/
def loopSteps (old new : V) : List (Nat × (V → V → Except Exception Unit)) → List (Act V)
  | [] => [.unlock 0, .assign 0]
  | (_, cb) :: rest =>
    match cb old new with
    | .error _ => [.throws 0]
    | .ok () => .notify 0 :: loopSteps old new rest

/-- The steps of one call. -/
def wholeCall (var : ConfigVar V) (val : V) : List (Act V) :=
  .setValue val :: .compare 0
    :: if var.eq val var.m_val then [] else loopSteps var.m_val val var.m_cbs

/-- The loop, and the assignment unless a listener throws. -/
theorem exec_loop (eq : V → V → Bool) (ids : List Nat) (m_val val : V)
    (cbs : List (Nat × (V → V → Except Exception Unit))) (log : List (Call V)) :
    exec (step eq ids) ⟨m_val, [.notifying val (cbs.map Prod.fst)], log⟩ (loopSteps m_val val cbs)
      = some ⟨if (notify m_val val cbs).2.isSome then m_val else val, [.returned],
          log ++ (notify m_val val cbs).1⟩ := by
  induction cbs generalizing log with
  | nil =>
    rw [notify, append_nil]
    rfl
  | cons cb cbs ih =>
    obtain ⟨id, f⟩ := cb
    rw [loopSteps, notify]
    cases f m_val val with
    | error e => rfl
    | ok u =>
      have hrest := ih (log ++ [⟨id, m_val, val⟩])
      rw [append_assoc, singleton_append] at hrest
      exact hrest

/-- **A call that is not interrupted** is `setValue`. -/
theorem setValue_alone (var : ConfigVar V) (val : V) (log : List (Call V)) :
    exec (step var.eq (var.m_cbs.map Prod.fst)) ⟨var.m_val, [], log⟩ (wholeCall var val)
      = some ⟨(var.setValue val).1.m_val, [.returned], log ++ (var.setValue val).2.1⟩ := by
  have hcompare : exec (step var.eq (var.m_cbs.map Prod.fst)) ⟨var.m_val, [], log⟩
      [.setValue val, .compare 0]
      = some ⟨var.m_val, [if var.eq val var.m_val then .returned
          else .notifying val (var.m_cbs.map Prod.fst)], log⟩ := rfl
  have hsplit : wholeCall var val = [.setValue val, .compare 0]
      ++ if var.eq val var.m_val then [] else loopSteps var.m_val val var.m_cbs := rfl
  rw [hsplit, exec_append, hcompare, Option.bind_some, ConfigVar.setValue_eq]
  by_cases hval : var.eq val var.m_val = true
  · rw [if_pos hval, if_pos hval, if_pos hval, append_nil]
    rfl
  · rw [if_neg hval, if_neg hval, if_neg hval, exec_loop]
    rcases notify var.m_val val var.m_cbs with ⟨calls, _ | e⟩ <;> rfl

/-! ## Two calls -/

/-- Two calls, one after the other. -/
def oneAfterTheOther : List (Act Nat) :=
  [.setValue 1, .compare 0, .notify 0, .unlock 0, .assign 0,
    .setValue 2, .compare 1, .notify 1, .unlock 1, .assign 1]

theorem listeners_follow_oneAfterTheOther : mirror 0 (seen 7 [⟨7, 0, 1⟩, ⟨7, 1, 2⟩]) = 2 := by
  have hrun : exec (step BEq.beq [7]) (init 0) oneAfterTheOther
      = some ⟨2, [.returned, .returned], [⟨7, 0, 1⟩, ⟨7, 1, 2⟩]⟩ := rfl
  have halong : Along (step BEq.beq [7]) (OneByOne BEq.beq) (init 0) oneAfterTheOther := by decide
  have h := listeners_follow BEq.beq (by decide) (reaches_of_exec halong hrun) 7 (by decide)
  exact (h.2 (by unfold Idle; decide)).2

/-- Both calls announce their value before either assigns it. -/
def bothAtOnce : List (Act Nat) :=
  [.setValue 1, .setValue 2, .compare 0, .compare 1, .notify 0, .notify 1, .unlock 0,
    .unlock 1, .assign 1, .assign 0]

/-- **The value announced last does not win**: the listener has seen `2` last, with an old value
that was not the new one before it, and the variable is `1`. -/
theorem last_announced_loses :
    ∃ s, exec (step BEq.beq [7]) (init 0) bothAtOnce = some s ∧ Idle s ∧ s.m_val = 1
      ∧ seen 7 s.log = [⟨7, 0, 1⟩, ⟨7, 0, 2⟩] ∧ mirror 0 (seen 7 s.log) = 2
      ∧ ∀ w, ¬ Chained 0 (seen 7 s.log) w := by
  refine ⟨⟨1, [.returned, .returned], [⟨7, 0, 1⟩, ⟨7, 0, 2⟩]⟩, rfl, ?_, rfl, rfl, rfl, ?_⟩
  · unfold Idle
    decide
  · rintro w ⟨-, h, -⟩
    exact absurd h (by decide)

end SylarConfigRace
