import Sylar.SchedulerProofs

/-! # One thread on a fiber's stack (`Scheduler::run`, `Fiber::SwapIn`)

The pop loop skips an entry whose fiber is `EXEC` and trusts the state
field for the rest.  But the field says `HOLD` or `READY` before the fiber
has left its stack, it still says `INIT` or `HOLD` after a pop and before
`SwapIn`, and any thread may queue a fiber that is running.

* **`stack_exclusive`** — no fiber is swapped in while another worker is on its stack. -/

namespace SylarScheduler

open StepSystem List

/-- The fiber of the current iteration of `run`, from the pop to the end of
the bookkeeping. -/
def Pc.hand : Pc → Option Nat
  | .popped (.fiber f) | .callback f => some f
  | .exec f _ | .leave f _ | .decrement f _ | .bookkeep f _ => some f
  | _ => none

/-- The worker has the fiber in hand, or keeps it for its callbacks. -/
def Worker.holds (wk : Worker) (f : Nat) : Prop :=
  wk.pc.hand = some f ∨ wk.cb_fiber = some f

/-- The worker is on its idle fiber, or just back from it. -/
def Pc.inIdle : Pc → Bool
  | .idle _ | .idleLeave => true
  | _ => false

/-- The worker's next step is `SwapIn` on `f`. -/
def SwapsIn (s : State) (w f : Nat) : Prop :=
  ∃ wk, s.workers[w]? = some wk
    ∧ (wk.pc = .callback f
      ∨ wk.pc = .popped (.fiber f) ∧ (s.m_state f).ended = false)

/-- The worker executes on the stack of `f`. -/
def OnStack (s : State) (w f : Nat) : Prop :=
  ∃ wk, s.workers[w]? = some wk ∧ wk.onStack f = true

/-- A pop does not take an entry of a fiber that another worker holds. -/
def PopsFree (s : State) : Label → Prop
  | .worker w _ => ∀ wk, s.workers[w]? = some wk → wk.pc = .pop →
    ∀ ft f, s.m_fibers.find? (mayTake s.m_state w) = some ft →
      ft.task = .fiber f → ∀ w' wk', s.workers[w']? = some wk' → w' ≠ w →
        ¬ wk'.holds f
  | .act _ _ => True

/-! ## What a move does to the fibers -/

variable {f : Nat} {task : Task} {t : State} {l : Label}

section Moves

variable {s s' : State} {w : Nat} {wk wk' : Worker}

/-- A fiber comes into a worker's hand by a pop or by its creation. -/
theorem Moves.holds_of (h : Moves s w wk wk' s') (hf : wk'.holds f) :
    wk.holds f ∨ (f = s.fresh ∧ s'.fresh = s.fresh + 1)
      ∨ ∃ ft, wk.pc = .pop ∧ s.m_fibers.find? (mayTake s.m_state w) = some ft
        ∧ ft.task = .fiber f := by
  cases h with
  | @take ft hpc hft =>
    rcases hf with hf | hf
    · refine Or.inr (Or.inr ⟨ft, hpc, hft, ?_⟩)
      cases htask : ft.task with
      | fiber g =>
        rw [htask] at hf
        exact congrArg _ (Option.some.inj hf)
      | cb c =>
        rw [htask] at hf
        exact nomatch hf
    · exact Or.inl (Or.inr hf)
  | newFiber hpc hf' =>
    rcases hf with hf | hf
    · exact Or.inr (Or.inl ⟨(Option.some.inj hf).symm, rfl⟩)
    · exact Or.inr (Or.inl ⟨(Option.some.inj hf).symm, rfl⟩)
  | SwapIn own hpc =>
    left
    cases own <;> simp_all [Worker.holds, Pc.hand]
  | requeue hpc =>
    refine Or.inl (Or.inr ?_)
    have hcb := hf.resolve_left (nomatch ·)
    grind
  | hold hpc =>
    refine Or.inl (Or.inr ?_)
    have hcb := hf.resolve_left (nomatch ·)
    grind
  | _ =>
    left
    simp_all [Worker.holds, Pc.hand]

/-- A worker writes the state of fibers it holds, and of new ones. -/
theorem Moves.m_state_of (h : Moves s w wk wk' s') (hf : s'.m_state f ≠ s.m_state f) :
    wk.holds f ∨ (f = s.fresh ∧ s'.fresh = s.fresh + 1) := by
  have written {g : Nat} {x : FiberState}
      (hf : (s.setState g x).m_state f ≠ s.m_state f) : f = g := by
    by_contra hne
    exact hf (setState_of_ne s x hne)
  cases h with
  | SwapIn own hpc =>
    obtain rfl := written hf
    left
    cases own <;> simp_all [Worker.holds, Pc.hand]
  | reset hpc hcb =>
    obtain rfl := written hf
    exact Or.inl (Or.inr hcb)
  | newFiber => exact Or.inr ⟨written hf, rfl⟩
  | yield hpc =>
    obtain rfl := written hf
    exact Or.inl (Or.inl (by rw [hpc]; rfl))
  | restart hpc =>
    obtain rfl := written hf
    exact Or.inl (Or.inl (by rw [hpc]; rfl))
  | hold hpc =>
    obtain rfl := written hf
    exact Or.inl (Or.inl (by rw [hpc]; rfl))
  | _ => exact absurd rfl hf

/-- Before `SwapIn` the state is not `EXEC`: the pop has seen to it, or
`reset` has. -/
theorem Moves.m_state_ne (h : Moves s w wk wk' s')
    (hf : wk'.pc = .popped (.fiber f) ∨ wk'.pc = .callback f) : s'.m_state f ≠ .EXEC := by
  cases h with
  | @take ft hpc hft =>
    have htask : ft.task = .fiber f := hf.elim (Pc.popped.inj ·) (nomatch ·)
    have hmay := find?_some hft
    rw [mayTake, htask] at hmay
    simpa using (Bool.and_eq_true_iff.mp hmay).2
  | reset hpc hcb =>
    obtain rfl : _ = f := hf.elim (nomatch ·) (Pc.callback.inj ·)
    exact setState_self .. ▸ FiberState.noConfusion
  | newFiber hpc hcb =>
    obtain rfl : _ = f := hf.elim (nomatch ·) (Pc.callback.inj ·)
    exact setState_self .. ▸ FiberState.noConfusion
  | _ => exact hf.elim (nomatch ·) (nomatch ·)

/-- The idle fiber is `EXEC` only while the worker is in it. -/
theorem Moves.idle_fiber_of (h : Moves s w wk wk' s')
    (hidle : wk.idle_fiber = .EXEC → wk.pc.inIdle = true)
    (hexec : wk'.idle_fiber = .EXEC) : wk'.pc.inIdle = true := by
  cases h with
  | idleLeave hpc => grind [FiberState.ended]
  | _ => grind [Pc.inIdle]

theorem Moves.fresh_le (h : Moves s w wk wk' s') : s.fresh ≤ s'.fresh := by
  cases h with
  | newFiber => exact Nat.le_succ _
  | _ => exact Nat.le_refl _

/-- What a worker queues: the fiber in its hand, a registration that was
triggered, or a callback. -/
theorem Moves.mem_m_fibers {ft : FiberAndThread} (h : Moves s w wk wk' s')
    (hft : ft ∈ s'.m_fibers) :
    ft ∈ s.m_fibers ∨ ft.task ∈ s.events ∨ (∃ c, ft.task = .cb c)
      ∨ ∃ f, ft.task = .fiber f ∧ wk.holds f := by
  cases h with
  | take => exact Or.inl (mem_of_mem_eraseP hft)
  | scheduleAll =>
    rcases mem_append.mp hft with hft | hft
    · exact Or.inl hft
    · obtain ⟨c, -, rfl⟩ := mem_map.mp hft
      exact Or.inr (Or.inr (Or.inl ⟨c, rfl⟩))
  | trigger hpc hmem =>
    rcases mem_append.mp hft with hft | hft
    · exact Or.inl hft
    · obtain rfl := mem_singleton.mp hft
      exact Or.inr (Or.inl hmem)
  | requeue hpc =>
    rcases mem_append.mp hft with hft | hft
    · exact Or.inl hft
    · obtain rfl := mem_singleton.mp hft
      exact Or.inr (Or.inr (Or.inr ⟨_, rfl, Or.inl (by rw [hpc]; rfl)⟩))
  | _ => exact Or.inl hft

theorem Moves.mem_events (h : Moves s w wk wk' s') (ht : task ∈ s'.events) : task ∈ s.events := by
  cases h with
  | trigger => exact mem_of_mem_erase ht
  | _ => exact ht

end Moves

/-! ## The fibers in sight exist -/

/-- Every fiber in a worker's hand, in the queue or in a registration exists. -/
structure Known (s : State) : Prop where
  held : ∀ {w : Nat} {wk : Worker} {f : Nat}, s.workers[w]? = some wk →
    wk.holds f → f < s.fresh
  queued : ∀ ft ∈ s.m_fibers, s.known ft.task = true
  registered : ∀ task ∈ s.events, s.known task = true

theorem init_known (n : Nat) : Known (init n) := by
  refine ⟨?_, fun ft hft => (nomatch hft), fun task ht => (nomatch ht)⟩
  intro w wk f hw hf
  obtain rfl : wk = ⟨.pop, none, .INIT⟩ := eq_of_mem_replicate (mem_of_getElem? hw)
  exact hf.elim (nomatch ·) (nomatch ·)

theorem known_mono {s : State} (hle : s.fresh ≤ t.fresh) (h : s.known task = true) :
    t.known task = true := by
  cases task with
  | cb c => rfl
  | fiber f => exact decide_eq_true (Nat.lt_of_lt_of_le (of_decide_eq_true h) hle)

theorem Moves.known {s s' : State} {w : Nat} {wk wk' : Worker} (hs : Known s)
    (hw : s.workers[w]? = some wk) (h : Moves s w wk wk' s') :
    Known { s' with workers := s.workers.set w wk' } := by
  refine ⟨?_, ?_, ?_⟩
  · intro v x f hv hx
    rcases getElem?_moved hv with ⟨rfl, rfl⟩ | ⟨hne, hv⟩
    · rcases h.holds_of hx with hx | ⟨rfl, hfresh⟩ | ⟨ft, -, hft, htask⟩
      · exact Nat.lt_of_lt_of_le (hs.held hw hx) h.fresh_le
      · show s.fresh < s'.fresh
        rw [hfresh]
        exact Nat.lt_succ_self _
      · have hknown := hs.queued ft (mem_of_find?_eq_some hft)
        rw [htask] at hknown
        exact Nat.lt_of_lt_of_le (of_decide_eq_true hknown) h.fresh_le
    · exact Nat.lt_of_lt_of_le (hs.held hv hx) h.fresh_le
  · intro ft hft
    refine known_mono (s := s) h.fresh_le ?_
    rcases h.mem_m_fibers hft with hft | hft | ⟨c, hc⟩ | ⟨f, hf, hheld⟩
    · exact hs.queued ft hft
    · exact hs.registered _ hft
    · rw [hc]
      rfl
    · rw [hf]
      exact decide_eq_true (hs.held hw hheld)
  · exact fun task ht => known_mono (s := s) h.fresh_le (hs.registered task (h.mem_events ht))

/-- What a call can do to what the invariant speaks of. -/
structure Extends (s t : State) : Prop where
  workers : t.workers = s.workers
  fresh : s.fresh ≤ t.fresh
  m_state : ∀ f < s.fresh, t.m_state f = s.m_state f
  m_fibers : ∀ ft ∈ t.m_fibers,
    ft ∈ s.m_fibers ∨ s.known ft.task = true ∨ ft.task ∈ s.events
  events : ∀ task ∈ t.events, task ∈ s.events ∨ s.known task = true

--  _ =>|the timers are not part of the relation
theorem act_extends {s : State} {a : Action} (h : act s a = some t) : Extends s t := by
  cases a with
  | newFiber =>
    cases h
    refine ⟨rfl, Nat.le_succ _, fun f hf => ?_, fun _ => Or.inl, fun _ => Or.inl⟩
    exact Function.update_of_ne (Nat.ne_of_lt hf) _ _
  | schedule ft =>
    obtain ⟨hknown, ht⟩ := Option.ite_none_right_eq_some.mp h
    cases ht
    refine ⟨rfl, Nat.le_refl _, fun _ _ => rfl, fun x hx => ?_, fun _ => Or.inl⟩
    rcases mem_append.mp hx with hx | hx
    · exact Or.inl hx
    · obtain rfl := mem_singleton.mp hx
      exact Or.inr (Or.inl hknown)
  | addEvent task =>
    obtain ⟨hknown, ht⟩ := Option.ite_none_right_eq_some.mp h
    cases ht
    refine ⟨rfl, Nat.le_refl _, fun _ _ => rfl, fun _ => Or.inl, fun x hx => ?_⟩
    rcases mem_append.mp hx with hx | hx
    · exact Or.inl hx
    · obtain rfl := mem_singleton.mp hx
      exact Or.inr hknown
  | delEvent i =>
    obtain ⟨-, ht⟩ := Option.ite_none_right_eq_some.mp h
    cases ht
    exact ⟨rfl, Nat.le_refl _, fun _ _ => rfl, fun _ => Or.inl,
      fun x hx => Or.inl (mem_of_mem_eraseIdx hx)⟩
  | cancelEvent i =>
    rw [act] at h
    cases htask : s.events[i]? with
    | none =>
      rw [htask] at h
      cases h
    | some task =>
      rw [htask] at h
      cases h
      refine ⟨rfl, Nat.le_refl _, fun _ _ => rfl, fun x hx => ?_,
        fun x hx => Or.inl (mem_of_mem_eraseIdx hx)⟩
      rcases mem_append.mp hx with hx | hx
      · exact Or.inl hx
      · obtain rfl := mem_singleton.mp hx
        exact Or.inr (Or.inr (mem_of_getElem? htask))
  | countDown =>
    obtain ⟨-, ht⟩ := Option.ite_none_right_eq_some.mp h
    cases ht
    exact ⟨rfl, Nat.le_refl _, fun _ _ => rfl, fun _ => Or.inl, fun _ => Or.inl⟩
  | _ =>
    cases h
    exact ⟨rfl, Nat.le_refl _, fun _ _ => rfl, fun _ => Or.inl, fun _ => Or.inl⟩

theorem Extends.known {s : State} (hs : Known s) (h : Extends s t) : Known t := by
  refine ⟨?_, ?_, ?_⟩
  · intro v x f hv hx
    exact Nat.lt_of_lt_of_le (hs.held (h.workers ▸ hv) hx) h.fresh
  · intro ft hft
    refine known_mono (s := s) h.fresh ?_
    rcases h.m_fibers ft hft with hft | hft | hft
    · exact hs.queued ft hft
    · exact hft
    · exact hs.registered _ hft
  · intro task ht
    exact known_mono (s := s) h.fresh ((h.events task ht).elim (hs.registered task) id)

/-- One step keeps the fibers in sight. -/
theorem step_known {s : State} (hs : Known s) (h : step s l = some t) : Known t := by
  rcases step_cases h with ⟨w, choice, wk, wk', s', rfl, hw, hm, rfl⟩
    | ⟨caller, a, rfl, -, ha⟩
  · exact hm.known hs hw
  · exact (act_extends ha).known hs

/-! ## The invariant -/

/-- No two workers hold one fiber, all fibers in sight exist, and one about to be swapped in is not
`EXEC`. -/
structure Exclusive (s : State) : Prop where
  alone : ∀ {w w' : Nat} {wk wk' : Worker} {f : Nat}, s.workers[w]? = some wk →
    s.workers[w']? = some wk' → wk.holds f → wk'.holds f → w = w'
  held : ∀ {w : Nat} {wk : Worker} {f : Nat}, s.workers[w]? = some wk →
    wk.holds f → f < s.fresh
  queued : ∀ ft ∈ s.m_fibers, s.known ft.task = true
  registered : ∀ task ∈ s.events, s.known task = true
  ready : ∀ {w : Nat} {wk : Worker} {f : Nat}, s.workers[w]? = some wk →
    (wk.pc = .popped (.fiber f) ∨ wk.pc = .callback f) → s.m_state f ≠ .EXEC
  idle : ∀ {w : Nat} {wk : Worker}, s.workers[w]? = some wk →
    wk.idle_fiber = .EXEC → wk.pc.inIdle = true

theorem Exclusive.toKnown {s : State} (hs : Exclusive s) : Known s :=
  ⟨hs.held, hs.queued, hs.registered⟩

theorem init_exclusive (n : Nat) : Exclusive (init n) := by
  have idle {w : Nat} {wk : Worker} (h : (init n).workers[w]? = some wk) :
      wk = ⟨.pop, none, .INIT⟩ :=
    eq_of_mem_replicate (mem_of_getElem? h)
  have hknown := init_known n
  refine ⟨?_, hknown.held, hknown.queued, hknown.registered, ?_, ?_⟩
  · intro w w' wk wk' f hw _ hf _
    obtain rfl := idle hw
    exact hf.elim (nomatch ·) (nomatch ·)
  · intro w wk f hw hf
    obtain rfl := idle hw
    exact hf.elim (nomatch ·) (nomatch ·)
  · intro w wk hw hexec
    obtain rfl := idle hw
    exact nomatch hexec

/-- One move under the condition keeps the invariant. -/
theorem Moves.exclusive {s s' : State} {w : Nat} {wk wk' : Worker}
    (hs : Exclusive s) (hw : s.workers[w]? = some wk)
    (hfree : ∀ ft f, wk.pc = .pop →
      s.m_fibers.find? (mayTake s.m_state w) = some ft → ft.task = .fiber f →
      ∀ v x, s.workers[v]? = some x → v ≠ w → ¬ x.holds f)
    (h : Moves s w wk wk' s') :
    Exclusive { s' with workers := s.workers.set w wk' } := by
  have hknown := h.known hs.toKnown hw
  have apart {v : Nat} {x : Worker} {f : Nat} (hv : s.workers[v]? = some x)
      (hne : v ≠ w) (hx : x.holds f) : ¬ wk'.holds f := by
    intro hf
    rcases h.holds_of hf with hf | ⟨rfl, -⟩ | ⟨ft, hpc, hft, htask⟩
    · exact hne (hs.alone hv hw hx hf)
    · exact Nat.lt_irrefl _ (hs.held hv hx)
    · exact hfree ft f hpc hft htask v x hv hne hx
  refine ⟨?_, ?_, ?_, ?_, ?_, ?_⟩
  · intro v v' x x' f hv hv' hx hx'
    rcases getElem?_moved hv with ⟨rfl, rfl⟩ | ⟨hne, hsv⟩
    · rcases getElem?_moved hv' with ⟨rfl, -⟩ | ⟨hne', hsv'⟩
      · rfl
      · exact absurd hx (apart hsv' hne' hx')
    · rcases getElem?_moved hv' with ⟨rfl, rfl⟩ | ⟨hne', hsv'⟩
      · exact absurd hx' (apart hsv hne hx)
      · exact hs.alone hsv hsv' hx hx'
  · exact hknown.held
  · exact hknown.queued
  · exact hknown.registered
  · intro v x f hv hx
    rcases getElem?_moved hv with ⟨rfl, rfl⟩ | ⟨hne, hv⟩
    · exact h.m_state_ne hx
    · -- the state of a fiber in another worker's hand was not written
      have hheld : x.holds f := by
        rcases hx with hx | hx <;> exact Or.inl (by rw [hx]; rfl)
      have hsame : s'.m_state f = s.m_state f := by
        by_contra hwritten
        rcases h.m_state_of hwritten with hf | ⟨rfl, -⟩
        · exact hne (hs.alone hv hw hheld hf)
        · exact Nat.lt_irrefl _ (hs.held hv hheld)
      show s'.m_state f ≠ .EXEC
      rw [hsame]
      exact hs.ready hv hx
  · intro v x hv hexec
    rcases getElem?_moved hv with ⟨rfl, rfl⟩ | ⟨-, hsv⟩
    · exact h.idle_fiber_of (hs.idle hw) hexec
    · exact hs.idle hsv hexec

theorem Extends.exclusive {s : State} (hs : Exclusive s) (h : Extends s t) : Exclusive t := by
  have old {w : Nat} {wk : Worker} (hw : t.workers[w]? = some wk) : s.workers[w]? = some wk := by
    rwa [h.workers] at hw
  have hknown := h.known hs.toKnown
  refine ⟨?_, ?_, ?_, ?_, ?_, ?_⟩
  · intro v v' x x' f hv hv'
    exact hs.alone (old hv) (old hv')
  · exact hknown.held
  · exact hknown.queued
  · exact hknown.registered
  · intro v x f hv hx
    have hheld : x.holds f := by
      rcases hx with hx | hx <;> exact Or.inl (by rw [hx]; rfl)
    rw [h.m_state f (hs.held (old hv) hheld)]
    exact hs.ready (old hv) hx
  · intro v x hv
    exact hs.idle (old hv)

/-- One step under the condition keeps the invariant. -/
theorem step_exclusive {s : State} (hs : Exclusive s) (hfree : PopsFree s l) (h : step s l = some t)
    :
    Exclusive t := by
  rcases step_cases h with ⟨w, choice, wk, wk', s', rfl, hw, hm, rfl⟩
    | ⟨caller, a, rfl, -, ha⟩
  · exact hm.exclusive hs hw fun ft f hpc hft htask v x hv hne =>
      hfree wk hw hpc ft f hft htask v x hv hne
  · exact (act_extends ha).exclusive hs

/-- **A stack has one thread on it.**  In every run in which no pop takes an entry of a fiber
that another worker holds, a fiber that is about to be swapped in is not `EXEC` and no
worker is on its stack, and an idle fiber that is about to be swapped in is not `EXEC`. -/
theorem stack_exclusive {n : Nat} {s : State} (h : Reaches step PopsFree (init n) s) :
    (∀ w f, SwapsIn s w f → s.m_state f ≠ .EXEC ∧ ∀ v, ¬ OnStack s v f)
      ∧ ∀ wk ∈ s.workers, wk.pc = .noTask → wk.idle_fiber ≠ .EXEC := by
  have hs : Exclusive s := h.inv (init_exclusive n) step_exclusive
  constructor
  · rintro w f ⟨wk, hw, hpc⟩
    have hpc : wk.pc = .popped (.fiber f) ∨ wk.pc = .callback f :=
      hpc.elim Or.inr fun hpc => Or.inl hpc.1
    refine ⟨hs.ready hw hpc, ?_⟩
    rintro v ⟨x, hv, hon⟩
    have hx : x.holds f := by
      refine Or.inl ?_
      unfold Worker.onStack at hon
      split at hon <;> simp_all [Pc.hand]
    have hwk : wk.holds f := by
      rcases hpc with hpc | hpc <;> exact Or.inl (by rw [hpc]; rfl)
    -- the worker on the stack would be the one that is about to enter it
    obtain rfl := hs.alone hv hw hx hwk
    obtain rfl : x = wk := Option.some.inj (hv.symm.trans hw)
    rcases hpc with hpc | hpc <;> simp [Worker.onStack, hpc] at hon
  · intro wk hmem hpc hexec
    obtain ⟨w, hw⟩ := getElem?_of_mem hmem
    have hin := hs.idle hw hexec
    rw [hpc] at hin
    exact nomatch hin

/-- A fiber in the queue, popped by the first of two workers. -/
theorem stack_exclusive_pop : ∃ s, exec step (init 2)
        [.act none .newFiber, .act none (.schedule ⟨.fiber 0, none⟩), .worker 0 .go] = some s
      ∧ SwapsIn s 0 0 ∧ s.m_state 0 ≠ .EXEC ∧ ∀ v, ¬ OnStack s v 0 := by
  have hrun : exec step (init 2)
      [.act none .newFiber, .act none (.schedule ⟨.fiber 0, none⟩), .worker 0 .go] = some _ := rfl
  have hfree : Along step PopsFree (init 2)
      [.act none .newFiber, .act none (.schedule ⟨.fiber 0, none⟩), .worker 0 .go] := by
    refine ⟨trivial, fun t ht => ?_⟩
    cases ht
    refine ⟨trivial, fun t ht => ?_⟩
    cases ht
    refine ⟨?_, fun t ht => trivial⟩
    rintro wk - - ft f - - v x hv - hx
    obtain rfl : x = ⟨.pop, none, .INIT⟩ := eq_of_mem_replicate (n := 2) (mem_of_getElem? hv)
    exact hx.elim (nomatch ·) (nomatch ·)
  refine ⟨_, hrun, ⟨_, rfl, Or.inr ⟨rfl, rfl⟩⟩, ?_⟩
  exact (stack_exclusive (reaches_of_exec hfree hrun)).1 0 0 ⟨_, rfl, Or.inr ⟨rfl, rfl⟩⟩

/-- A fiber that is queued while it runs is swapped in by the second worker after
`YieldToHold` wrote `HOLD` and before the first has left its stack.  One that is queued
twice is popped by both before either swaps it in, and the second `SwapIn` fails its
assertion. -/
theorem held_fiber_popped_twice : (∃ s, exec step (init 2)
        [.act none .newFiber, .act none (.schedule ⟨.fiber 0, none⟩),
          .worker 0 .go, .worker 0 .go, .act none (.schedule ⟨.fiber 0, none⟩),
          .worker 0 .YieldToHold, .worker 1 .go] = some s
      ∧ SwapsIn s 1 0 ∧ OnStack s 0 0)
      ∧ ∃ s, exec step (init 2) [.act none .newFiber, .act none (.schedule ⟨.fiber 0, none⟩),
          .act none (.schedule ⟨.fiber 0, none⟩),
          .worker 0 .go, .worker 1 .go, .worker 0 .go] = some s
      ∧ SwapsIn s 1 0 ∧ s.m_state 0 = .EXEC := by
  refine ⟨⟨_, rfl, ⟨_, rfl, Or.inr ⟨rfl, rfl⟩⟩, ⟨_, rfl, rfl⟩⟩, ?_⟩
  exact ⟨_, rfl, ⟨_, rfl, Or.inr ⟨rfl, rfl⟩⟩, rfl⟩

end SylarScheduler
