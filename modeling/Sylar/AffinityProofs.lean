import Sylar.StackSafetyProofs

/-! # The thread a task was scheduled for (`Scheduler::schedule`, `Scheduler::run`)

`schedule(fc, t)` writes the thread into the queue entry.  A pop copies the
entry and `run` queues a fiber that is `READY` again with `schedule(fiber)`,
an entry of any thread.  To speak of the thread that was asked for, the
queue is watched: beside every entry stands the thread of the call that
this execution of the task goes back to, and beside every worker the one
of its task.

* **`track`** — the system watched; **`track_base`** says that watching
  changes nothing.
* **`affinity`** — when every `SwapIn` is on the thread that was asked for. -/

namespace SylarScheduler

open StepSystem List

/-- The system with the threads asked for: `asked` beside `m_fibers`, `job w` for the task in the
hand of worker `w`. -/
structure Tracked where
  base : State
  asked : List (Option Nat)
  job : Nat → Option Nat

def Tracked.init (n : Nat) : Tracked :=
  ⟨SylarScheduler.init n, [], fun _ => none⟩

/-- The worker that takes an entry in this step, and the entry's position. -/
def takes (s : State) : Label → Option (Nat × Nat)
  | .worker w _ =>
    match s.workers[w]? with
    | some wk =>
        if wk.pc = .pop then
          (s.m_fibers.findIdx? (mayTake s.m_state w)).map (Prod.mk w)
        else none
    | none => none
  | .act _ _ => none

/-- The worker that queues its fiber again in this step. -/
def requeues (s : State) : Label → Option Nat
  | .worker w _ =>
    match s.workers[w]? with
    | some wk =>
        match wk.pc with
        | .bookkeep f _ => if s.m_state f = .READY then some w else none
        | _ => none
    | none => none
  | .act _ _ => none

/-- The step with its record: an entry that is taken becomes the worker's job, a fiber queued again
keeps the thread of its job, a new entry is for the thread it names. -/
def track (s : Tracked) (l : Label) : Option Tracked :=
  (step s.base l).map fun t =>
    match takes s.base l with
    | some (w, i) =>
        ⟨t, s.asked.eraseIdx i, Function.update s.job w (s.asked[i]?).join⟩
    | none =>
        let new := t.m_fibers.drop s.base.m_fibers.length
        ⟨t, s.asked ++ new.map fun ft =>
          match requeues s.base l with
          | some w => s.job w
          | none => ft.thread, s.job⟩

/-- The record does not change what the system does. -/
theorem track_base (s : Tracked) (l : Label) : (track s l).map Tracked.base = step s.base l := by
  rw [track, Option.map_map]
  refine (congrFun (congrArg Option.map (funext fun t => ?_)) _).trans Option.map_id'
  dsimp only [Function.comp_apply]
  split <;> rfl

/-- A task that was scheduled for a thread is queued again only where no other
worker could take it. -/
def KeepsThread (s : Tracked) (l : Label) : Prop :=
  ∀ w ∈ requeues s.base l, s.job w = none ∨ s.base.workers.length ≤ 1

instance (s : Tracked) (l : Label) : Decidable (KeepsThread s l) :=
  inferInstanceAs (Decidable (∀ w ∈ requeues s.base l, _ ∨ _))

/-! ## What a step does to the queue -/

/-- A task is in the worker's hand. -/
def Pc.busy : Pc → Bool
  | .popped _ | .callback _ => true
  | .exec _ _ | .leave _ _ | .decrement _ _ | .bookkeep _ _ => true
  | _ => false

section Moves

variable {s s' : State} {w : Nat} {wk wk' : Worker}

/-- A task comes into a worker's hand by a pop. -/
theorem Moves.busy_of (h : Moves s w wk wk' s') (hpop : wk.pc ≠ .pop)
    (hbusy : wk'.pc.busy = true) : wk.pc.busy = true := by
  cases h with
  | SwapIn own hpc => cases own <;> simp_all [Pc.busy]
  | _ => simp_all [Pc.busy]

/-- Outside the pop a worker only adds entries. -/
theorem Moves.m_fibers_grow (h : Moves s w wk wk' s') (hpop : wk.pc ≠ .pop) :
    ∃ new, s'.m_fibers = s.m_fibers ++ new := by
  cases h with
  | take hpc => exact absurd hpc hpop
  | requeue => exact ⟨_, rfl⟩
  | scheduleAll => exact ⟨_, rfl⟩
  | trigger => exact ⟨_, rfl⟩
  | _ => exact ⟨[], (append_nil _).symm⟩

end Moves

/-- The watched step: a worker takes an entry, or the queue grows and no
worker gets a task. -/
inductive Tracks (s : Tracked) (l : Label) : Tracked → Prop
  | take {t : State} {w i : Nat} {wk wk' : Worker} {ft : FiberAndThread}
      (hw : s.base.workers[w]? = some wk) (hft : s.base.m_fibers[i]? = some ft)
      (hmay : mayTake s.base.m_state w ft = true)
      (hqueue : t.m_fibers = s.base.m_fibers.eraseIdx i)
      (hworkers : t.workers = s.base.workers.set w wk') :
      Tracks s l
        ⟨t, s.asked.eraseIdx i, Function.update s.job w (s.asked[i]?).join⟩
  | grow {t : State} {new : List FiberAndThread}
      (hqueue : t.m_fibers = s.base.m_fibers ++ new)
      (hlength : t.workers.length = s.base.workers.length)
      (hworkers : ∀ {v : Nat} {x : Worker}, t.workers[v]? = some x →
        x.pc.busy = true → ∃ y, s.base.workers[v]? = some y ∧ y.pc.busy = true) :
      Tracks s l ⟨t, s.asked ++ new.map fun ft =>
        match requeues s.base l with
        | some w => s.job w
        | none => ft.thread, s.job⟩

theorem takes_of_ne {s : State} {w : Nat} {wk : Worker} (choice : Choice)
    (hw : s.workers[w]? = some wk) (hpop : wk.pc ≠ .pop) :
    takes s (.worker w choice) = none := by
  rw [takes, hw]
  exact if_neg hpop

theorem takes_of_pop {s : State} {w : Nat} {wk : Worker} (choice : Choice)
    (hw : s.workers[w]? = some wk) (hpop : wk.pc = .pop) :
    takes s (.worker w choice) = (s.m_fibers.findIdx? (mayTake s.m_state w)).map (Prod.mk w) := by
  rw [takes, hw]
  exact if_pos hpop

variable {u : Tracked} {l : Label}

/-- A step that takes nothing records the entries it adds. -/
theorem track_grow {s : Tracked} {t : State} (new : List FiberAndThread)
    (hstep : step s.base l = some t) (htakes : takes s.base l = none)
    (hqueue : t.m_fibers = s.base.m_fibers ++ new) (h : track s l = some u) :
    u = ⟨t, s.asked ++ new.map fun ft =>
      match requeues s.base l with
      | some w => s.job w
      | none => ft.thread, s.job⟩ := by
  rw [track, hstep, Option.map_some, htakes] at h
  dsimp only at h
  rw [hqueue, drop_left] at h
  exact (Option.some.inj h).symm

theorem track_cases {s : Tracked} (h : track s l = some u) : Tracks s l u := by
  obtain ⟨t, hstep, hu⟩ := Option.map_eq_some_iff.mp h
  rcases step_cases hstep with ⟨w, choice, wk, wk', s', rfl, hw, hm, rfl⟩
    | ⟨caller, a, rfl, -, hact⟩
  · by_cases hpop : wk.pc = .pop
    · have htakes := takes_of_pop choice hw hpop
      cases hm with
      | @take ft _ hft =>
        obtain ⟨i, hi⟩ : ∃ i, s.base.m_fibers.findIdx? (mayTake s.base.m_state w) = some i := by
          have hmem := mem_of_find?_eq_some hft
          rw [← Option.isSome_iff_exists, findIdx?_isSome]
          exact any_eq_true.mpr ⟨ft, hmem, find?_some hft⟩
        obtain ⟨hlt, hmay, -⟩ := findIdx?_eq_some_iff_getElem.mp hi
        rw [hi] at htakes
        rw [htakes] at hu
        obtain rfl := hu
        refine .take (t := _) hw (getElem?_eq_getElem hlt) hmay ?_ rfl
        show s.base.m_fibers.eraseP _ = _
        rw [eraseP_eq_eraseIdx, hi]
      | noTask _ hft =>
        have hnone : s.base.m_fibers.findIdx? (mayTake s.base.m_state w) = none := by
          rw [findIdx?_eq_none_iff]
          exact fun x hx => Bool.eq_false_iff.mpr (find?_eq_none.mp hft x hx)
        rw [hnone] at htakes
        rw [track_grow [] hstep htakes (append_nil _).symm h]
        refine .grow (append_nil _).symm (length_set ..) ?_
        intro v x hv hbusy
        rcases getElem?_moved hv with ⟨rfl, rfl⟩ | ⟨-, hv⟩
        · cases hbusy
        · exact ⟨x, hv, hbusy⟩
      | SwapIn own hpc => cases own <;> simp_all
      | _ => simp_all
    · obtain ⟨new, hqueue⟩ := hm.m_fibers_grow hpop
      rw [track_grow new hstep (takes_of_ne choice hw hpop) hqueue h]
      refine .grow hqueue (length_set ..) ?_
      intro v x hv hbusy
      rcases getElem?_moved hv with ⟨rfl, rfl⟩ | ⟨-, hv⟩
      · exact ⟨wk, hw, hm.busy_of hpop hbusy⟩
      · exact ⟨x, hv, hbusy⟩
  · have hqueue := act_m_fibers hact
    have hworkers := (act_extends hact).workers
    rw [track_grow _ hstep rfl hqueue h]
    refine .grow hqueue (by rw [hworkers]) ?_
    intro v x hv hbusy
    exact ⟨x, by rwa [hworkers] at hv, hbusy⟩

/-! ## The invariant -/

/-- No worker but `t` could take it. -/
def Alone (s : State) (t : Nat) : Prop :=
  ∀ w < s.workers.length, w = t

/-- Every entry, and every task in a worker's hand, is where it was asked for. -/
structure Pinned (s : Tracked) : Prop where
  length : s.asked.length = s.base.m_fibers.length
  queued : ∀ {i t : Nat} {ft : FiberAndThread}, s.base.m_fibers[i]? = some ft →
    s.asked[i]? = some (some t) → ft.thread = some t ∨ Alone s.base t
  running : ∀ {w t : Nat} {wk : Worker}, s.base.workers[w]? = some wk →
    wk.pc.busy = true → s.job w = some t → w = t

private theorem init_pinned (n : Nat) : Pinned (Tracked.init n) :=
  ⟨rfl, fun h _ => (nomatch h), fun _ _ h => (nomatch h)⟩

/-- The worker that may take an entry is the one it is for. -/
theorem Pinned.eq_of_mayTake {s : Tracked} {i w t : Nat} {wk : Worker}
    {ft : FiberAndThread} (hs : Pinned s) (hw : s.base.workers[w]? = some wk)
    (hft : s.base.m_fibers[i]? = some ft) (hmay : mayTake s.base.m_state w ft = true)
    (ht : s.asked[i]? = some (some t)) : w = t := by
  rcases hs.queued hft ht with hthread | halone
  · rw [mayTake, hthread] at hmay
    have heq : t = w := by simpa using (Bool.and_eq_true_iff.mp hmay).1
    exact heq.symm
  · exact halone w (List.getElem?_eq_some_iff.mp hw).1

theorem requeues_spec {s : State} {w : Nat} (h : requeues s l = some w) :
    ∃ wk, s.workers[w]? = some wk ∧ wk.pc.busy = true := by
  unfold requeues at h
  split at h
  · split at h
    · next wk hw =>
      split at h
      · next f own hpc =>
        obtain ⟨-, heq⟩ := Option.ite_none_right_eq_some.mp h
        cases heq
        exact ⟨wk, hw, by rw [hpc]; rfl⟩
      · cases h
    · cases h
  · cases h

/-- **One watched step** under the condition keeps the tasks where they were
asked for. -/
theorem Pinned.track {s : Tracked} (hs : Pinned s) (hc : KeepsThread s l)
    (h : SylarScheduler.track s l = some u) : Pinned u := by
  cases track_cases h with
  | @take t w i wk wk' ft hw hft hmay hqueue hworkers =>
    have hi : i < s.base.m_fibers.length := (List.getElem?_eq_some_iff.mp hft).1
    refine ⟨?_, ?_, ?_⟩
    · show (s.asked.eraseIdx i).length = t.m_fibers.length
      rw [hqueue, length_eraseIdx_of_lt hi, length_eraseIdx_of_lt (hs.length ▸ hi), hs.length]
    · intro j r x hx hr
      have halone (ha : Alone s.base r) : Alone t r := by
        intro v hv
        rw [hworkers, length_set] at hv
        exact ha v hv
      dsimp only at hx hr
      rw [hqueue, getElem?_eraseIdx] at hx
      rw [getElem?_eraseIdx] at hr
      -- both lists lose the same position
      split at hx
      · next hlt => exact (hs.queued hx (by rwa [if_pos hlt] at hr)).imp id halone
      · next hlt => exact (hs.queued hx (by rwa [if_neg hlt] at hr)).imp id halone
    · intro v r x hv hbusy hjob
      dsimp only at hv hjob
      rw [hworkers] at hv
      by_cases hvw : v = w
      · subst hvw
        rw [Function.update_self] at hjob
        exact hs.eq_of_mayTake hw hft hmay (Option.join_eq_some_iff.mp hjob)
      · rw [Function.update_of_ne hvw] at hjob
        rw [getElem?_set_ne (Ne.symm hvw)] at hv
        exact hs.running hv hbusy hjob
  | @grow t new hqueue hlength hworkers =>
    refine ⟨?_, ?_, ?_⟩
    · show (s.asked ++ _).length = t.m_fibers.length
      rw [hqueue, length_append, length_append, length_map, hs.length]
    · intro j r x hx hr
      have halone (ha : Alone s.base r) : Alone t r := by
        intro v hv
        exact ha v (hlength ▸ hv)
      dsimp only at hx hr
      rw [hqueue] at hx
      by_cases hj : j < s.base.m_fibers.length
      · rw [getElem?_append_left hj] at hx
        rw [getElem?_append_left (hs.length ▸ hj)] at hr
        exact (hs.queued hx hr).imp id halone
      · rw [getElem?_append_right (Nat.le_of_not_lt hj)] at hx
        rw [getElem?_append_right (hs.length ▸ Nat.le_of_not_lt hj), hs.length,
          getElem?_map, hx, Option.map_some] at hr
        have hr := Option.some.inj hr
        split at hr
        · -- queued again: the job was on its thread, and nobody else is there
          next w hreq =>
          obtain ⟨wk, hw, hbusy⟩ := requeues_spec hreq
          have hwr : w = r := hs.running hw hbusy hr
          have hone : s.base.workers.length ≤ 1 := by
            refine (hc w hreq).resolve_left fun hnone => ?_
            rw [hnone] at hr
            cases hr
          have hlt := (List.getElem?_eq_some_iff.mp hw).1
          exact Or.inr (halone fun v hv => by omega)
        · exact Or.inl hr
    · intro v r x hv hbusy hjob
      obtain ⟨y, hy, hybusy⟩ := hworkers hv hbusy
      exact hs.running hy hybusy hjob

/-! ## Main results -/

/-- **THREAD AFFINITY.** If no task scheduled for a thread is queued again by `run` while there are
other workers, the worker that swaps in a fiber is the one its task was scheduled for. -/
theorem affinity {n : Nat} {s : Tracked}
    (h : Reaches track KeepsThread (Tracked.init n) s) {w f t : Nat}
    (hswap : SwapsIn s.base w f) (hjob : s.job w = some t) : w = t := by
  have hs : Pinned s := h.inv (init_pinned n) fun hs hc hstep => hs.track hc hstep
  obtain ⟨wk, hw, hpc⟩ := hswap
  refine hs.running hw ?_ hjob
  rcases hpc with hpc | ⟨hpc, -⟩ <;> rw [hpc] <;> rfl

/-- A fiber for thread 1 that yields to `HOLD` and is scheduled there again. -/
def pinnedRun : List Label :=
  [.act none .newFiber, .act none (.schedule ⟨.fiber 0, some 1⟩),
    .worker 1 .go, .worker 1 .go, .worker 1 .YieldToHold, .worker 1 .go,
    .worker 1 .go, .worker 1 .go, .act none (.schedule ⟨.fiber 0, some 1⟩),
    .worker 0 .go, .worker 1 .go]

theorem affinity_pinnedRun :
    ∃ s, exec track (Tracked.init 2) pinnedRun = some s ∧ SwapsIn s.base 1 0
      ∧ s.job 1 = some 1 ∧ 1 = 1 := by
  have hrun : (exec track (Tracked.init 2) pinnedRun).isSome = true := by
    decide +kernel
  obtain ⟨s, hs⟩ := Option.isSome_iff_exists.mp hrun
  have hswap : SwapsIn s.base 1 0 ∧ s.job 1 = some 1 := by
    cases hs
    exact ⟨⟨_, rfl, Or.inr ⟨rfl, rfl⟩⟩, rfl⟩
  have halong : Along track KeepsThread (Tracked.init 2) pinnedRun := by
    decide +kernel
  exact ⟨s, hs, hswap.1, hswap.2, affinity (reaches_of_exec halong hs) hswap.1 hswap.2⟩

/-- **A task that yields to `READY` leaves its thread**: fiber 0, scheduled for thread 0, is
swapped in next by worker 1. -/
theorem ready_task_moves : ∃ s, exec track (Tracked.init 2)
        [.act none .newFiber, .act none (.schedule ⟨.fiber 0, some 0⟩),
          .worker 0 .go, .worker 0 .go, .worker 0 .YieldToReady, .worker 0 .go,
          .worker 0 .go, .worker 0 .go, .worker 1 .go] = some s
      ∧ SwapsIn s.base 1 0 ∧ s.job 1 = some 0 :=
  ⟨_, rfl, ⟨_, rfl, Or.inr ⟨rfl, rfl⟩⟩, rfl⟩

end SylarScheduler
