import Sylar.SchedulerProofs

/-! # Shutdown of an `IOManager` (`IOManager::stopping`, `Scheduler::run`)

After `stop()` a worker leaves `run` when its idle fiber has found no timer,
no pending event, no queued task and no active worker, in three reads that
other workers can run between.

* **`nothing_lost`** — when all workers have left, the queue, the timers and the pending events are
  gone. -/

namespace SylarScheduler

open StepSystem List

/-- The worker will call `getNextTimer` before its idle fiber can end. -/
def Worker.WatchesTimers (wk : Worker) : Prop :=
  wk.idle_fiber ≠ .TERM ∧ wk.pc ≠ .idle .pending ∧ wk.pc ≠ .idle .stopping

/-- The worker will read `m_pendingEventCount` before its idle fiber can end. -/
def Worker.WatchesEvents (wk : Worker) : Prop :=
  wk.idle_fiber ≠ .TERM ∧ wk.pc ≠ .idle .stopping

/-- The worker will look at the queue before it leaves. -/
def Worker.WatchesQueue (wk : Worker) : Prop :=
  wk.idle_fiber ≠ .TERM ∨ (wk.pc ≠ .left ∧ wk.pc ≠ .noTask)

/-- After `stop()` only code of workers adds tasks, timers and events, and no task is pinned to a
thread. -/
def FromTasks (s : State) : Label → Prop
  | .act caller (.schedule ft) =>
    s.m_stopping = true → caller.isSome ∧ ft.thread = none
  | .act caller (.addTimer _) | .act caller (.addEvent _)
  | .act caller (.cancelEvent _) => s.m_stopping = true → caller.isSome
  | _ => True

/-- A timer is added while some worker watches the timers, an event while some
worker watches the counter. -/
def Attended (s : State) : Label → Prop
  | .act _ (.addTimer _) => ∃ wk ∈ s.workers, wk.WatchesTimers
  | .act _ (.addEvent _) => ∃ wk ∈ s.workers, wk.WatchesEvents
  | _ => True

/-- The worker has triggered an event and not yet decremented the counter. -/
def Worker.counting (wk : Worker) : Bool :=
  match wk.pc with
  | .idle (.count _) => true
  | _ => false

/-- What keeps work from being lost: for each kind of work there is a worker
that will still look at it. -/
structure Staffed (s : State) : Prop where
  nonempty : s.workers ≠ []
  left : ∀ wk ∈ s.workers, wk.pc = .left → wk.idle_fiber = .TERM
  inIdle : ∀ wk ∈ s.workers, ∀ point, wk.pc = .idle point → wk.idle_fiber = .EXEC
  running : s.m_stopping = false → ∀ wk ∈ s.workers, wk.idle_fiber ≠ .TERM
  executed : ∀ f, s.m_state f = .EXEC → ∃ wk ∈ s.workers, ∃ own, wk.pc = .exec f own
  unpinned : (∃ wk ∈ s.workers, wk.idle_fiber = .TERM) →
    ∀ ft ∈ s.m_fibers, ft.thread = none
  queue : s.m_fibers ≠ [] → ∃ wk ∈ s.workers, wk.WatchesQueue
  timers : s.m_timers ≠ [] → ∃ wk ∈ s.workers, wk.WatchesTimers
  events : s.m_pendingEventCount ≠ 0 → ∃ wk ∈ s.workers, wk.WatchesEvents
  pending : s.m_pendingEventCount
    = s.events.length + s.triggered + s.workers.countP Worker.counting

theorem init_staffed (n : Nat) : Staffed (init (n + 1)) := by
  have idle {wk : Worker} (h : wk ∈ (init (n + 1)).workers) :
      wk = ⟨.pop, none, .INIT⟩ := eq_of_mem_replicate h
  refine ⟨?_, ?_, ?_, ?_, ?_, ?_, ?_, ?_, ?_, ?_⟩
  · exact cons_ne_nil _ _
  · intro wk hwk hpc
    obtain rfl := idle hwk
    exact nomatch hpc
  · intro wk hwk point hpc
    obtain rfl := idle hwk
    exact nomatch hpc
  · intro _ wk hwk
    obtain rfl := idle hwk
    exact FiberState.noConfusion
  · exact fun f h => nomatch h
  · exact fun _ ft hft => nomatch hft
  · exact fun h => absurd rfl h
  · exact fun h => absurd rfl h
  · exact fun h => absurd rfl h
  · have hzero : (init (n + 1)).workers.countP Worker.counting = 0 := by
      rw [countP_eq_zero]
      intro wk hwk
      obtain rfl := idle hwk
      exact Bool.false_ne_true
    rw [hzero]
    rfl

/-! ## What a move does to the watches -/

section Moves

variable {s s' : State} {w : Nat} {wk wk' : Worker}

theorem Moves.m_stopping_eq (h : Moves s w wk wk' s') : s'.m_stopping = s.m_stopping := by
  cases h <;> rfl

theorem Moves.left_of (h : Moves s w wk wk' s') (hpc : wk'.pc = .left) :
    wk'.idle_fiber = .TERM := by
  cases h with
  | exit _ hidle => exact hidle
  | _ => exact nomatch hpc

theorem Moves.inIdle_of {point : IdlePc} (h : Moves s w wk wk' s')
    (hin : ∀ point, wk.pc = .idle point → wk.idle_fiber = .EXEC)
    (hpc : wk'.pc = .idle point) : wk'.idle_fiber = .EXEC := by
  cases h with
  | idle => rfl
  | _ => first | exact hin _ (by assumption) | exact nomatch hpc

/-- An idle fiber ends only after `stop()`, and with an empty queue. -/
theorem Moves.term_of (h : Moves s w wk wk' s') (hterm : wk'.idle_fiber = .TERM) :
    wk.idle_fiber = .TERM ∨ (s.m_stopping = true ∧ s'.m_fibers = []) := by
  cases h with
  | stopping _ hstop hqueue => exact Or.inr ⟨hstop, hqueue⟩
  | idleLeave => grind
  | idle => exact nomatch hterm
  | _ => exact Or.inl hterm

/-- A fiber that is `EXEC` after the move was entered by it, or was `EXEC` on
another worker. -/
theorem Moves.exec_of {f : Nat} (h : Moves s w wk wk' s') (hexec : s'.m_state f = .EXEC) :
    (∃ own, wk'.pc = .exec f own) ∨ (s.m_state f = .EXEC ∧ ∀ own, wk.pc ≠ .exec f own) := by
  have unwritten {g : Nat} {x : FiberState} (hx : x ≠ .EXEC)
      (hexec : (s.setState g x).m_state f = .EXEC) : f ≠ g ∧ s.m_state f = .EXEC := by
    by_cases hfg : f = g
    · subst hfg
      rw [setState_self] at hexec
      exact absurd hexec hx
    · rw [setState_of_ne s x hfg] at hexec
      exact ⟨hfg, hexec⟩
  cases h with
  | @SwapIn g own hpc =>
    by_cases hfg : f = g
    · subst hfg
      exact Or.inl ⟨own, rfl⟩
    · rw [setState_of_ne s _ hfg] at hexec
      refine Or.inr ⟨hexec, fun own' hpc' => ?_⟩
      rw [hpc] at hpc'
      cases own <;> exact nomatch hpc'
  | yield hpc hx =>
    obtain ⟨hfg, hold⟩ := unwritten hx hexec
    refine Or.inr ⟨hold, fun own' hpc' => hfg ?_⟩
    rw [hpc] at hpc'
    exact (Pc.exec.inj hpc').1.symm
  | reset hpc | restart hpc | hold hpc =>
    refine Or.inr ⟨(unwritten FiberState.noConfusion hexec).2, fun own' hpc' => ?_⟩
    rw [hpc] at hpc'
    exact nomatch hpc'
  | newFiber hpc =>
    refine Or.inr ⟨(unwritten FiberState.noConfusion hexec).2, fun own' hpc' => ?_⟩
    rw [hpc] at hpc'
    exact nomatch hpc'
  | _ =>
    refine Or.inr ⟨hexec, fun own' hpc' => ?_⟩
    simp_all

/-- Workers queue unpinned entries. -/
theorem Moves.thread_of {ft : FiberAndThread} (h : Moves s w wk wk' s')
    (hft : ft ∈ s'.m_fibers) : ft ∈ s.m_fibers ∨ ft.thread = none := by
  cases h with
  | take => exact Or.inl (mem_of_mem_eraseP hft)
  | requeue | trigger =>
    rcases mem_append.mp hft with hft | hft
    · exact Or.inl hft
    · obtain rfl := mem_singleton.mp hft
      exact Or.inr rfl
  | scheduleAll =>
    rcases mem_append.mp hft with hft | hft
    · exact Or.inl hft
    · obtain ⟨c, -, rfl⟩ := mem_map.mp hft
      exact Or.inr rfl
  | _ => exact Or.inl hft

/-- A worker goes on watching the queue, unless it is about to leave and has just found nothing to
take. -/
theorem Moves.watchesQueue_of (h : Moves s w wk wk' s') (hne : s'.m_fibers ≠ [])
    (hwatch : wk.WatchesQueue ∨ s.m_fibers = []) :
    wk'.WatchesQueue ∨ (s' = s ∧ wk.pc = .pop ∧ wk.idle_fiber = .TERM
        ∧ s.m_fibers.find? (mayTake s.m_state w) = none) := by
  cases h with
  | noTask hpc hft =>
    by_cases hterm : wk.idle_fiber = .TERM
    · exact Or.inr ⟨rfl, hpc, hterm, hft⟩
    · exact Or.inl (Or.inl hterm)
  | exit hpc hidle =>
    refine Or.inl ?_
    rcases hwatch with (hterm | hpc') | hempty
    · exact absurd hidle hterm
    · exact absurd hpc hpc'.2
    · exact absurd hempty hne
  | stopping _ _ hqueue => exact absurd hqueue hne
  | _ => exact Or.inl (Or.inr ⟨Pc.noConfusion, Pc.noConfusion⟩)

theorem Moves.m_timers_of (h : Moves s w wk wk' s') (hne : s'.m_timers ≠ []) : s.m_timers ≠ [] := by
  cases h with
  | expired =>
    intro hempty
    dsimp only at hne
    rw [hempty] at hne
    exact hne rfl
  | _ => exact hne

theorem Moves.watchesTimers_of (h : Moves s w wk wk' s') (hne : s.m_timers ≠ [])
    (hwatch : wk.WatchesTimers) : wk'.WatchesTimers := by
  obtain ⟨hterm, hpend, hstop⟩ := hwatch
  cases h with
  | noTimer _ hempty => exact absurd hempty hne
  | noEvent hpc => exact absurd hpc hpend
  | stopping hpc => exact absurd hpc hstop
  | idle => exact ⟨FiberState.noConfusion, by simp, by simp⟩
  | idleLeave =>
    refine ⟨?_, Pc.noConfusion, Pc.noConfusion⟩
    grind
  | _ => exact ⟨hterm, by simp, by simp⟩

theorem Moves.watchesEvents_of (h : Moves s w wk wk' s')
    (hne : s.m_pendingEventCount ≠ 0) (hwatch : wk.WatchesEvents) :
    wk'.WatchesEvents := by
  obtain ⟨hterm, hstop⟩ := hwatch
  cases h with
  | noEvent _ hzero => exact absurd hzero hne
  | stopping hpc => exact absurd hpc hstop
  | idle => exact ⟨FiberState.noConfusion, by simp⟩
  | idleLeave =>
    refine ⟨?_, Pc.noConfusion⟩
    grind
  | _ => exact ⟨hterm, by simp⟩

/-- Only a worker that has triggered an event decrements the counter. -/
theorem Moves.pendingCount_of (h : Moves s w wk wk' s') :
    s'.m_pendingEventCount = s.m_pendingEventCount ∨ wk.counting = true := by
  cases h with
  | count hpc =>
    right
    rw [Worker.counting, hpc]
  | _ => exact Or.inl rfl

/-- The counter follows the registrations and the worker's own debt. -/
theorem Moves.pending_of (h : Moves s w wk wk' s') : s'.triggered = s.triggered
      ∧ s'.m_pendingEventCount + s.events.length + wk.counting.toNat
        = s.m_pendingEventCount + s'.events.length + wk'.counting.toNat := by
  cases h with
  | @trigger task batch hpc hmem =>
    have hpos := length_pos_of_mem hmem
    refine ⟨rfl, ?_⟩
    simp only [Worker.counting, hpc, State.push, length_erase_of_mem hmem,
      Bool.toNat_true, Bool.toNat_false]
    omega
  | count hpc =>
    refine ⟨rfl, ?_⟩
    simp only [Worker.counting, hpc, Bool.toNat_true, Bool.toNat_false]
    omega
  | SwapIn own hpc =>
    refine ⟨rfl, ?_⟩
    cases own <;> simp_all [Worker.counting, State.setState]
  | _ =>
    refine ⟨rfl, ?_⟩
    simp_all [Worker.counting, State.setState, State.push]

end Moves

/-! ## The invariant -/

/-- A worker about to leave that finds nothing to take in a queue of unpinned entries leaves it to
one that executes one of the fibers. -/
theorem watched_elsewhere {s : State} {w : Nat} {wk : Worker}
    (hs : Staffed s) (hmem : wk ∈ s.workers) (hterm : wk.idle_fiber = .TERM)
    (hnone : s.m_fibers.find? (mayTake s.m_state w) = none)
    (hne : s.m_fibers ≠ []) : ∃ x ∈ s.workers, ∃ f own, x.pc = .exec f own := by
  obtain ⟨ft, rest, hqueue⟩ := exists_cons_of_ne_nil hne
  have hft : ft ∈ s.m_fibers := by
    rw [hqueue]
    exact mem_cons_self
  have hmay := find?_eq_none.mp hnone ft hft
  have hthread := hs.unpinned ⟨wk, hmem, hterm⟩ ft hft
  obtain ⟨task, thread⟩ := ft
  cases task with
  | cb c => simp_all [mayTake]
  | fiber f =>
    have hexec : s.m_state f = .EXEC := by simp_all [mayTake]
    obtain ⟨x, hx, own, hpc⟩ := hs.executed f hexec
    exact ⟨x, hx, f, own, hpc⟩

/-- One move keeps the invariant. -/
theorem Moves.staffed {s s' : State} {w : Nat} {wk wk' : Worker} (hs : Staffed s)
    (hw : s.workers[w]? = some wk) (h : Moves s w wk wk' s') :
    Staffed { s' with workers := s.workers.set w wk' } := by
  have hmem : wk ∈ s.workers := mem_of_getElem? hw
  obtain ⟨htrig, hpending⟩ := h.pending_of
  have hcount : (s.workers.set w wk').countP Worker.counting + wk.counting.toNat
      = s.workers.countP Worker.counting + wk'.counting.toNat := countP_moved hw
  have hpend := hs.pending
  refine ⟨?_, ?_, ?_, ?_, ?_, ?_, ?_, ?_, ?_, ?_⟩
  · exact ne_nil_of_mem (moved_mem hw)
  · exact forall_moved hs.left fun hpc => h.left_of hpc
  · exact forall_moved hs.inIdle fun point hpc => h.inIdle_of (hs.inIdle wk hmem) hpc
  · intro hrun
    have hrun : s.m_stopping = false := h.m_stopping_eq ▸ hrun
    refine forall_moved (hs.running hrun) fun hterm => ?_
    rcases h.term_of hterm with hterm | ⟨hstop, -⟩
    · exact hs.running hrun wk hmem hterm
    · rw [hrun] at hstop
      exact nomatch hstop
  · intro f hexec
    rcases h.exec_of hexec with ⟨own, hpc⟩ | ⟨hold, hnot⟩
    · exact ⟨wk', moved_mem hw, own, hpc⟩
    · exact exists_moved hw (hs.executed f hold) fun ⟨own, hpc⟩ =>
        absurd hpc (hnot own)
  · rintro ⟨x, hx, hterm⟩ ft hft
    rcases h.thread_of hft with hold | hnone
    · rcases mem_or_eq_of_mem_set hx with hx | rfl
      · exact hs.unpinned ⟨x, hx, hterm⟩ ft hold
      · rcases h.term_of hterm with hterm | ⟨-, hempty⟩
        · exact hs.unpinned ⟨wk, hmem, hterm⟩ ft hold
        · exact absurd (show ft ∈ s'.m_fibers from hft) (by simp [hempty])
    · exact hnone
  · intro hne
    -- either this worker watched the queue, or another one does
    by_cases hwatch : wk.WatchesQueue ∨ s.m_fibers = []
    · rcases h.watchesQueue_of hne hwatch with hwatch' | ⟨rfl, hpc, hterm, hnone⟩
      · exact ⟨wk', moved_mem hw, hwatch'⟩
      · obtain ⟨x, hx, f, own, hpc'⟩ : ∃ x ∈ s'.workers.set w wk', ∃ f own, x.pc = .exec f own := by
          refine exists_moved hw (watched_elsewhere hs hmem hterm hnone hne) ?_
          rintro ⟨f, own, hexec⟩
          rw [hpc] at hexec
          exact nomatch hexec
        refine ⟨x, hx, Or.inr ?_⟩
        rw [hpc']
        exact ⟨Pc.noConfusion, Pc.noConfusion⟩
    · obtain ⟨hnot, hne'⟩ := not_or.mp hwatch
      exact exists_moved hw (hs.queue hne') fun hwatch => absurd hwatch hnot
  · intro hne
    have hne' := h.m_timers_of hne
    exact exists_moved hw (hs.timers hne') (h.watchesTimers_of hne')
  · intro hne
    have hne' : s.m_pendingEventCount ≠ 0 := by
      rcases h.pendingCount_of with hsame | hcounting
      · exact hsame ▸ hne
      · have hpos : 0 < s.workers.countP Worker.counting := countP_pos_iff.mpr ⟨wk, hmem, hcounting⟩
        omega
    exact exists_moved hw (hs.events hne') (h.watchesEvents_of hne')
  · show s'.m_pendingEventCount = s'.events.length + s'.triggered
      + (s.workers.set w wk').countP Worker.counting
    omega

/-- A call by the code of a task is made by a worker that will look at the
queue again. -/
theorem watchesQueue_of_executes {s : State} {w : Nat}
    (h : s.executes w = true) : ∃ wk ∈ s.workers, wk.WatchesQueue := by
  unfold State.executes at h
  split at h
  · next wk hw =>
    refine ⟨wk, mem_of_getElem? hw, Or.inr ?_⟩
    split at h
    · next hpc =>
      rw [hpc]
      exact ⟨Pc.noConfusion, Pc.noConfusion⟩
    · exact nomatch h
  · exact nomatch h

/-- Who queues a task will look at the queue again, or nobody leaves yet. -/
theorem watchesQueue_of_caller {s : State} {caller : Option Nat}
    (hs : Staffed s) (hcaller : ∀ w, caller = some w → s.executes w = true)
    (hfrom : s.m_stopping = true → caller.isSome) :
    ∃ wk ∈ s.workers, wk.WatchesQueue := by
  cases hstop : s.m_stopping with
  | true =>
    obtain ⟨w, hw⟩ := Option.isSome_iff_exists.mp (hfrom hstop)
    exact watchesQueue_of_executes (hcaller w hw)
  | false =>
    obtain ⟨wk, rest, hcons⟩ := exists_cons_of_ne_nil hs.nonempty
    have hmem : wk ∈ s.workers := by
      rw [hcons]
      exact mem_cons_self
    exact ⟨wk, hmem, Or.inl (hs.running hstop wk hmem)⟩

/-- One call that meets the conditions keeps the invariant. -/
theorem act_staffed {s t : State} {caller : Option Nat} {a : Action}
    (hs : Staffed s) (hcaller : ∀ w, caller = some w → s.executes w = true)
    (hfrom : FromTasks s (.act caller a)) (hatt : Attended s (.act caller a))
    (h : act s a = some t) : Staffed t := by
  have hpend := hs.pending
  cases a with
  | newFiber =>
    cases h
    refine { hs with executed := fun f hexec => hs.executed f ?_ }
    by_cases hf : f = s.fresh
    · subst hf
      have hboth := (setState_self s s.fresh .INIT).symm.trans hexec
      cases hboth
    · exact (setState_of_ne s .INIT hf).symm.trans hexec
  | schedule ft =>
    obtain ⟨-, ht⟩ := Option.ite_none_right_eq_some.mp h
    cases ht
    -- once stopping, the caller is a task and its worker looks at the queue again
    have hwatch := watchesQueue_of_caller hs hcaller fun h => (hfrom h).1
    refine { hs with queue := fun _ => hwatch, unpinned := ?_ }
    rintro ⟨wk, hwk, hterm⟩ x hx
    rcases mem_append.mp hx with hx | hx
    · exact hs.unpinned ⟨wk, hwk, hterm⟩ x hx
    · obtain rfl := mem_singleton.mp hx
      cases hstop : s.m_stopping with
      | true => exact (hfrom hstop).2
      | false => exact absurd hterm (hs.running hstop wk hwk)
  | addTimer timer =>
    cases h
    -- some worker watches the timers when this one comes
    exact { hs with timers := fun _ => hatt }
  | cancelTimer i =>
    cases h
    refine { hs with timers := fun hne => hs.timers fun hempty => hne ?_ }
    show s.m_timers.eraseIdx i = []
    rw [hempty, eraseIdx_nil]
  | resetTimer i m_next m_ms =>
    cases h
    refine { hs with timers := fun hne => hs.timers fun hempty => hne ?_ }
    show s.m_timers.modify i _ = []
    rw [hempty, modify_nil]
  | addEvent task =>
    obtain ⟨-, ht⟩ := Option.ite_none_right_eq_some.mp h
    cases ht
    refine { hs with events := fun _ => hatt, pending := ?_ }
    show s.m_pendingEventCount + 1 = (s.events ++ [task]).length + s.triggered
      + s.workers.countP Worker.counting
    rw [length_append, length_singleton]
    omega
  | delEvent i =>
    obtain ⟨hi, ht⟩ := Option.ite_none_right_eq_some.mp h
    cases ht
    refine { hs with events := fun _ => hs.events (by omega), pending := ?_ }
    show s.m_pendingEventCount - 1 = (s.events.eraseIdx i).length + s.triggered
      + s.workers.countP Worker.counting
    rw [length_eraseIdx_of_lt hi]
    omega
  | cancelEvent i =>
    rw [act] at h
    cases htask : s.events[i]? with
    | none =>
      rw [htask] at h
      cases h
    | some task =>
      rw [htask] at h
      cases h
      have hwatch := watchesQueue_of_caller hs hcaller hfrom
      refine { hs with queue := fun _ => hwatch, unpinned := ?_, pending := ?_ }
      · rintro hterm x hx
        rcases mem_append.mp hx with hx | hx
        · exact hs.unpinned hterm x hx
        · obtain rfl := mem_singleton.mp hx
          rfl
      · obtain ⟨hi, -⟩ := List.getElem?_eq_some_iff.mp htask
        show s.m_pendingEventCount = (s.events.eraseIdx i).length
          + (s.triggered + 1 : Nat) + s.workers.countP Worker.counting
        rw [length_eraseIdx_of_lt hi]
        omega
  | countDown =>
    obtain ⟨hpos, ht⟩ := Option.ite_none_right_eq_some.mp h
    cases ht
    refine { hs with events := fun _ => hs.events (by omega), pending := ?_ }
    show s.m_pendingEventCount - 1 = s.events.length + (s.triggered - 1 : Nat)
      + s.workers.countP Worker.counting
    omega
  | stop =>
    cases h
    refine { hs with running := fun hrun => ?_ }
    cases hrun

theorem step_staffed {s t : State} {l : Label} (hs : Staffed s)
    (hl : FromTasks s l ∧ Attended s l) (h : step s l = some t) : Staffed t := by
  rcases step_cases h with ⟨w, choice, wk, wk', s', rfl, hw, hm, rfl⟩
    | ⟨caller, a, rfl, hcaller, ha⟩
  · exact hm.staffed hs hw
  · exact act_staffed hs hcaller hl.1 hl.2 ha

/-- **Nothing is lost at shutdown**, in every run in which, after `stop()`, only the code of
tasks adds work, and each timer and event is added while some worker watches them: when
all workers have left `run`, no task is queued, no timer set and no event pending. -/
theorem nothing_lost {n : Nat} {s : State}
    (h : Reaches step (fun s l => FromTasks s l ∧ Attended s l) (init (n + 1)) s)
    (hleft : ∀ wk ∈ s.workers, wk.pc = .left) :
    s.m_fibers = [] ∧ s.m_timers = [] ∧ s.m_pendingEventCount = 0 := by
  have hs : Staffed s := h.inv (init_staffed n) step_staffed
  refine ⟨?_, ?_, ?_⟩
  · by_contra hne
    obtain ⟨wk, hwk, hidle | hpc⟩ := hs.queue hne
    · exact hidle (hs.left wk hwk (hleft wk hwk))
    · exact hpc.1 (hleft wk hwk)
  · by_contra hne
    obtain ⟨wk, hwk, hidle, -⟩ := hs.timers hne
    exact hidle (hs.left wk hwk (hleft wk hwk))
  · by_contra hne
    obtain ⟨wk, hwk, hidle, -⟩ := hs.events hne
    exact hidle (hs.left wk hwk (hleft wk hwk))

/-- `k` steps of a worker that need no choice. -/
def goes (w k : Nat) : List Label := List.replicate k (.worker w .go)

/-- A timer is set before `stop()`; the only worker waits for it, runs its
callback, and leaves. -/
theorem nothing_lost_timer : ∃ s, exec step (init 1)
        (.act none (.addTimer ⟨10, 10, 1, false⟩) :: .act none .stop :: (goes 0 3
          ++ [.worker 0 (.ready []), .worker 0 (.clock 20 false)] ++ goes 0 6
          ++ [.worker 0 (.finish false)] ++ goes 0 11)) = some s
      ∧ (∀ wk ∈ s.workers, wk.pc = .left) ∧ s.fresh = 1
      ∧ s.m_fibers = [] ∧ s.m_timers = [] ∧ s.m_pendingEventCount = 0 := by
  have hrun : exec step (init 1)
      (.act none (.addTimer ⟨10, 10, 1, false⟩) :: .act none .stop :: (goes 0 3
        ++ [.worker 0 (.ready []), .worker 0 (.clock 20 false)] ++ goes 0 6
        ++ [.worker 0 (.finish false)] ++ goes 0 11)) = some _ := rfl
  have hleft : ∀ wk ∈ [(⟨.left, some 0, .TERM⟩ : Worker)], wk.pc = .left := by
    decide
  refine ⟨_, hrun, hleft, rfl, nothing_lost (n := 0) (reaches_of_exec ?_ hrun) hleft⟩
  refine ⟨⟨fun h => (nomatch h), _, mem_singleton_self _, ?_⟩, fun t _ => ?_⟩
  · exact ⟨FiberState.noConfusion, Pc.noConfusion, Pc.noConfusion⟩
  · refine along_of_forall ?_
    simp [goes, FromTasks, Attended]

/-- Worker 0 has the callbacks of two timers when the idle fiber of worker 1 ends.  Worker 1
executes the first one, and sets a timer after worker 0 has seen that there is none: both
leave, and the timer stays. -/
theorem timer_lost : ∃ s, exec step (init 2) ([.act none (.addTimer ⟨10, 10, 1, false⟩),
            .act none (.addTimer ⟨10, 10, 2, false⟩)] ++ goes 0 3
          ++ [.worker 0 (.ready []), .worker 0 (.clock 20 false), .act none .stop]
          ++ goes 1 5 ++ goes 0 1 ++ goes 1 4 ++ goes 0 5
          ++ [.worker 0 (.finish false)] ++ goes 0 6
          ++ [.act (some 1) (.addTimer ⟨30, 10, 3, false⟩), .worker 1 (.finish false)]
          ++ goes 1 2 ++ goes 0 5 ++ goes 1 3) = some s
      ∧ (∀ wk ∈ s.workers, wk.pc = .left) ∧ s.m_stopping = true
      ∧ s.m_timers = [⟨30, 10, 3, false⟩] :=
  ⟨_, rfl, by decide, rfl, rfl⟩

end SylarScheduler
