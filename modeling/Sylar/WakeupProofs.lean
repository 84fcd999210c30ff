import Sylar.StackSafetyProofs

/-! # Waking an idle worker (`Scheduler::schedule`, `IOManager::tickle`)

A worker with nothing to do sleeps in `epoll_wait`.  Who queues a task on an
empty queue calls `tickle`, and so does a worker that leaves tasks behind in
its scan; `tickle` reads `m_idleThreadCount` and, if somebody is idle,
writes a byte into a pipe, which the woken worker reads empty.  These
accesses are steps of their own here, on top of the worker loop.

* **`pipeStep`** — the system with the pipe.
* **`no_lost_wakeup`** — when a worker sleeps and all others sleep or execute, no task that it may
  take is queued.
* **`counters_exact`** — what the two counters count, over every run. -/

namespace SylarScheduler

open StepSystem List

/-! ## The pipe -/

/-- A thread in `tickle`, before `hasIdleThreads` or before `write`, or one that reads the pipe
empty. -/
inductive PipeCall where
  | hasIdleThreads
  | write
  | read
  deriving DecidableEq, Repr

/-- The worker loop with the pipe: the bytes not yet read, the calls under way, each with its worker
(`none` for another thread), and the workers whose batch still holds the event of the pipe. -/
structure Piped where
  base : State
  bytes : Nat
  calls : List (Option Nat × PipeCall)
  due : List Nat

def Piped.init (n : Nat) : Piped :=
  ⟨SylarScheduler.init n, 0, [], []⟩

/-- `tickle_me` after the scan of `run`: an entry for another thread was skipped, or entries follow
the one taken. -/
def tickle_me (m_state : Nat → FiberState) (w : Nat) : List FiberAndThread → Bool
  | [] => false
  | ft :: rest =>
    if ft.thread ≠ none ∧ ft.thread ≠ some w then true
    else if mayTake m_state w ft then !rest.isEmpty
    else tickle_me m_state w rest

/-- The step ends with `tickle`: the scan asks for it, or a task is queued on an empty queue
(`need_tictle`). -/
def tickles (s : State) : Label → Bool
  | .worker w _ =>
    match s.workers[w]? with
    | some wk =>
        match wk.pc with
        | .pop => tickle_me s.m_state w s.m_fibers
        | .bookkeep f _ => s.m_state f == .READY && s.m_fibers.isEmpty
        | .idle (.schedule cbs _) => !cbs.isEmpty && s.m_fibers.isEmpty
        | .idle (.events (task :: _)) => s.events.contains task && s.m_fibers.isEmpty
        | _ => false
    | none => false
  | .act _ a => (queues s a).isSome && s.m_fibers.isEmpty

/-- The worker that makes the step. -/
def Label.caller : Label → Option Nat
  | .worker w _ => some w
  | .act caller _ => caller

/-- The worker is inside one of the calls. -/
def Piped.inCall (s : Piped) (caller : Option Nat) : Bool :=
  caller.isSome && s.calls.any fun c => c.1 == caller

/-- The worker handles what `epoll_wait` returned. -/
def State.handles (s : State) (w : Nat) : Bool :=
  match s.workers[w]? with
  | some wk => match wk.pc with
    | .idle (.events _) => true
    | _ => false
  | none => false

/-- The worker is about to leave the loop over the events. -/
def State.handled (s : State) : Label → Option Nat
  | .worker w _ => match s.workers[w]? with
    | some wk => if wk.pc = .idle (.events []) then some w else none
    | none => none
  | .act _ _ => none

inductive PipeLabel where
  /-- A step of the loop or a call, with the `tickle` it begins. -/
  | run (l : Label)
  /-- `epoll_wait` returns with the event of the pipe among others. -/
  | woken (w : Nat) (batch : List Task)
  /-- The event of the pipe is next in the batch. -/
  | drain (w : Nat)
  /-- `stop` and `onTimerInsertedAtFront` call `tickle`. -/
  | tickle (caller : Option Nat)
  /-- The next access of a call that is under way. -/
  | call (i : Nat)
  deriving DecidableEq, Repr

/-- A step of the loop, by a thread that is in none of the calls. -/
def Piped.run (s : Piped) (l : Label) : Option Piped :=
  if s.inCall l.caller then none
  else (step s.base l).map fun t =>
    { s with
      base := t
      calls := s.calls ++ if tickles s.base l then [(l.caller, .hasIdleThreads)] else [] }

/-- One step, with the pipe. -/
def pipeStep (s : Piped) : PipeLabel → Option Piped
  | .run l =>
    -- every event of the batch is handled, that of the pipe included
    if ∃ w ∈ s.base.handled l, w ∈ s.due then none else s.run l
  | .woken w batch =>
    if 0 < s.bytes then
      (s.run (.worker w (.ready batch))).map fun t => { t with due := w :: t.due }
    else none
  | .drain w =>
    if s.base.handles w ∧ w ∈ s.due ∧ s.inCall (some w) = false then
      some { s with due := s.due.erase w, calls := s.calls ++ [(some w, .read)] }
    else none
  | .tickle caller =>
    if s.inCall caller ∨ ∃ w ∈ caller, s.base.executes w = false then none
    else some { s with calls := s.calls ++ [(caller, .hasIdleThreads)] }
  | .call i =>
    match s.calls[i]? with
    | some (caller, .hasIdleThreads) =>
        if 0 < s.base.m_idleThreadCount then
          some { s with calls := s.calls.set i (caller, .write) }
        else some { s with calls := s.calls.eraseIdx i }
    | some (_, .write) =>
        some { s with bytes := s.bytes + 1, calls := s.calls.eraseIdx i }
    | some (_, .read) =>
        if 0 < s.bytes then some { s with bytes := s.bytes - 1 }
        else some { s with calls := s.calls.eraseIdx i }
    | none => none

/-! ## The condition -/

/-- The worker will scan the queue before it can sleep. -/
def Pc.awake : Pc → Bool
  | .pop | .leave _ _ | .decrement _ _ | .bookkeep _ _ | .drop | .idleLeave => true
  | .idle (.expired _) | .idle (.schedule _ _) | .idle (.events _)
  | .idle (.count _) => true
  | _ => false

/-- The worker sleeps, or will without another scan. -/
def Worker.rests (wk : Worker) : Bool :=
  match wk.pc with
  | .noTask => wk.idle_fiber != .TERM
  | .idle .nextTimer | .idle .pending | .idle .stopping | .idle .wait => true
  | _ => false

/-- A wakeup is under way: a byte is not yet read, a worker is awake, or a
thread is inside `tickle`. -/
def UnderWay (s : Piped) : Prop :=
  0 < s.bytes ∨ (∃ wk ∈ s.base.workers, wk.pc.awake = true)
    ∨ ∃ c ∈ s.calls, c.2 ≠ .read

/-- A worker that rests may take the entry. -/
def Wanted (s : State) (ft : FiberAndThread) : Prop :=
  ∃ x ∈ s.workers.zipIdx, x.1.rests = true ∧ mayTake s.m_state x.2 ft = true

/-- Where `schedule` does not tickle, and where `tickle` does not write because nobody is counted as
idle, no worker that rests may take a task, or another wakeup is under way. -/
def Notifies (s : Piped) : PipeLabel → Prop
  | .run (.act _ a) => ∀ ft ∈ queues s.base a,
    s.base.m_fibers = [] ∨ UnderWay s ∨ ¬ Wanted s.base ft
  | .call i => ∀ c ∈ s.calls[i]?, c.2 = .hasIdleThreads →
    0 < s.base.m_idleThreadCount ∨ UnderWay { s with calls := s.calls.eraseIdx i }
      ∨ ∀ ft ∈ s.base.m_fibers, ¬ Wanted s.base ft
  | _ => True

instance (s : Piped) : Decidable (UnderWay s) :=
  inferInstanceAs (Decidable (_ ∨ (∃ wk ∈ s.base.workers, _) ∨ ∃ c ∈ s.calls, _))

instance (s : State) (ft : FiberAndThread) : Decidable (Wanted s ft) :=
  inferInstanceAs (Decidable (∃ x ∈ s.workers.zipIdx, _))

instance (s : Piped) (l : PipeLabel) : Decidable (Notifies s l) :=
  match l with
  | .run (.act _ a) => inferInstanceAs (Decidable (∀ ft ∈ queues s.base a, _))
  | .call i => inferInstanceAs (Decidable (∀ c ∈ s.calls[i]?, _))
  | .run (.worker _ _) | .woken _ _ | .drain _ | .tickle _ => isTrue trivial

/-! ## What a step of the loop does to those who rest -/

variable {w : Nat} {ft : FiberAndThread} {l : Label} {s t : Piped} {wk : Worker} {choice : Choice}

variable {v : Nat} {a : Action} {b s' : State} {wk' : Worker}

/-- The entries that a scan leaves to another worker make it tickle. -/
theorem tickle_me_of_left {m_state : Nat → FiberState} {l : List FiberAndThread} (hvw : v ≠ w)
    (hmay : mayTake m_state v ft = true) (hft : ft ∈ l.eraseP (mayTake m_state w)) :
    tickle_me m_state w l = true := by
  induction l with
  | nil => cases hft
  | cons x l ih =>
    rw [tickle_me]
    split
    · rfl
    · next hthread =>
      split
      · next htake =>
        rw [eraseP_cons_of_pos htake] at hft
        simpa using ne_nil_of_mem hft
      · next htake =>
        rw [eraseP_cons_of_neg htake] at hft
        rcases mem_cons.mp hft with rfl | hft
        · -- skipped though for any thread or this one: it executes
          exfalso
          cases hth : ft.thread with
          | none => simp_all [mayTake]
          | some u =>
            obtain rfl : u = w := by
              by_contra hne
              exact hthread (by simp [hth, hne])
            simp_all [mayTake]
        · exact ih hft

/-- Only a fiber that stops executing becomes takeable. -/
theorem mayTake_of_exec {a b : Nat → FiberState}
    (hexec : ∀ f, ft.task = .fiber f → a f = .EXEC → b f = .EXEC) (h : mayTake b v ft = true) :
    mayTake a v ft = true := by
  obtain ⟨task, thread⟩ := ft
  cases task with
  | cb c => exact h
  | fiber f =>
    rw [mayTake, Bool.and_eq_true_iff] at h ⊢
    refine ⟨h.1, ?_⟩
    have hb : b f ≠ .EXEC := by simpa using h.2
    simpa using fun ha => hb (hexec f rfl ha)

/-- `reset` is not called on a fiber that executes. -/
theorem reset_not_exec {s t : State} {c f : Nat} (h : step s (.worker w choice) = some t)
    (hw : s.workers[w]? = some wk) (hpc : wk.pc = .popped (.cb c)) (hf : wk.cb_fiber = some f) :
    s.m_state f ≠ .EXEC := by
  intro hexec
  rw [step, hw] at h
  cases choice <;> simp [advance, hpc, hf, hexec, FiberState.ended] at h

/-- A worker that neither scans nor is awake afterwards leaves the queue, wakes nobody's task up and
does not begin to rest. -/
theorem Moves.rests_of {s t : State} (hstep : step s (.worker w choice) = some t)
    (hw : s.workers[w]? = some wk) (h : Moves s w wk wk' s') (hpop : wk.pc ≠ .pop)
    (hawake : wk'.pc.awake = false) :
    s'.m_fibers = s.m_fibers ∧ wk.pc.awake = false ∧ (wk'.rests = true → wk.rests = true)
      ∧ ∀ f < s.fresh, s.m_state f = .EXEC → s'.m_state f = .EXEC := by
  have written {f g : Nat} {x : FiberState} (hg : s.m_state g ≠ .EXEC)
      (hf : s.m_state f = .EXEC) : (s.setState g x).m_state f = .EXEC := by
    have hfg : f ≠ g := by
      rintro rfl
      exact hg hf
    exact (setState_of_ne s x hfg).trans hf
  cases h with
  | take hpc | noTask hpc => exact absurd hpc hpop
  | SwapIn own hpc hstate =>
    refine ⟨rfl, ?_, fun h => (nomatch h), fun f _ hf => written hstate hf⟩
    rw [hpc]
    cases own <;> rfl
  | reset hpc hf =>
    refine ⟨rfl, ?_, fun h => (nomatch h), fun f _ hf' =>
      written (reset_not_exec hstep hw hpc hf) hf'⟩
    rw [hpc]
    rfl
  | newFiber hpc hf =>
    refine ⟨rfl, ?_, fun h => (nomatch h), fun f hlt hf => ?_⟩
    · rw [hpc]
      rfl
    · exact (setState_of_ne s _ (Nat.ne_of_lt hlt)).trans hf
  | idle hpc hidle =>
    refine ⟨rfl, by rw [hpc]; rfl, fun _ => ?_, fun f _ hf => hf⟩
    rw [Worker.rests, hpc]
    simpa using hidle
  | exit hpc => exact ⟨rfl, by rw [hpc]; rfl, fun h => (nomatch h), fun f _ hf => hf⟩
  | noTimer hpc | timer hpc | noEvent hpc | event hpc | notStopping hpc =>
    refine ⟨rfl, by rw [hpc]; rfl, fun _ => ?_, fun f _ hf => hf⟩
    rw [Worker.rests, hpc]
  | _ => cases hawake

/-- The counter of idle workers follows the worker. -/
theorem Moves.idleCount_of {s : State} (h : Moves s w wk wk' s') :
    s'.m_idleThreadCount + wk.pc.inIdle.toNat = s.m_idleThreadCount + wk'.pc.inIdle.toNat := by
  cases h with
  | SwapIn own hpc =>
    rw [hpc]
    cases own <;> rfl
  | idle hpc =>
    rw [hpc]
    simp [Pc.inIdle]
  | idleLeave hpc =>
    rw [hpc]
    simp [Pc.inIdle]
  | _ => simp_all [Pc.inIdle, State.setState, State.push]

/-- `m_idleThreadCount` counts the workers on their idle fiber. -/
def CountsIdle (s : State) : Prop :=
  s.m_idleThreadCount = s.workers.countP fun wk => wk.pc.inIdle

private theorem act_idleCount {s t : State} (h : act s a = some t) :
    t.m_idleThreadCount = s.m_idleThreadCount := by
  unfold act at h
  split at h <;> first | (cases h; rfl) | (split at h <;> cases h; rfl)

theorem step_countsIdle {s t : State} (hs : CountsIdle s) (h : step s l = some t) :
    CountsIdle t := by
  rcases step_cases h with ⟨w, choice, wk, wk', s', rfl, hw, hm, rfl⟩
    | ⟨caller, a, rfl, -, ha⟩
  · have hcount : (s.workers.set w wk').countP (fun wk => wk.pc.inIdle) + wk.pc.inIdle.toNat
        = s.workers.countP (fun wk => wk.pc.inIdle) + wk'.pc.inIdle.toNat :=
      countP_moved hw
    have hmoved := hm.idleCount_of
    unfold CountsIdle at hs ⊢
    dsimp only
    omega
  · rw [CountsIdle, act_idleCount ha, (act_extends ha).workers]
    exact hs

/-- The worker has popped an entry and not yet decremented the counter. -/
def Pc.active : Pc → Bool
  | .popped _ | .callback _ | .exec _ _ | .leave _ _ | .decrement _ _ | .drop => true
  | _ => false

def CountsActive (s : State) : Prop :=
  s.m_activeThreadCount = s.workers.countP fun wk => wk.pc.active

theorem Moves.activeCount_of {s : State} (h : Moves s w wk wk' s') :
    s'.m_activeThreadCount + wk.pc.active.toNat = s.m_activeThreadCount + wk'.pc.active.toNat := by
  cases h with
  | SwapIn own hpc =>
    rw [hpc]
    cases own <;> rfl
  | take hpc | decrement hpc | drop hpc =>
    rw [hpc]
    simp [Pc.active]
  | _ => simp_all [Pc.active, State.setState, State.push]

theorem step_countsActive {s t : State} (hs : CountsActive s) (h : step s l = some t) :
    CountsActive t := by
  unfold CountsActive at hs ⊢
  rcases step_cases h with ⟨w, choice, wk, wk', s', rfl, hw, hm, rfl⟩ | ⟨caller, a, rfl, -, ha⟩
  · have hcount := countP_moved (p := fun wk : Worker => wk.pc.active) (b := wk') hw
    have hmoved := hm.activeCount_of
    dsimp only at hcount ⊢
    omega
  · have hactive : t.m_activeThreadCount = s.m_activeThreadCount := by
      unfold act at ha
      split at ha <;> first | (cases ha; rfl) | (split at ha <;> cases ha; rfl)
    rw [hactive, (act_extends ha).workers, hs]

/-- No worker is in both counts. -/
theorem counted_once {s : State} (hactive : CountsActive s) (hidle : CountsIdle s) :
    s.m_activeThreadCount + s.m_idleThreadCount ≤ s.workers.length := by
  have hsplit := length_eq_countP_add_countP (fun wk : Worker => wk.pc.active) (l := s.workers)
  have hmono : s.workers.countP (fun wk => wk.pc.inIdle)
      ≤ s.workers.countP fun wk => decide ¬wk.pc.active := by
    refine countP_mono_left fun wk _ => ?_
    cases wk.pc <;> simp [Pc.active, Pc.inIdle]
  rw [hactive, hidle]
  omega

/-- **The counters are exact**: `stopping` reads 0 exactly when no worker has a task, `tickle` a
positive number exactly when one is idle. -/
theorem counters_exact {n : Nat} {s : State} (h : Reaches step (fun _ _ => True) (init n) s) :
    CountsActive s ∧ CountsIdle s
      ∧ s.m_activeThreadCount + s.m_idleThreadCount ≤ s.workers.length
      ∧ (s.m_activeThreadCount = 0 ↔ ∀ wk ∈ s.workers, wk.pc.active = false)
      ∧ (0 < s.m_idleThreadCount ↔ ∃ wk ∈ s.workers, wk.pc.inIdle = true) := by
  obtain ⟨hactive, hidle⟩ := h.inv (P := fun s => CountsActive s ∧ CountsIdle s)
    ⟨by rw [CountsActive, init, countP_replicate]; rfl,
      by rw [CountsIdle, init, countP_replicate]; rfl⟩
    fun hs _ hstep => ⟨step_countsActive hs.1 hstep, step_countsIdle hs.2 hstep⟩
  refine ⟨hactive, hidle, counted_once hactive hidle, ?_, ?_⟩
  · rw [hactive, Int.natCast_eq_zero, countP_eq_zero]
    simp
  · rw [hidle, Int.natCast_pos, countP_pos_iff]

/-- A worker has taken a callback. -/
theorem counters_exact_popped :
    let ls := [.act none (.schedule ⟨.cb 7, none⟩), .worker 0 .go]
    ∃ s, exec step (init 2) ls = some s ∧ CountsActive s ∧ s.m_activeThreadCount = 1 := by
  intro ls
  have hrun : exec step (init 2) ls = some _ := rfl
  have halong : Along step (fun _ _ => True) (init 2) ls := along_of_forall fun _ _ _ => trivial
  exact ⟨_, hrun, (counters_exact (reaches_of_exec halong hrun)).1, rfl⟩

/-! ## The invariant -/

/-- A task that somebody rests beside has a wakeup under way. -/
structure Notified (s : Piped) : Prop where
  known : Known s.base
  idle : CountsIdle s.base
  reading : ∀ c ∈ s.calls, c.2 = .read → ∃ w wk, c.1 = some w
    ∧ s.base.workers[w]? = some wk ∧ wk.pc.awake = true
  wanted : ∀ ft ∈ s.base.m_fibers, Wanted s.base ft → UnderWay s

theorem init_notified (n : Nat) : Notified (Piped.init n) := by
  refine ⟨init_known n, ?_, fun c hc => (nomatch hc), fun ft hft => (nomatch hft)⟩
  have hzero : (init n).workers.countP (fun wk => wk.pc.inIdle) = 0 := by
    rw [countP_eq_zero]
    intro wk hwk
    obtain rfl : wk = ⟨.pop, none, .INIT⟩ := eq_of_mem_replicate hwk
    exact Bool.false_ne_true
  exact (congrArg Int.ofNat hzero).symm

theorem wanted_iff {s : State} : Wanted s ft ↔ ∃ v x, s.workers[v]? = some x ∧ x.rests = true
      ∧ mayTake s.m_state v ft = true := by
  constructor
  · rintro ⟨⟨x, v⟩, hx, hrests, hmay⟩
    exact ⟨v, x, mem_zipIdx_iff_getElem?.mp hx, hrests, hmay⟩
  · rintro ⟨v, x, hx, hrests, hmay⟩
    exact ⟨(x, v), mem_zipIdx_iff_getElem?.mpr hx, hrests, hmay⟩

/-- What a step of the loop leaves of the calls. -/
theorem run_eq_some (h : s.run l = some t) : ∃ b, s.inCall l.caller = false ∧ step s.base l = some b
      ∧ t = { s with
        base := b
        calls := s.calls ++ if tickles s.base l then [(l.caller, .hasIdleThreads)] else [] } := by
  rw [Piped.run] at h
  split at h
  · cases h
  · next hfree =>
    obtain ⟨b, hb, rfl⟩ := Option.map_eq_some_iff.mp h
    exact ⟨b, Bool.eq_false_iff.mpr hfree, hb, rfl⟩

/-- A move of a worker: who rests afterwards beside a task has a wakeup
under way. -/
theorem wanted_of_move (hs : Notified s) (hstep : step s.base (.worker w choice) = some b) :
    ∀ ft ∈ b.m_fibers, Wanted b ft → UnderWay { s with
      base := b
      calls := s.calls ++ if tickles s.base (.worker w choice)
        then [(some w, .hasIdleThreads)] else [] } := by
  rcases step_cases hstep with ⟨w', choice', wk, wk', s', heq, hw, hm, rfl⟩
    | ⟨caller, a, heq, -, -⟩
  swap
  · cases heq
  cases heq
  intro ft hft hwanted
  by_cases hawake : wk'.pc.awake = true
  · exact Or.inr (Or.inl ⟨wk', moved_mem hw, hawake⟩)
  have hawake := Bool.eq_false_iff.mpr hawake
  obtain ⟨v, x, hv, hrests, hmay⟩ := wanted_iff.mp hwanted
  by_cases hpop : wk.pc = .pop
  · -- the scan: what it leaves to the worker that rests makes it tickle
    have htickles : tickles s.base (.worker w choice)
        = tickle_me s.base.m_state w s.base.m_fibers := by
      simp only [tickles, hw, hpop]
    have hleft : v ≠ w ∧ s'.m_state = s.base.m_state
        ∧ ft ∈ s.base.m_fibers.eraseP (mayTake s.base.m_state w) := by
      cases hm with
      | take hpc hfind =>
        refine ⟨fun hvw => ?_, rfl, hft⟩
        rcases getElem?_moved hv with ⟨-, rfl⟩ | ⟨hne, -⟩
        · cases hrests
        · exact hne hvw
      | noTask hpc hfind =>
        have hnone := find?_eq_none.mp hfind
        refine ⟨?_, rfl, ?_⟩
        · rintro rfl
          exact hnone ft hft hmay
        · rwa [eraseP_of_forall_not hnone]
      | SwapIn own hpc => cases own <;> simp_all
      | _ => simp_all
    obtain ⟨hvw, hstate, hft⟩ := hleft
    have hmay : mayTake s.base.m_state v ft = true := hstate ▸ hmay
    rw [htickles, tickle_me_of_left hvw hmay hft]
    exact Or.inr (Or.inr ⟨(some w, .hasIdleThreads), by simp, PipeCall.noConfusion⟩)
  · obtain ⟨hqueue, hwk, hback, hexec⟩ := hm.rests_of hstep hw hpop hawake
    have hft : ft ∈ s.base.m_fibers := hqueue ▸ hft
    replace hmay : mayTake s.base.m_state v ft = true := by
      refine mayTake_of_exec (fun f hf => hexec f ?_) hmay
      have hknown := hs.known.queued ft hft
      rw [hf] at hknown
      exact of_decide_eq_true hknown
    have hold : Wanted s.base ft := by
      rw [wanted_iff]
      rcases getElem?_moved hv with ⟨rfl, rfl⟩ | ⟨-, hv⟩
      · exact ⟨v, wk, hw, hback hrests, hmay⟩
      · exact ⟨v, x, hv, hrests, hmay⟩
    rcases hs.wanted ft hft hold with hbytes | hother | ⟨c, hc, hne⟩
    · exact Or.inl hbytes
    · refine Or.inr (Or.inl (exists_moved hw hother fun h => ?_))
      rw [hwk] at h
      cases h
    · exact Or.inr (Or.inr ⟨c, mem_append_left _ hc, hne⟩)

/-- A call: an entry on an empty queue is tickled for, another is queued
under the condition. -/
theorem wanted_of_act {caller : Option Nat} (hs : Notified s)
    (hc : Notifies s (.run (.act caller a))) (ha : act s.base a = some b) :
    ∀ ft ∈ b.m_fibers, Wanted b ft → UnderWay { s with
      base := b
      calls := s.calls ++ if tickles s.base (.act caller a)
        then [(caller, .hasIdleThreads)] else [] } := by
  have hext := act_extends ha
  intro ft hft hwanted
  have hknown : s.base.known ft.task = true := by
    rcases hext.m_fibers ft hft with hft | hft | hft
    · exact hs.known.queued ft hft
    · exact hft
    · exact hs.known.registered _ hft
  have hold : Wanted s.base ft := by
    obtain ⟨v, x, hv, hrests, hmay⟩ := wanted_iff.mp hwanted
    refine wanted_iff.mpr ⟨v, x, hext.workers ▸ hv, hrests, ?_⟩
    refine mayTake_of_exec (fun f hf hexec => ?_) hmay
    rw [hf] at hknown
    rw [hext.m_state f (of_decide_eq_true hknown)]
    exact hexec
  have hstays (h : UnderWay s) : UnderWay { s with
      base := b
      calls := s.calls ++ if tickles s.base (.act caller a)
        then [(caller, .hasIdleThreads)] else [] } := by
    rcases h with hbytes | hawake | ⟨c, hc, hne⟩
    · exact Or.inl hbytes
    · exact Or.inr (Or.inl (by rwa [← hext.workers] at hawake))
    · exact Or.inr (Or.inr ⟨c, mem_append_left _ hc, hne⟩)
  rw [act_m_fibers ha] at hft
  rcases mem_append.mp hft with hft | hft
  · exact hstays (hs.wanted ft hft hold)
  · have hft := Option.mem_toList.mp hft
    rcases hc ft hft with hempty | hway | hnot
    · have htickles : tickles s.base (.act caller a) = true := by
        rw [tickles, hft, hempty]
        rfl
      rw [htickles]
      exact Or.inr (Or.inr ⟨(caller, .hasIdleThreads), by simp, PipeCall.noConfusion⟩)
    · exact hstays hway
    · exact absurd hold hnot

/-- A step of the loop keeps the invariant. -/
theorem Notified.run (hs : Notified s) (hc : Notifies s (.run l)) (h : s.run l = some t) :
    Notified t := by
  obtain ⟨b, hfree, hstep, rfl⟩ := run_eq_some h
  refine ⟨step_known hs.known hstep, step_countsIdle hs.idle hstep, ?_, ?_⟩
  · intro c hc hread
    have hold : c ∈ s.calls := by
      rcases mem_append.mp hc with hc | hc
      · exact hc
      · split at hc
        · obtain rfl := mem_singleton.mp hc
          cases hread
        · cases hc
    obtain ⟨v, x, hcaller, hv, hawake⟩ := hs.reading c hold hread
    refine ⟨v, x, hcaller, ?_, hawake⟩
    rcases step_cases hstep with ⟨w, choice, wk, wk', s', rfl, hw, -, rfl⟩
      | ⟨caller, a, rfl, -, ha⟩
    · -- the one that reads does nothing else
      have hvw : v ≠ w := by
        rintro rfl
        have hin : s.inCall (Label.worker v choice).caller = true := by
          rw [Piped.inCall, Label.caller, Option.isSome_some, Bool.true_and]
          exact any_eq_true.mpr ⟨c, hold, by simp [hcaller]⟩
        rw [hin] at hfree
        cases hfree
      exact (getElem?_set_ne (Ne.symm hvw)).trans hv
    · rwa [(act_extends ha).workers]
  · rcases step_cases hstep with ⟨w, choice, wk, wk', s', rfl, -, -, -⟩
      | ⟨caller, a, rfl, -, ha⟩
    · exact wanted_of_move hs hstep
    · exact wanted_of_act hs hc ha

/-- The loop and the queue are as before: the calls and the bytes decide. -/
theorem Notified.of_base (hs : Notified s) (hbase : t.base = s.base)
    (hreads : ∀ c ∈ t.calls, c.2 = .read → c ∈ s.calls
      ∨ ∃ w wk, c.1 = some w ∧ s.base.workers[w]? = some wk ∧ wk.pc.awake = true)
    (hway : (∃ ft ∈ s.base.m_fibers, Wanted s.base ft) → UnderWay s → UnderWay t) : Notified t := by
  obtain ⟨base, bytes, calls, due⟩ := t
  obtain rfl : base = s.base := hbase
  refine ⟨hs.known, hs.idle, ?_, ?_⟩
  · intro c hc hread
    exact (hreads c hc hread).elim (fun hc => hs.reading c hc hread) id
  · exact fun ft hft hwanted => hway ⟨ft, hft, hwanted⟩ (hs.wanted ft hft hwanted)

theorem UnderWay.mono (h : UnderWay s) (hbase : t.base = s.base)
    (hbytes : s.bytes ≤ t.bytes) (hcalls : ∀ c ∈ s.calls, c ∈ t.calls) : UnderWay t := by
  rcases h with h | h | ⟨c, hc, hne⟩
  · exact Or.inl (Nat.lt_of_lt_of_le h hbytes)
  · exact Or.inr (Or.inl (hbase ▸ h))
  · exact Or.inr (Or.inr ⟨c, hcalls c hc, hne⟩)

/-- A call begins; only a worker that is awake begins to read. -/
theorem Notified.begun (hs : Notified s) (hbase : t.base = s.base)
    (hbytes : s.bytes ≤ t.bytes) {c : Option Nat × PipeCall} (hcalls : t.calls = s.calls ++ [c])
    (hread : c.2 = .read →
      ∃ w wk, c.1 = some w ∧ s.base.workers[w]? = some wk ∧ wk.pc.awake = true) : Notified t := by
  refine hs.of_base hbase ?_ fun _ hway => hway.mono hbase hbytes ?_
  · intro d hd hdread
    rw [hcalls] at hd
    rcases mem_append.mp hd with hd | hd
    · exact Or.inl hd
    · obtain rfl := mem_singleton.mp hd
      exact Or.inr (hread hdread)
  · intro d hd
    rw [hcalls]
    exact mem_append_left _ hd

theorem handles_awake {s : State} (h : s.handles w = true) :
    ∃ wk, s.workers[w]? = some wk ∧ wk.pc.awake = true := by
  unfold State.handles at h
  split at h
  · next wk hw =>
    refine ⟨wk, hw, ?_⟩
    split at h
    · next hpc =>
      rw [hpc]
      rfl
    · cases h
  · cases h

/-- **The next access of a call.** -/
theorem Notified.call {i : Nat} (hs : Notified s) (hc : Notifies s (.call i))
    (h : pipeStep s (.call i) = some t) : Notified t := by
  have herase : ∀ c ∈ s.calls.eraseIdx i, c.2 = .read → c ∈ s.calls
      ∨ ∃ w wk, c.1 = some w ∧ s.base.workers[w]? = some wk ∧ wk.pc.awake = true :=
    fun c hc _ => Or.inl (mem_of_mem_eraseIdx hc)
  rw [pipeStep] at h
  split at h
  · next caller hi =>
    have hlt : i < s.calls.length := (List.getElem?_eq_some_iff.mp hi).1
    split at h
    · cases h
      refine hs.of_base rfl ?_ fun _ _ => ?_
      · intro c hc hread
        rcases mem_or_eq_of_mem_set hc with hc | rfl
        · exact Or.inl hc
        · cases hread
      · have hmem : (caller, PipeCall.write) ∈ s.calls.set i (caller, .write) := mem_set hlt _
        exact Or.inr (Or.inr ⟨_, hmem, PipeCall.noConfusion⟩)
    · next hcount =>
      cases h
      refine hs.of_base rfl herase ?_
      rintro ⟨ft, hft, hwanted⟩ -
      rcases hc _ hi rfl with hpos | hway | hnot
      · exact absurd hpos hcount
      · exact hway
      · exact absurd hwanted (hnot ft hft)
  · cases h
    exact hs.of_base rfl herase fun _ _ => Or.inl (Nat.succ_pos _)
  · next caller hi =>
    obtain ⟨w, wk, -, hw, hawake⟩ := hs.reading _ (mem_of_getElem? hi) rfl
    have hawake : ∃ wk ∈ s.base.workers, wk.pc.awake = true := ⟨wk, mem_of_getElem? hw, hawake⟩
    split at h
    · cases h
      exact hs.of_base rfl (fun c hc _ => Or.inl hc) fun _ _ => Or.inr (Or.inl hawake)
    · cases h
      exact hs.of_base rfl herase fun _ _ => Or.inr (Or.inl hawake)
  · cases h

/-- **One step** under the condition keeps the invariant. -/
theorem Notified.pipeStep {l : PipeLabel} (hs : Notified s) (hc : Notifies s l)
    (h : SylarScheduler.pipeStep s l = some t) : Notified t := by
  cases l with
  | run l =>
    rw [SylarScheduler.pipeStep] at h
    split at h
    · cases h
    · exact hs.run hc h
  | woken w batch =>
    obtain ⟨-, h⟩ := Option.ite_none_right_eq_some.mp h
    obtain ⟨u, hu, rfl⟩ := Option.map_eq_some_iff.mp h
    have hrun : Notified u := hs.run (l := .worker w (.ready batch)) trivial hu
    exact ⟨hrun.known, hrun.idle, hrun.reading, hrun.wanted⟩
  | drain w =>
    obtain ⟨⟨hhandles, -, -⟩, h⟩ := Option.ite_none_right_eq_some.mp h
    cases h
    obtain ⟨wk, hw, hawake⟩ := handles_awake hhandles
    exact hs.begun rfl (Nat.le_refl _) rfl fun _ => ⟨w, wk, rfl, hw, hawake⟩
  | tickle caller =>
    obtain ⟨-, h⟩ := Option.ite_none_left_eq_some.mp h
    cases h
    exact hs.begun rfl (Nat.le_refl _) rfl nofun
  | call i => exact hs.call hc h

/-! ## Main results -/

/-- The worker executes a task, sleeps, or has left `run`. -/
def Pc.settled : Pc → Bool
  | .exec _ _ | .idle .wait | .left => true
  | _ => false

/-- **NO LOST WAKEUP**, in every run whose steps meet the condition: when a worker sleeps, no
byte is left to read and every other worker executes or sleeps, a task that the sleeping
one may take is queued only while a thread is inside `tickle` for it, and that `tickle`
finds an idle thread and writes. -/
theorem no_lost_wakeup {n : Nat} {s : Piped}
    (h : Reaches pipeStep Notifies (Piped.init n) s) {w : Nat} {wk : Worker}
    (hw : s.base.workers[w]? = some wk) (hwait : wk.pc = .idle .wait)
    (hbytes : s.bytes = 0)
    (hothers : ∀ v x, v ≠ w → s.base.workers[v]? = some x → x.pc.settled = true) :
    ∀ ft ∈ s.base.m_fibers, mayTake s.base.m_state w ft = true →
      (∃ c ∈ s.calls, c.2 ≠ .read) ∧ 0 < s.base.m_idleThreadCount := by
  have hs : Notified s := h.inv (init_notified n) Notified.pipeStep
  intro ft hft hmay
  have hrests : wk.rests = true := by rw [Worker.rests, hwait]
  constructor
  · rcases hs.wanted ft hft (wanted_iff.mpr ⟨w, wk, hw, hrests, hmay⟩) with
      hpos | ⟨x, hx, hawake⟩ | hcall
    · omega
    · -- nobody is awake: the others are settled, and this one sleeps
      exfalso
      obtain ⟨v, hv⟩ := getElem?_of_mem hx
      by_cases hvw : v = w
      · subst hvw
        obtain rfl : x = wk := Option.some.inj (hv.symm.trans hw)
        rw [hwait] at hawake
        cases hawake
      · have hsettled := hothers v x hvw hv
        unfold Pc.settled at hsettled
        split at hsettled <;> simp_all [Pc.awake]
    · exact hcall
  · rw [hs.idle]
    have hpos : 0 < s.base.workers.countP fun wk => wk.pc.inIdle :=
      countP_pos_iff.mpr ⟨wk, mem_of_getElem? hw, by rw [hwait]; rfl⟩
    omega

/-- The steps of one worker from the head of the loop into `epoll_wait`. -/
def fallAsleep (w : Nat) : List PipeLabel :=
  List.replicate 5 (.run (.worker w .go))

/-- A task is queued while the only worker sleeps: its `tickle` is under way. -/
theorem no_lost_wakeup_one : ∃ s, exec pipeStep (Piped.init 1)
        (fallAsleep 0 ++ [.run (.act none (.schedule ⟨.cb 7, none⟩))]) = some s
      ∧ (∃ c ∈ s.calls, c.2 ≠ .read) ∧ 0 < s.base.m_idleThreadCount := by
  have hrun : exec pipeStep (Piped.init 1)
      (fallAsleep 0 ++ [.run (.act none (.schedule ⟨.cb 7, none⟩))]) = some _ := rfl
  have halong : Along pipeStep Notifies (Piped.init 1)
      (fallAsleep 0 ++ [.run (.act none (.schedule ⟨.cb 7, none⟩))]) := by
    decide +kernel
  refine ⟨_, hrun, no_lost_wakeup (reaches_of_exec halong hrun) (w := 0) rfl rfl rfl
    ?_ ⟨.cb 7, none⟩ (mem_singleton_self _) rfl⟩
  intro v x hv hx
  have hlt := (List.getElem?_eq_some_iff.mp hx).1
  exact absurd (Nat.lt_one_iff.mp hlt) hv

/-- **A wakeup is lost.** The only worker has found the queue empty and is not yet counted as idle
when a task is queued: `tickle` writes nothing, and the worker sleeps. -/
theorem uncounted_worker_sleeps : ∃ s wk, exec pipeStep (Piped.init 1)
        ([.run (.worker 0 .go), .run (.act none (.schedule ⟨.cb 7, none⟩)), .call 0]
          ++ List.replicate 4 (.run (.worker 0 .go))) = some s
      ∧ s.base.workers = [wk] ∧ wk.pc = .idle .wait ∧ s.bytes = 0 ∧ s.calls = []
      ∧ s.base.m_fibers = [⟨.cb 7, none⟩]
      ∧ mayTake s.base.m_state 0 ⟨.cb 7, none⟩ = true :=
  ⟨_, _, rfl, rfl, rfl, rfl, rfl, rfl, rfl⟩

/-- A task for thread 0 wakes worker 1, which leaves it in the queue and sleeps again.  The next
task, for any thread, finds the queue not empty, and nobody tells worker 1. -/
theorem pinned_task_hides_next : ∃ s wk₀ wk₁, exec pipeStep (Piped.init 2)
        ([.run (.act none (.schedule ⟨.cb 7, none⟩)), .call 0]
          ++ replicate 3 (.run (.worker 0 .go)) ++ fallAsleep 1
          ++ [.run (.act none (.schedule ⟨.cb 8, some 0⟩)), .call 0, .call 0,
            .woken 1 [], .run (.worker 1 (.clock 0 false)), .run (.worker 1 .go),
            .drain 1, .call 0, .call 0]
          ++ replicate 3 (.run (.worker 1 .go)) ++ [.call 0]
          ++ replicate 4 (.run (.worker 1 .go))
          ++ [.run (.act none (.schedule ⟨.cb 9, none⟩))]) = some s
      ∧ s.base.workers = [wk₀, wk₁] ∧ wk₀.pc = .exec 0 true ∧ wk₁.pc = .idle .wait
      ∧ s.bytes = 0 ∧ s.calls = []
      ∧ s.base.m_fibers = [⟨.cb 8, some 0⟩, ⟨.cb 9, none⟩]
      ∧ mayTake s.base.m_state 1 ⟨.cb 9, none⟩ = true :=
  ⟨_, _, _, rfl, rfl, rfl, rfl, rfl, rfl, rfl, rfl⟩

end SylarScheduler
