import Sylar.StepSystemProofs
import Mathlib.Logic.Function.Basic

/-! # The worker loop (`scheduler.cc`, `fiber.cc`, `iomanager.cc`, `timer.cc`)

`n` threads run `Scheduler::run` on one queue, with the idle loop of
`IOManager`.  What the source does under one lock, or in one access to an
atomic, is one step; between two steps every other thread may move.  In
particular a fiber that yields first writes its state and leaves its stack in
a later step, and `stopping` is three reads.

The code of tasks and of other threads is not fixed: a step `act` of a
worker that executes a task, or of another thread, is any call of the
interface.  Steps after which the source has no meaning (a failed
assertion, two threads on one stack) have no successor.

* **`step`** — the system; **`init`** — `n` workers about to run.
* **`Moves`** — what one step of a worker can do, case by case;
  **`advance_moves`** says that these are all. -/

namespace SylarScheduler

open StepSystem

/-- `Fiber::State`. -/
inductive FiberState where
  | INIT | HOLD | EXEC | TERM | READY | EXCEPT
  deriving DecidableEq, Repr

/-- `TERM` or `EXCEPT`. -/
def FiberState.ended : FiberState → Bool
  | .TERM | .EXCEPT => true
  | _ => false

/-- What is scheduled: a fiber (by its address) or a callback. -/
inductive Task where
  | fiber (f : Nat)
  | cb (c : Nat)
  deriving DecidableEq, Repr

/-- An entry of the queue; `none` is the thread `-1`. -/
structure FiberAndThread where
  task : Task
  thread : Option Nat
  deriving DecidableEq, Repr

/-- `Timer`; `m_cb` names its callback. -/
structure Timer where
  m_next : Nat
  m_ms : Nat
  m_cb : Nat
  m_recurring : Bool
  deriving DecidableEq, Repr

/-- Where a worker stands in `IOManager::idle`; the batch is what `epoll_wait` returned. -/
inductive IdlePc where
  | nextTimer
  | pending
  | stopping
  | wait
  | expired (batch : List Task)
  | schedule (cbs : List Nat) (batch : List Task)
  | events (batch : List Task)
  | count (batch : List Task)
  deriving DecidableEq, Repr

/-- Where a worker stands in `Scheduler::run`; `own` tells `cb_fiber` from a fiber of the queue. -/
inductive Pc where
  | pop
  | popped (task : Task)
  | callback (f : Nat)
  | exec (f : Nat) (own : Bool)
  | leave (f : Nat) (own : Bool)
  | decrement (f : Nat) (own : Bool)
  | bookkeep (f : Nat) (own : Bool)
  | drop
  | noTask
  | idle (point : IdlePc)
  | idleLeave
  | left
  deriving DecidableEq, Repr

/-- The locals of `run` on one thread. -/
structure Worker where
  pc : Pc
  cb_fiber : Option Nat
  idle_fiber : FiberState
  deriving DecidableEq, Repr

/-- `m_state` is the state field of each fiber, `fresh` the next address; `m_stopping` stands for
`m_autoStop && m_stopping`; `events` are the registrations in the `FdContext`s, and `triggered`
counts the calls of `cancelEvent` and `cancelAll` that have not yet decremented the counter. -/
structure State where
  m_fibers : List FiberAndThread
  m_state : Nat → FiberState
  fresh : Nat
  workers : List Worker
  m_activeThreadCount : Int
  m_idleThreadCount : Int
  m_stopping : Bool
  m_timers : List Timer
  events : List Task
  m_pendingEventCount : Int
  triggered : Nat

/-- `n` threads at the head of their loop. -/
def init (n : Nat) : State where
  m_fibers := []
  m_state := fun _ => .INIT
  fresh := 0
  workers := List.replicate n ⟨.pop, none, .INIT⟩
  m_activeThreadCount := 0
  m_idleThreadCount := 0
  m_stopping := false
  m_timers := []
  events := []
  m_pendingEventCount := 0
  triggered := 0

/-- What the code does not decide: how a task goes on, what `epoll_wait` returns, what the clock
says. -/
inductive Choice where
  | go
  | YieldToHold
  | YieldToReady
  | finish (except : Bool)
  | ready (batch : List Task)
  | clock (now_ms : Nat) (rollover : Bool)
  deriving DecidableEq, Repr

/-- The calls a task or another thread can make.  Timers and registrations are
named by their position. -/
inductive Action where
  | newFiber
  | schedule (ft : FiberAndThread)
  | addTimer (timer : Timer)
  | cancelTimer (i : Nat)
  | resetTimer (i m_next m_ms : Nat)
  | addEvent (task : Task)
  | delEvent (i : Nat)
  | cancelEvent (i : Nat)
  | countDown
  | stop
  deriving DecidableEq, Repr

/-- A worker's own step, or a call by the task of worker `w` (`some w`) or another thread (`none`).
-/
inductive Label where
  | worker (w : Nat) (choice : Choice)
  | act (caller : Option Nat) (a : Action)
  deriving DecidableEq, Repr

/-! ## The steps -/

/-- The worker may take the entry: `thread` fits and the fiber is not `EXEC`. -/
def mayTake (m_state : Nat → FiberState) (w : Nat) (ft : FiberAndThread) : Bool :=
  (ft.thread == none || ft.thread == some w)
    && match ft.task with
      | .fiber f => m_state f != .EXEC
      | .cb _ => true

/-- The thread executes on the stack of `f`: it has swapped in and not left,
whatever the state field says. -/
def Worker.onStack (f : Nat) (wk : Worker) : Bool :=
  match wk.pc with
  | .exec g _ | .leave g _ => g == f
  | _ => false

def State.setState (s : State) (f : Nat) (x : FiberState) : State :=
  { s with m_state := Function.update s.m_state f x }

@[simp] theorem setState_self (s : State) (f : Nat) (x : FiberState) :
    (s.setState f x).m_state f = x :=
  Function.update_self _ _ _

variable {f w : Nat} {s t s' : State} {wk wk' : Worker}

theorem setState_of_ne (s : State) {g : Nat} (x : FiberState) (h : f ≠ g) :
    (s.setState g x).m_state f = s.m_state f :=
  Function.update_of_ne h _ _

def State.push (s : State) (ft : FiberAndThread) : State :=
  { s with m_fibers := s.m_fibers ++ [ft] }

/-- `Fiber::SwapIn`: assert `m_state != EXEC`, write `EXEC`, switch to the
stack, which nobody else may be on. -/
def State.SwapIn (s : State) (f : Nat) : Option State :=
  if s.m_state f = .EXEC ∨ s.workers.any (Worker.onStack f) then none
  else some (s.setState f .EXEC)

/-- `TimerManager::listExpiredCb`: the callbacks due, and the timers left, recurring ones with their
next time. -/
def listExpiredCb (now_ms : Nat) (rollover : Bool) (m_timers : List Timer) :
    List Nat × List Timer :=
  let due := fun t : Timer => rollover || decide (t.m_next ≤ now_ms)
  let expired := m_timers.filter due
  (expired.map Timer.m_cb,
    m_timers.filter (fun t => !due t)
      ++ (expired.filter Timer.m_recurring).map fun t =>
        { t with m_next := now_ms + t.m_ms })

/-- One step of a worker in `IOManager::idle`. -/
def advanceIdle (s : State) (wk : Worker) :
    IdlePc → Choice → Option (Worker × State)
  | .nextTimer, .go =>
    -- timeout = getNextTimer(); timeout == ~0ull
    some ({ wk with pc := .idle (if s.m_timers = [] then .pending else .wait) }, s)
  | .pending, .go =>
    some ({ wk with
      pc := .idle (if s.m_pendingEventCount = 0 then .stopping else .wait) }, s)
  | .stopping, .go =>
    -- Scheduler::stopping(), under m_mutex; then break ends the idle fiber
    if s.m_stopping ∧ s.m_fibers = [] ∧ s.m_activeThreadCount = 0 then
      some ({ wk with pc := .idleLeave, idle_fiber := .TERM }, s)
    else some ({ wk with pc := .idle .wait }, s)
  | .wait, .ready batch => some ({ wk with pc := .idle (.expired batch) }, s)
  | .expired batch, .clock now_ms rollover =>
    let (cbs, m_timers) := listExpiredCb now_ms rollover s.m_timers
    some ({ wk with pc := .idle (.schedule cbs batch) },
      { s with m_timers := m_timers })
  | .schedule cbs batch, .go =>
    some ({ wk with pc := .idle (.events batch) },
      { s with m_fibers := s.m_fibers ++ cbs.map fun c => ⟨.cb c, none⟩ })
  | .events [], .go => some ({ wk with pc := .idleLeave }, s)
  | .events (task :: batch), .go =>
    -- triggerEvent, if it is still registered
    if task ∈ s.events then
      some ({ wk with pc := .idle (.count batch) },
        { s with events := s.events.erase task }.push ⟨task, none⟩)
    else some ({ wk with pc := .idle (.events batch) }, s)
  | .count batch, .go =>
    some ({ wk with pc := .idle (.events batch) },
      { s with m_pendingEventCount := s.m_pendingEventCount - 1 })
  | _, _ => none

/-- The end of an iteration of `run` with a fiber: queue it again, or write `HOLD`, or make the
ended `cb_fiber` ready for the next callback. -/
def bookkeep (s : State) (wk : Worker) (f : Nat) (own : Bool) : Worker × State :=
  if s.m_state f = .READY then
    ({ wk with pc := .pop, cb_fiber := if own then none else wk.cb_fiber },
      s.push ⟨.fiber f, none⟩)
  else if (s.m_state f).ended then
    ({ wk with pc := .pop }, if own then s.setState f .INIT else s)
  else
    ({ wk with pc := .pop, cb_fiber := if own then none else wk.cb_fiber },
      s.setState f .HOLD)

/-- One step of a worker in `Scheduler::run`: its locals and the shared state
after the step. -/
def advance (s : State) (w : Nat) (wk : Worker) (choice : Choice) :
    Option (Worker × State) :=
  match wk.pc, choice with
  | .pop, .go =>
    match s.m_fibers.find? (mayTake s.m_state w) with
    | some ft => some ({ wk with pc := .popped ft.task },
        { s with
          m_fibers := s.m_fibers.eraseP (mayTake s.m_state w)
          m_activeThreadCount := s.m_activeThreadCount + 1 })
    | none => some ({ wk with pc := .noTask }, s)
  | .popped (.fiber f), .go =>
    if (s.m_state f).ended then some ({ wk with pc := .drop }, s)
    else (s.SwapIn f).map fun s => ({ wk with pc := .exec f false }, s)
  | .popped (.cb _), .go =>
    match wk.cb_fiber with
    | some f =>
        -- Fiber::reset asserts TERM, EXCEPT or INIT
        if (s.m_state f).ended ∨ s.m_state f = .INIT then
          some ({ wk with pc := .callback f }, s.setState f .INIT)
        else none
    | none =>
        some ({ wk with pc := .callback s.fresh, cb_fiber := some s.fresh },
          { s.setState s.fresh .INIT with fresh := s.fresh + 1 })
  | .callback f, .go =>
    (s.SwapIn f).map fun s => ({ wk with pc := .exec f true }, s)
  | .exec f own, .YieldToHold =>
    if s.m_state f = .EXEC then
      some ({ wk with pc := .leave f own }, s.setState f .HOLD)
    else none
  | .exec f own, .YieldToReady =>
    some ({ wk with pc := .leave f own }, s.setState f .READY)
  | .exec f own, .finish except =>
    some ({ wk with pc := .leave f own },
      s.setState f (if except then .EXCEPT else .TERM))
  | .leave f own, .go => some ({ wk with pc := .decrement f own }, s)
  | .decrement f own, .go =>
    some ({ wk with pc := .bookkeep f own },
      { s with m_activeThreadCount := s.m_activeThreadCount - 1 })
  | .bookkeep f own, .go => some (bookkeep s wk f own)
  | .drop, .go =>
    some ({ wk with pc := .pop },
      { s with m_activeThreadCount := s.m_activeThreadCount - 1 })
  | .noTask, .go =>
    if wk.idle_fiber = .TERM then some ({ wk with pc := .left }, s)
    else if wk.idle_fiber = .EXEC then none
    else some ({ wk with pc := .idle .nextTimer, idle_fiber := .EXEC },
      { s with m_idleThreadCount := s.m_idleThreadCount + 1 })
  | .idle point, choice => advanceIdle s wk point choice
  | .idleLeave, .go =>
    some ({ wk with
        pc := .pop
        idle_fiber := if wk.idle_fiber.ended then wk.idle_fiber else .HOLD },
      { s with m_idleThreadCount := s.m_idleThreadCount - 1 })
  | _, _ => none

/-- The fiber of a task exists. -/
def State.known (s : State) : Task → Bool
  | .fiber f => decide (f < s.fresh)
  | .cb _ => true

/-- One call of the interface. -/
def act (s : State) : Action → Option State
  | .newFiber => some { s.setState s.fresh .INIT with fresh := s.fresh + 1 }
  | .schedule ft => if s.known ft.task then some (s.push ft) else none
  | .addTimer timer => some { s with m_timers := s.m_timers ++ [timer] }
  | .cancelTimer i => some { s with m_timers := s.m_timers.eraseIdx i }
  | .resetTimer i m_next m_ms =>
    some { s with m_timers := s.m_timers.modify i fun t =>
      { t with m_next := m_next, m_ms := m_ms } }
  | .addEvent task =>
    if s.known task then
      some { s with
        events := s.events ++ [task]
        m_pendingEventCount := s.m_pendingEventCount + 1 }
    else none
  | .delEvent i =>
    if i < s.events.length then
      some { s with
        events := s.events.eraseIdx i
        m_pendingEventCount := s.m_pendingEventCount - 1 }
    else none
  | .cancelEvent i =>
    match s.events[i]? with
    | some task => some ({ s with
        events := s.events.eraseIdx i
        triggered := s.triggered + 1 }.push ⟨task, none⟩)
    | none => none
  | .countDown =>
    if 0 < s.triggered then
      some { s with
        triggered := s.triggered - 1
        m_pendingEventCount := s.m_pendingEventCount - 1 }
    else none
  | .stop => some { s with m_stopping := true }

/-- The worker executes a task. -/
def State.executes (s : State) (w : Nat) : Bool :=
  match s.workers[w]? with
  | some wk => match wk.pc with
    | .exec _ _ => true
    | _ => false
  | none => false

/-- One step of the system. -/
def step (s : State) : Label → Option State
  | .worker w choice =>
    match s.workers[w]? with
    | some wk => (advance s w wk choice).map fun r =>
        { r.2 with workers := r.2.workers.set w r.1 }
    | none => none
  | .act none a => act s a
  | .act (some w) a => if s.executes w then act s a else none

/-! ## What a step of a worker can do -/

/-- The steps of a worker with locals `wk`, with their guards: the locals and
the shared state after each. -/
inductive Moves (s : State) (w : Nat) (wk : Worker) : Worker → State → Prop
  | take {ft : FiberAndThread} (hpc : wk.pc = .pop)
      (hft : s.m_fibers.find? (mayTake s.m_state w) = some ft) :
      Moves s w wk { wk with pc := .popped ft.task }
        { s with
          m_fibers := s.m_fibers.eraseP (mayTake s.m_state w)
          m_activeThreadCount := s.m_activeThreadCount + 1 }
  | noTask (hpc : wk.pc = .pop)
      (hft : s.m_fibers.find? (mayTake s.m_state w) = none) :
      Moves s w wk { wk with pc := .noTask } s
  | ended {f : Nat} (hpc : wk.pc = .popped (.fiber f))
      (hend : (s.m_state f).ended = true) :
      Moves s w wk { wk with pc := .drop } s
  | SwapIn {f : Nat} (own : Bool)
      (hpc : wk.pc = if own then .callback f else .popped (.fiber f))
      (hstate : s.m_state f ≠ .EXEC)
      (hstack : s.workers.any (Worker.onStack f) = false) :
      Moves s w wk { wk with pc := .exec f own } (s.setState f .EXEC)
  | reset {c f : Nat} (hpc : wk.pc = .popped (.cb c))
      (hf : wk.cb_fiber = some f) :
      Moves s w wk { wk with pc := .callback f } (s.setState f .INIT)
  | newFiber {c : Nat} (hpc : wk.pc = .popped (.cb c))
      (hf : wk.cb_fiber = none) :
      Moves s w wk { wk with pc := .callback s.fresh, cb_fiber := some s.fresh }
        { s.setState s.fresh .INIT with fresh := s.fresh + 1 }
  | yield {f : Nat} {own : Bool} {x : FiberState} (hpc : wk.pc = .exec f own)
      (hx : x ≠ .EXEC) :
      Moves s w wk { wk with pc := .leave f own } (s.setState f x)
  | leave {f : Nat} {own : Bool} (hpc : wk.pc = .leave f own) :
      Moves s w wk { wk with pc := .decrement f own } s
  | decrement {f : Nat} {own : Bool} (hpc : wk.pc = .decrement f own) :
      Moves s w wk { wk with pc := .bookkeep f own }
        { s with m_activeThreadCount := s.m_activeThreadCount - 1 }
  | requeue {f : Nat} {own : Bool} (hpc : wk.pc = .bookkeep f own)
      (hready : s.m_state f = .READY) :
      Moves s w wk
        { wk with pc := .pop, cb_fiber := if own then none else wk.cb_fiber }
        (s.push ⟨.fiber f, none⟩)
  | finished {f : Nat} (hpc : wk.pc = .bookkeep f false)
      (hend : (s.m_state f).ended = true) :
      Moves s w wk { wk with pc := .pop } s
  | restart {f : Nat} (hpc : wk.pc = .bookkeep f true)
      (hend : (s.m_state f).ended = true) :
      Moves s w wk { wk with pc := .pop } (s.setState f .INIT)
  | hold {f : Nat} {own : Bool} (hpc : wk.pc = .bookkeep f own)
      (hready : s.m_state f ≠ .READY) (hend : (s.m_state f).ended = false) :
      Moves s w wk
        { wk with pc := .pop, cb_fiber := if own then none else wk.cb_fiber }
        (s.setState f .HOLD)
  | drop (hpc : wk.pc = .drop) :
      Moves s w wk { wk with pc := .pop }
        { s with m_activeThreadCount := s.m_activeThreadCount - 1 }
  | exit (hpc : wk.pc = .noTask) (hidle : wk.idle_fiber = .TERM) :
      Moves s w wk { wk with pc := .left } s
  | idle (hpc : wk.pc = .noTask) (hidle : wk.idle_fiber ≠ .TERM)
      (hexec : wk.idle_fiber ≠ .EXEC) :
      Moves s w wk { wk with pc := .idle .nextTimer, idle_fiber := .EXEC }
        { s with m_idleThreadCount := s.m_idleThreadCount + 1 }
  | noTimer (hpc : wk.pc = .idle .nextTimer) (htimers : s.m_timers = []) :
      Moves s w wk { wk with pc := .idle .pending } s
  | timer (hpc : wk.pc = .idle .nextTimer) (htimers : s.m_timers ≠ []) :
      Moves s w wk { wk with pc := .idle .wait } s
  | noEvent (hpc : wk.pc = .idle .pending) (hpend : s.m_pendingEventCount = 0) :
      Moves s w wk { wk with pc := .idle .stopping } s
  | event (hpc : wk.pc = .idle .pending) (hpend : s.m_pendingEventCount ≠ 0) :
      Moves s w wk { wk with pc := .idle .wait } s
  | stopping (hpc : wk.pc = .idle .stopping) (hstop : s.m_stopping = true)
      (hqueue : s.m_fibers = []) (hactive : s.m_activeThreadCount = 0) :
      Moves s w wk { wk with pc := .idleLeave, idle_fiber := .TERM } s
  | notStopping (hpc : wk.pc = .idle .stopping) :
      Moves s w wk { wk with pc := .idle .wait } s
  | ready {batch : List Task} (hpc : wk.pc = .idle .wait) :
      Moves s w wk { wk with pc := .idle (.expired batch) } s
  | expired {batch : List Task} {now_ms : Nat} {rollover : Bool}
      (hpc : wk.pc = .idle (.expired batch)) :
      Moves s w wk
        { wk with
          pc := .idle (.schedule (listExpiredCb now_ms rollover s.m_timers).1 batch) }
        { s with m_timers := (listExpiredCb now_ms rollover s.m_timers).2 }
  | scheduleAll {cbs : List Nat} {batch : List Task}
      (hpc : wk.pc = .idle (.schedule cbs batch)) :
      Moves s w wk { wk with pc := .idle (.events batch) }
        { s with m_fibers := s.m_fibers ++ cbs.map fun c => ⟨.cb c, none⟩ }
  | handled (hpc : wk.pc = .idle (.events [])) :
      Moves s w wk { wk with pc := .idleLeave } s
  | trigger {task : Task} {batch : List Task}
      (hpc : wk.pc = .idle (.events (task :: batch))) (hmem : task ∈ s.events) :
      Moves s w wk { wk with pc := .idle (.count batch) }
        ({ s with events := s.events.erase task }.push ⟨task, none⟩)
  | stale {task : Task} {batch : List Task}
      (hpc : wk.pc = .idle (.events (task :: batch))) :
      Moves s w wk { wk with pc := .idle (.events batch) } s
  | count {batch : List Task} (hpc : wk.pc = .idle (.count batch)) :
      Moves s w wk { wk with pc := .idle (.events batch) }
        { s with m_pendingEventCount := s.m_pendingEventCount - 1 }
  | idleLeave (hpc : wk.pc = .idleLeave) :
      Moves s w wk
        { wk with
          pc := .pop
          idle_fiber := if wk.idle_fiber.ended then wk.idle_fiber else .HOLD }
        { s with m_idleThreadCount := s.m_idleThreadCount - 1 }

theorem SwapIn_eq_some (h : s.SwapIn f = some t) :
    s.m_state f ≠ .EXEC ∧ s.workers.any (Worker.onStack f) = false ∧ t = s.setState f .EXEC := by
  rw [State.SwapIn] at h
  split at h
  · exact nomatch h
  · next hfree =>
    obtain ⟨hstate, hstack⟩ := not_or.mp hfree
    exact ⟨hstate, Bool.eq_false_iff.mpr hstack, (Option.some.inj h).symm⟩

theorem advanceIdle_moves {point : IdlePc} {choice : Choice} (hpc : wk.pc = .idle point)
    (h : advanceIdle s wk point choice = some (wk', s')) : Moves s w wk wk' s' := by
  unfold advanceIdle at h
  split at h
  · split at h
    · next ht => cases h; exact .noTimer hpc ht
    · next ht => cases h; exact .timer hpc ht
  · split at h
    · next hp => cases h; exact .noEvent hpc hp
    · next hp => cases h; exact .event hpc hp
  · split at h
    · next hs => cases h; exact .stopping hpc hs.1 hs.2.1 hs.2.2
    · cases h; exact .notStopping hpc
  · cases h; exact .ready hpc
  · cases h; exact .expired hpc
  · cases h; exact .scheduleAll hpc
  · cases h; exact .handled hpc
  · split at h
    · next hm => cases h; exact .trigger hpc hm
    · cases h; exact .stale hpc
  · cases h; exact .count hpc
  · exact nomatch h

theorem bookkeep_moves {own : Bool} (hpc : wk.pc = .bookkeep f own)
    (h : bookkeep s wk f own = (wk', s')) : Moves s w wk wk' s' := by
  unfold bookkeep at h
  split at h
  · next hready => cases h; exact .requeue hpc hready
  · next hready =>
    split at h
    · next hend =>
      cases h
      cases own with
      | false => exact .finished hpc hend
      | true => exact .restart hpc hend
    · next hend => cases h; exact .hold hpc hready (Bool.eq_false_iff.mpr hend)

/-- **What a worker does is one of the moves.** -/
theorem advance_moves {choice : Choice} (h : advance s w wk choice = some (wk', s')) :
    Moves s w wk wk' s' := by
  unfold advance at h
  split at h
  · next hpc =>
    split at h
    · next hft => cases h; exact .take hpc hft
    · next hft => cases h; exact .noTask hpc hft
  · next hpc =>
    split at h
    · next hend => cases h; exact .ended hpc hend
    · obtain ⟨t, ht, heq⟩ := Option.map_eq_some_iff.mp h
      obtain ⟨hstate, hstack, rfl⟩ := SwapIn_eq_some ht
      cases heq
      exact .SwapIn false hpc hstate hstack
  · next hpc =>
    split at h
    · next hf =>
      split at h
      · cases h; exact .reset hpc hf
      · exact nomatch h
    · next hf => cases h; exact .newFiber hpc hf
  · next hpc =>
    obtain ⟨t, ht, heq⟩ := Option.map_eq_some_iff.mp h
    obtain ⟨hstate, hstack, rfl⟩ := SwapIn_eq_some ht
    cases heq
    exact .SwapIn true hpc hstate hstack
  · next hpc =>
    split at h
    · cases h; exact .yield hpc (by decide)
    · exact nomatch h
  · next hpc => cases h; exact .yield hpc (by decide)
  · next except hpc =>
    cases h
    exact .yield hpc (by cases except <;> decide)
  · next hpc => cases h; exact .leave hpc
  · next hpc => cases h; exact .decrement hpc
  · next hpc => exact bookkeep_moves hpc (Option.some.inj h)
  · next hpc => cases h; exact .drop hpc
  · next hpc =>
    split at h
    · next hidle => cases h; exact .exit hpc hidle
    · next hidle =>
      split at h
      · exact nomatch h
      · next hexec => cases h; exact .idle hpc hidle hexec
  · next hpc => exact advanceIdle_moves hpc h
  · next hpc => cases h; exact .idleLeave hpc
  · exact nomatch h

/-- No move touches the other workers. -/
theorem Moves.workers_eq (h : Moves s w wk wk' s') : s'.workers = s.workers := by
  cases h <;> rfl

/-- A step of the system is a move of one worker or a call. -/
theorem step_cases {l : Label} (h : step s l = some t) :
    (∃ w choice wk wk' s', l = .worker w choice ∧ s.workers[w]? = some wk
        ∧ Moves s w wk wk' s' ∧ t = { s' with workers := s.workers.set w wk' })
      ∨ ∃ caller a, l = .act caller a
        ∧ (∀ w, caller = some w → s.executes w = true) ∧ act s a = some t := by
  unfold step at h
  split at h
  · next w choice =>
    split at h
    · next wk hwk =>
      obtain ⟨⟨wk', s'⟩, hadv, rfl⟩ := Option.map_eq_some_iff.mp h
      have hm := advance_moves hadv
      refine Or.inl ⟨w, choice, wk, wk', s', rfl, hwk, hm, ?_⟩
      rw [hm.workers_eq]
    · exact nomatch h
  · exact Or.inr ⟨none, _, rfl, fun _ hw => (nomatch hw), h⟩
  · next w a =>
    split at h
    · next hex =>
      refine Or.inr ⟨some w, a, rfl, ?_, h⟩
      rintro w' hw
      cases hw
      exact hex
    · exact nomatch h

/-! ## What a call does to the queue -/

/-- The entry that a call queues. -/
def queues (s : State) : Action → Option FiberAndThread
  | .schedule ft => some ft
  | .cancelEvent i => (s.events[i]?).map fun task => ⟨task, none⟩
  | _ => none

theorem act_m_fibers {a : Action} (h : act s a = some t) :
    t.m_fibers = s.m_fibers ++ (queues s a).toList := by
  cases a with
  | schedule ft =>
    obtain ⟨-, ht⟩ := Option.ite_none_right_eq_some.mp h
    cases ht
    rfl
  | cancelEvent i =>
    rw [act] at h
    rw [queues]
    split at h
    · next task htask =>
      cases h
      rw [htask]
      rfl
    · cases h
  | addEvent | delEvent | countDown =>
    obtain ⟨-, ht⟩ := Option.ite_none_right_eq_some.mp h
    cases ht
    exact (List.append_nil _).symm
  | _ =>
    cases h
    exact (List.append_nil _).symm

end SylarScheduler
