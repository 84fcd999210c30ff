import Sylar.FdManagerProofs
import Sylar.StepSystemProofs

/-! # A hooked call between the kernel, its timer and `close` (`hook.cc`)

`do_io` and `connect_with_timeout` turn a blocking call into a wait for an
event: on `EAGAIN` (`EINPROGRESS`) they arm a condition timer, register the
descriptor with the `IOManager`, yield, and look at `tinfo->cancelled` when
they run again.

One such call on one descriptor is one party here.  The others are the
workers that take the expired timer out and run its callback, the idle loop
that reports readiness, a fiber that closes the descriptor, and the kernel
that may hand its number out again.  Each access to what they share is a step
of its own.

* **`step`** — the system; **`Moves`** — what one step can do, case by case;
  **`step_moves`** says that these are all. -/

namespace SylarHookIo

open StepSystem SylarFdManager

/-- The values of `errno` the calls look at. -/
inductive Errno where
  | EINTR | EAGAIN | EINPROGRESS | EBADF | ETIMEDOUT
  | other (e : Nat)
  deriving DecidableEq, Repr

/-- What a call returns: a value, or `-1` with `errno`. -/
inductive Answer where
  | value (n : Nat)
  | error (e : Errno)
  deriving DecidableEq, Repr

/-- `SO_RCVTIMEO` or another type. -/
inductive TimeoutType where
  | SO_RCVTIMEO | SO_SNDTIMEO
  deriving DecidableEq, Repr

/-- `FdCtx::getTimeout(type)`. -/
def getTimeout (ctx : FdCtx) : TimeoutType → UInt64
  | .SO_RCVTIMEO => ctx.m_recvTimeout
  | .SO_SNDTIMEO => ctx.m_sendTimeout

/-- The two hooked functions that wait. -/
inductive Kind where
  | do_io (timeout_so : TimeoutType)
  | connect_with_timeout (timeout_ms : UInt64)
  deriving DecidableEq, Repr

/-- A call: the function, and `FdMgr::Getinstance()->get(fd)` when it starts. -/
structure Call where
  kind : Kind
  ctx : Option FdCtx
  deriving DecidableEq, Repr

/-- `to`, or `timeout_ms`. -/
def Call.timeout (c : Call) : UInt64 :=
  match c.kind, c.ctx with
  | .do_io timeout_so, some ctx => getTimeout ctx timeout_so
  | .do_io _, none => -1
  | .connect_with_timeout timeout_ms, _ => timeout_ms

/-- The answer after which the call waits. -/
def Kind.waits : Kind → Errno
  | .do_io _ => .EAGAIN
  | .connect_with_timeout _ => .EINPROGRESS

/-- Where the call stands. -/
inductive Pc where
  | enter
  | plain
  | retry
  | arm
  | addEvent
  | YieldToHold
  | parked
  | cancelTimer
  | look
  | addFailed (e : Errno)
  | getsockopt
  | done (r : Answer)
  deriving DecidableEq, Repr

/-- Where the hooked `close(fd)` stands.  It returns after the call on `fd` has (`finished`) or
before. -/
inductive ClosePc where
  | idle
  | cancelAll
  | del
  | close_f
  | returned (finished : Bool)
  deriving DecidableEq, Repr

/-- What the parties share: the timer is `armed`; `expired` callbacks are still to run; `firing`
ones have set `tinfo->cancelled` and not yet called `cancelEvent`; the event is `registered` in the
`FdContext`, or in the kernel (`epoll`); the fiber is `scheduled`.  `file` is what `fd` stands for.
`late`: the fiber was resumed after the timeout; `touched`: the files touched after `close` had
returned. -/
structure State where
  pc : Pc
  armed : Bool
  expired : Nat
  firing : Nat
  cancelled : Bool
  registered : Bool
  epoll : Bool
  scheduled : Bool
  late : Bool
  closer : ClosePc
  file : Option Nat
  touched : List (Option Nat)
  deriving DecidableEq, Repr

/-- The call is about to start on an open descriptor. -/
def init : State where
  pc := .enter
  armed := false
  expired := 0
  firing := 0
  cancelled := false
  registered := false
  epoll := false
  scheduled := false
  late := false
  closer := .idle
  file := some 0
  touched := []

/-- The parties; the kernel's answer to a system call of the call itself is part
of its step. -/
inductive Label where
  | call (answer : Answer)
  | expire
  | callback
  | cancelEvent
  | ready
  | resume
  | close
  | reuse (file : Nat)
  deriving DecidableEq, Repr

/-! ## The steps -/

/-- A system call on the number `fd`: what it touches counts after `close`. -/
def State.touch (s : State) : State :=
  match s.closer with
  | .returned _ => { s with touched := s.touched ++ [s.file] }
  | _ => s

/-- The kernel refuses a number that is not open. -/
def State.answers (s : State) (answer : Answer) : Bool :=
  s.file.isSome || answer == .error .EBADF

/-- `triggerEvent`: the event is taken out, the fiber is queued. -/
def State.trigger (s : State) : State :=
  { s with registered := false, epoll := false, scheduled := true }

/-- The tests before the first system call. -/
def enter (c : Call) : Pc :=
  match c.kind, c.ctx with
  | .do_io _, none => .plain
  | .connect_with_timeout _, none => .done (.error .EBADF)
  | _, some ctx =>
    if ctx.m_isClosed then .done (.error .EBADF)
    else if !ctx.m_isSocket || ctx.m_userNonblock then .plain
    else .retry

/-- What follows the system call. -/
def afterRetry (k : Kind) (answer : Answer) : Pc :=
  match k, answer with
  -- `do_io` repeats an interrupted call, `connect_with_timeout` does not
  | .do_io _, .error .EINTR => .retry
  | _, .error e => if e = k.waits then .arm else .done (.error e)
  | _, .value n => .done (.value n)

/-- What follows the look at `tinfo->cancelled` when it is not set. -/
def afterWait : Kind → Pc
  | .do_io _ => .retry
  | .connect_with_timeout _ => .getsockopt

/-- What follows a failed `addEvent`. -/
def afterFailed (k : Kind) (e : Errno) : Pc :=
  match k with
  | .do_io _ => .done (.error e)
  | .connect_with_timeout _ => .getsockopt

/-- `SO_ERROR`, or the failure to get it. -/
def afterGetsockopt : Answer → Pc
  | .error e => .done (.error e)
  | .value 0 => .done (.value 0)
  | .value (e + 1) => .done (.error (.other (e + 1)))

/-- The next step of the call. -/
def advance (c : Call) (s : State) (answer : Answer) : Option State :=
  match s.pc with
  | .enter => some { s with pc := enter c }
  | .plain =>
    if s.answers answer then some { s.touch with pc := .done answer } else none
  | .retry =>
    if s.answers answer then some { s.touch with pc := afterRetry c.kind answer }
    else none
  | .arm => some { s with pc := .addEvent, armed := c.timeout != -1 }
  | .addEvent =>
    -- epoll_ctl
    if s.answers answer then
      match answer with
      | .value _ =>
          -- SYLAR_ASSERT(!(fd_ctx->events & event))
          if s.registered then none
          else some { s.touch with pc := .YieldToHold, registered := true, epoll := true }
      | .error e => some { s.touch with pc := .addFailed e }
    else none
  | .YieldToHold => some { s with pc := .parked }
  | .parked => none
  | .cancelTimer => some { s with pc := .look, armed := false }
  | .look =>
    some { s with
      pc := if s.cancelled then .done (.error .ETIMEDOUT) else afterWait c.kind }
  | .addFailed e => some { s with pc := afterFailed c.kind e, armed := false }
  | .getsockopt =>
    if s.answers answer then some { s.touch with pc := afterGetsockopt answer } else none
  | .done _ => none

/-- `tinfo` has been destroyed: the call has returned. -/
def Pc.finished : Pc → Bool
  | .done _ => true
  | _ => false

/-- The next step of the hooked `close(fd)`. -/
def advanceClose (s : State) : Option State :=
  match s.closer with
  | .idle => some { s with closer := .cancelAll }
  | .cancelAll =>
    -- nothing happens without a registered event, or when epoll_ctl fails
    some { (if s.registered ∧ s.epoll then s.trigger else s) with closer := .del }
  | .del => some { s with closer := .close_f }
  | .close_f =>
    some { s with closer := .returned s.pc.finished, file := none, epoll := false }
  | .returned _ => none

/-- One step of the system. -/
def step (c : Call) (s : State) : Label → Option State
  | .call answer => advance c s answer
  | .expire =>
    if s.armed then some { s with armed := false, expired := s.expired + 1 } else none
  | .callback =>
    if 0 < s.expired then
      -- `!t || t->cancelled`: the callback returns
      if s.pc.finished ∨ s.cancelled then some { s with expired := s.expired - 1 }
      else some { s with
        expired := s.expired - 1
        cancelled := true
        firing := s.firing + 1 }
    else none
  | .cancelEvent =>
    if 0 < s.firing then
      some { (if s.registered ∧ s.epoll then s.trigger else s) with
        firing := s.firing - 1 }
    else none
  | .ready => if s.registered ∧ s.epoll then some s.trigger else none
  | .resume =>
    if s.pc = .parked ∧ s.scheduled then
      some { s with pc := .cancelTimer, scheduled := false, late := s.cancelled }
    else none
  | .close => advanceClose s
  | .reuse file =>
    if s.file = none then some { s with file := some file, epoll := false } else none

variable {s t : State} {c : Call}

/-- Before `close` has returned, nothing is remembered. -/
theorem touch_of_not_returned (h : ∀ b, s.closer ≠ .returned b) : s.touch = s := by
  rw [State.touch]
  split
  · next b hb => exact absurd hb (h b)
  · rfl

/-! ## What one step can do -/

/-- The steps, with their guards. -/
inductive Moves (c : Call) (s : State) : Label → State → Prop
  | enter {a : Answer} (hpc : s.pc = .enter) :
      Moves c s (.call a) { s with pc := enter c }
  | plain {a : Answer} (hpc : s.pc = .plain) :
      Moves c s (.call a) { s.touch with pc := .done a }
  | retry {a : Answer} (hpc : s.pc = .retry) :
      Moves c s (.call a) { s.touch with pc := afterRetry c.kind a }
  | arm {a : Answer} (hpc : s.pc = .arm) :
      Moves c s (.call a) { s with pc := .addEvent, armed := c.timeout != -1 }
  | addEvent {n : Nat} (hpc : s.pc = .addEvent) (hfile : s.file.isSome = true)
      (hreg : s.registered = false) :
      Moves c s (.call (.value n))
        { s.touch with pc := .YieldToHold, registered := true, epoll := true }
  | addFails {e : Errno} (hpc : s.pc = .addEvent) :
      Moves c s (.call (.error e)) { s.touch with pc := .addFailed e }
  | YieldToHold {a : Answer} (hpc : s.pc = .YieldToHold) :
      Moves c s (.call a) { s with pc := .parked }
  | cancelTimer {a : Answer} (hpc : s.pc = .cancelTimer) :
      Moves c s (.call a) { s with pc := .look, armed := false }
  | timedOut {a : Answer} (hpc : s.pc = .look) (hc : s.cancelled = true) :
      Moves c s (.call a) { s with pc := .done (.error .ETIMEDOUT) }
  | goesOn {a : Answer} (hpc : s.pc = .look) (hc : s.cancelled = false) :
      Moves c s (.call a) { s with pc := afterWait c.kind }
  | addFailed {a : Answer} {e : Errno} (hpc : s.pc = .addFailed e) :
      Moves c s (.call a) { s with pc := afterFailed c.kind e, armed := false }
  | getsockopt {a : Answer} (hpc : s.pc = .getsockopt) :
      Moves c s (.call a) { s.touch with pc := afterGetsockopt a }
  | expire (harmed : s.armed = true) :
      Moves c s .expire { s with armed := false, expired := s.expired + 1 }
  | stale (hexp : 0 < s.expired) (hold : s.pc.finished = true ∨ s.cancelled = true) :
      Moves c s .callback { s with expired := s.expired - 1 }
  | fire (hexp : 0 < s.expired) (hpc : s.pc.finished = false)
      (hc : s.cancelled = false) :
      Moves c s .callback
        { s with expired := s.expired - 1, cancelled := true, firing := s.firing + 1 }
  | cancelEvent (hfire : 0 < s.firing) (hreg : s.registered = true)
      (hep : s.epoll = true) :
      Moves c s .cancelEvent { s.trigger with firing := s.firing - 1 }
  | nothingToCancel (hfire : 0 < s.firing)
      (hreg : s.registered = false ∨ s.epoll = false) :
      Moves c s .cancelEvent { s with firing := s.firing - 1 }
  | ready (hreg : s.registered = true) (hep : s.epoll = true) :
      Moves c s .ready s.trigger
  | resume (hpc : s.pc = .parked) (hsched : s.scheduled = true) :
      Moves c s .resume
        { s with pc := .cancelTimer, scheduled := false, late := s.cancelled }
  | close (hcl : s.closer = .idle) : Moves c s .close { s with closer := .cancelAll }
  | cancelAll (hcl : s.closer = .cancelAll) (hreg : s.registered = true)
      (hep : s.epoll = true) : Moves c s .close { s.trigger with closer := .del }
  | cancelNone (hcl : s.closer = .cancelAll)
      (hreg : s.registered = false ∨ s.epoll = false) :
      Moves c s .close { s with closer := .del }
  | del (hcl : s.closer = .del) : Moves c s .close { s with closer := .close_f }
  | close_f (hcl : s.closer = .close_f) :
      Moves c s .close
        { s with closer := .returned s.pc.finished, file := none, epoll := false }
  | reuse {file : Nat} (hfile : s.file = none) :
      Moves c s (.reuse file) { s with file := some file, epoll := false }

private theorem not_both {p q : Bool} (h : ¬ (p = true ∧ q = true)) : p = false ∨ q = false := by
  cases p <;> cases q <;> simp_all

theorem advance_moves {a : Answer} (h : advance c s a = some t) : Moves c s (.call a) t := by
  unfold advance at h
  split at h
  · next hpc => cases h; exact .enter hpc
  · next hpc =>
    split at h
    · cases h; exact .plain hpc
    · cases h
  · next hpc =>
    split at h
    · cases h; exact .retry hpc
    · cases h
  · next hpc => cases h; exact .arm hpc
  · next hpc =>
    split at h
    · next ha =>
      split at h
      · next n =>
        split at h
        · cases h
        · next hreg =>
          cases h
          refine .addEvent hpc ?_ (Bool.eq_false_iff.mpr hreg)
          rw [State.answers, Bool.or_eq_true] at ha
          exact ha.resolve_right (by simp)
      · cases h; exact .addFails hpc
    · cases h
  · next hpc => cases h; exact .YieldToHold hpc
  · cases h
  · next hpc => cases h; exact .cancelTimer hpc
  · next hpc =>
    cases h
    split
    · next hc => exact .timedOut hpc hc
    · next hc => exact .goesOn hpc (Bool.eq_false_iff.mpr hc)
  · next hpc => cases h; exact .addFailed hpc
  · next hpc =>
    split at h
    · cases h; exact .getsockopt hpc
    · cases h
  · cases h

theorem advanceClose_moves (h : advanceClose s = some t) : Moves c s .close t := by
  unfold advanceClose at h
  split at h
  · next hcl => cases h; exact .close hcl
  · next hcl =>
    cases h
    split
    · next hboth => exact .cancelAll hcl hboth.1 hboth.2
    · next hboth => exact .cancelNone hcl (not_both hboth)
  · next hcl => cases h; exact .del hcl
  · next hcl => cases h; exact .close_f hcl
  · cases h

/-- **What a party does is one of the moves.** -/
theorem step_moves {l : Label} (h : step c s l = some t) : Moves c s l t := by
  cases l with
  | call a => exact advance_moves h
  | expire =>
    rw [step] at h
    split at h
    · next harmed => cases h; exact .expire harmed
    · cases h
  | callback =>
    rw [step] at h
    split at h
    · next hexp =>
      split at h
      · next hold => cases h; exact .stale hexp hold
      · next hold =>
        cases h
        obtain ⟨hpc, hc⟩ := not_or.mp hold
        exact .fire hexp (Bool.eq_false_iff.mpr hpc) (Bool.eq_false_iff.mpr hc)
    · cases h
  | cancelEvent =>
    rw [step] at h
    split at h
    · next hfire =>
      cases h
      split
      · next hboth => exact .cancelEvent hfire hboth.1 hboth.2
      · next hboth => exact .nothingToCancel hfire (not_both hboth)
    · cases h
  | ready =>
    rw [step] at h
    split at h
    · next hboth => cases h; exact .ready hboth.1 hboth.2
    · cases h
  | resume =>
    rw [step] at h
    split at h
    · next hboth => cases h; exact .resume hboth.1 hboth.2
    · cases h
  | close => exact advanceClose_moves h
  | reuse file =>
    rw [step] at h
    split at h
    · next hfile => cases h; exact .reuse hfile
    · cases h

end SylarHookIo
