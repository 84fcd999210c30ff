import Mathlib.Algebra.GroupWithZero.Nat
import Sylar.SchedulerProofs

/-! # Event registrations of an `IOManager` (`iomanager.cc`)

`addEvent`, `delEvent`, `cancelEvent`, `cancelAll` and the handling of one
entry of an `epoll_wait` batch keep four things in step: the counter
`m_pendingEventCount`, the mask of each `FdContext`, its two
`EventContext`s, and the interest the kernel has recorded.  Each is one
step here; `epoll_ctl` applies the request or fails without effect, as the
environment decides.

* **`bookkeeping`** — the four agree in every reachable state, and no assertion fails.
* **`trigger_registered_iff`** — with entries of a batch handled later, the
  assertion of `triggerEvent` holds EXACTLY when no entry is half stale. -/

namespace SylarIoEvent

open StepSystem SylarScheduler List

/-- `IOManager::Event`. -/
inductive Event where
  | NONE | READ | WRITE
  deriving DecidableEq, Repr

/-- A set of events: `FdContext::events`, or an interest of the kernel. -/
structure Mask where
  read : Bool
  write : Bool
  deriving DecidableEq, Repr

namespace Mask

def zero : Mask := ⟨false, false⟩

def has (m : Mask) : Event → Bool
  | .NONE => false
  | .READ => m.read
  | .WRITE => m.write

/-- `m | event`. -/
def add (m : Mask) : Event → Mask
  | .NONE => m
  | .READ => { m with read := true }
  | .WRITE => { m with write := true }

/-- `m & ~event`. -/
def remove (m : Mask) : Event → Mask
  | .NONE => m
  | .READ => { m with read := false }
  | .WRITE => { m with write := false }

/-- `m | k`. -/
def union (m k : Mask) : Mask := ⟨m.read || k.read, m.write || k.write⟩

/-- `m & k`. -/
def inter (m k : Mask) : Mask := ⟨m.read && k.read, m.write && k.write⟩

/-- `m & ~k`. -/
def diff (m k : Mask) : Mask := ⟨m.read && !k.read, m.write && !k.write⟩

/-- The number of bits set. -/
def bits (m : Mask) : Nat := m.read.toNat + m.write.toNat

end Mask

/-- `FdContext::EventContext`; `none` is a null pointer or an empty function. -/
structure EventContext where
  scheduler : Option Nat
  fiber : Option Nat
  cb : Option Nat
  deriving DecidableEq, Repr

/-- A context that holds nothing. -/
def EventContext.empty : EventContext := ⟨none, none, none⟩

/-- `FdContext`. -/
structure FdContext where
  fd : Nat
  read : EventContext
  write : EventContext
  events : Mask
  deriving DecidableEq, Repr

/-- A task handed to a scheduler by `triggerEvent`. -/
structure Scheduled where
  scheduler : Nat
  task : Task
  deriving DecidableEq, Repr

/-- The registrations, the interest of the kernel in each descriptor, and what was handed to
schedulers, in order. -/
structure IOManager where
  m_fdContexts : List FdContext
  m_pendingEventCount : Int
  interest : Nat → Option Mask
  scheduled : List Scheduled

/-- The assertions of these functions. -/
inductive Assertion where
  | getContext
  | triggerEvent
  | addEvent
  | emptyContext
  | fiberExec
  | cancelAll
  deriving DecidableEq, Repr

/-- A failed assertion, a call through a null scheduler, an index outside the
table. -/
inductive Fault where
  | assertion (a : Assertion)
  | nullScheduler
  | outOfRange
  deriving DecidableEq, Repr

/-- The caller of `addEvent`: `Scheduler::GetThis()`, and `Fiber::GetThis()` with its state. -/
structure Caller where
  scheduler : Option Nat
  fiber : Nat
  state : FiberState

/-! ## `FdContext` -/

/-- `FdContext::getContext`. -/
def FdContext.getContext (fd_ctx : FdContext) : Event → Except Fault EventContext
  | .READ => .ok fd_ctx.read
  | .WRITE => .ok fd_ctx.write
  | .NONE => .error (.assertion .getContext)

/-- Write through the reference that `getContext` returns. -/
def FdContext.putContext (fd_ctx : FdContext) : Event → EventContext → FdContext
  | .READ, ctx => { fd_ctx with read := ctx }
  | .WRITE, ctx => { fd_ctx with write := ctx }
  | .NONE, _ => fd_ctx

/-- `triggerEvent`: the context after it, and what it schedules.  A null fiber
is not queued. -/
def FdContext.triggerEvent (fd_ctx : FdContext) (event : Event) :
    Except Fault (FdContext × List Scheduled) :=
  if fd_ctx.events.has event then do
    let fd_ctx := { fd_ctx with events := fd_ctx.events.remove event }
    let ctx ← fd_ctx.getContext event
    match ctx.scheduler with
    | none => .error .nullScheduler
    | some scheduler =>
        match ctx.cb with
        | some cb =>
            let ctx := { ctx with scheduler := none, cb := none }
            .ok (fd_ctx.putContext event ctx, [⟨scheduler, .cb cb⟩])
        | none =>
            let tasks := ctx.fiber.toList.map fun f => ⟨scheduler, .fiber f⟩
            let ctx := { ctx with scheduler := none, fiber := none }
            .ok (fd_ctx.putContext event ctx, tasks)
  else .error (.assertion .triggerEvent)

/-! ## The kernel -/

inductive Ctl where
  | ADD | MOD | DEL
  deriving DecidableEq, Repr

/-- `epoll_ctl(m_epfd, op, fd, &event)`: the interests after it, or a failure. The kernel refuses to
add a descriptor it has and to change or delete one it has not; otherwise `ok` says whether it
accepts. -/
def epoll_ctl (ok : Bool) (op : Ctl) (fd : Nat) (events : Mask)
    (interest : Nat → Option Mask) : Option (Nat → Option Mask) :=
  match ok, op, interest fd with
  | true, .ADD, none => some (Function.update interest fd (some events))
  | true, .MOD, some _ => some (Function.update interest fd (some events))
  | true, .DEL, some _ => some (Function.update interest fd none)
  | _, _, _ => none

/-! ## `IOManager` -/

namespace IOManager

/-- A new `FdContext`. -/
def newContext (fd : Nat) : FdContext := ⟨fd, .empty, .empty, .zero⟩

/-- `contextResize(size)`. -/
def contextResize (s : IOManager) (size : Nat) : IOManager :=
  { s with
    m_fdContexts := s.m_fdContexts.take size
      ++ (List.range' s.m_fdContexts.length
        (size - s.m_fdContexts.length)).map newContext }

/-- Store a context and move the counter. -/
def store (s : IOManager) (fd : Nat) (fd_ctx : FdContext) (pending : Int) :
    IOManager :=
  { s with
    m_fdContexts := s.m_fdContexts.set fd fd_ctx
    m_pendingEventCount := s.m_pendingEventCount + pending }

/-- `fd_ctx->triggerEvent(event); --m_pendingEventCount;` -/
def trigger (s : IOManager) (fd : Nat) (event : Event) : Except Fault IOManager :=
  match s.m_fdContexts[fd]? with
  | none => .error .outOfRange
  | some fd_ctx => do
    let (fd_ctx, tasks) ← fd_ctx.triggerEvent event
    .ok { s.store fd fd_ctx (-1) with scheduled := s.scheduled ++ tasks }

/-- What `addEvent` puts into the context of the new event. -/
def fill (caller : Caller) (cb : Option Nat) : Except Fault EventContext :=
  match cb with
  | some cb => .ok ⟨caller.scheduler, none, some cb⟩
  | none =>
    if caller.state = .EXEC then .ok ⟨caller.scheduler, some caller.fiber, none⟩
    else .error (.assertion .fiberExec)

/-- `addEvent`.  Where `fd * 3 / 2 < 2^31`, `(int)m_fdContexts.size()` is the size. -/
def addEvent (s : IOManager) (caller : Caller) (ok : Bool) (fd : Nat)
    (event : Event) (cb : Option Nat) : Except Fault (Int × IOManager) :=
  let s := if fd < s.m_fdContexts.length then s
    else s.contextResize (fd * 3 / 2)
  match s.m_fdContexts[fd]? with
  | none => .error .outOfRange
  | some fd_ctx =>
    if fd_ctx.events.has event then .error (.assertion .addEvent)
    else
      let op := if fd_ctx.events = .zero then .ADD else .MOD
      match epoll_ctl ok op fd (fd_ctx.events.add event) s.interest with
      | none => .ok (-1, s)
      | some interest => do
          let fd_ctx := { fd_ctx with events := fd_ctx.events.add event }
          let event_ctx ← fd_ctx.getContext event
          if event_ctx = .empty then
            let event_ctx ← fill caller cb
            .ok (0, { s.store fd (fd_ctx.putContext event event_ctx) 1 with
              interest := interest })
          else .error (.assertion .emptyContext)

/-- `delEvent` and `cancelEvent` up to the successful `epoll_ctl`, or `none` where they return
`false`. -/
def unwatch (s : IOManager) (ok : Bool) (fd : Nat) (event : Event) :
    Option (FdContext × (Nat → Option Mask)) :=
  match s.m_fdContexts[fd]? with
  | none => none
  | some fd_ctx =>
    if fd_ctx.events.has event then
      let new_events := fd_ctx.events.remove event
      let op := if new_events = .zero then .DEL else .MOD
      (epoll_ctl ok op fd new_events s.interest).map fun interest =>
        (fd_ctx, interest)
    else none

/-- `IOManager::delEvent`. -/
def delEvent (s : IOManager) (ok : Bool) (fd : Nat) (event : Event) :
    Except Fault (Bool × IOManager) :=
  match s.unwatch ok fd event with
  | none => .ok (false, s)
  | some (fd_ctx, interest) => do
    let fd_ctx := { fd_ctx with events := fd_ctx.events.remove event }
    let _ ← fd_ctx.getContext event
    .ok (true, { s.store fd (fd_ctx.putContext event .empty) (-1) with
      interest := interest })

/-- `IOManager::cancelEvent`. -/
def cancelEvent (s : IOManager) (ok : Bool) (fd : Nat) (event : Event) :
    Except Fault (Bool × IOManager) :=
  match s.unwatch ok fd event with
  | none => .ok (false, s)
  | some (_, interest) => do
    let s ← { s with interest := interest }.trigger fd event
    .ok (true, s)

def triggerIf (s : IOManager) (fd : Nat) (event : Event) (set : Bool) :
    Except Fault IOManager :=
  if set then s.trigger fd event else .ok s

/-- `triggerEvent` and the decrement, for each event of the mask. -/
def triggerAll (s : IOManager) (fd : Nat) (events : Mask) :
    Except Fault IOManager := do
  let s ← s.triggerIf fd .READ events.read
  s.triggerIf fd .WRITE events.write

/-- `IOManager::cancelAll`. -/
def cancelAll (s : IOManager) (ok : Bool) (fd : Nat) :
    Except Fault (Bool × IOManager) :=
  match s.m_fdContexts[fd]? with
  | none => .ok (false, s)
  | some fd_ctx =>
    if fd_ctx.events = .zero then .ok (false, s)
    else
      match epoll_ctl ok .DEL fd .zero s.interest with
      | none => .ok (false, s)
      | some interest => do
          let s ← { s with interest := interest }.triggerAll fd fd_ctx.events
          if (s.m_fdContexts[fd]?).all (·.events = .zero) then .ok (true, s)
          else .error (.assertion .cancelAll)

/-- An entry from `epoll_wait`: `EPOLLIN` and `EPOLLOUT`, and whether `EPOLLERR` or `EPOLLHUP` is
set. -/
structure Reported where
  fd : Nat
  events : Mask
  error : Bool
  deriving DecidableEq, Repr

/-- `real_events`: with an error, whatever is registered is ready too. -/
def Reported.real (event : Reported) (fd_ctx : FdContext) : Mask :=
  if event.error then event.events.union fd_ctx.events else event.events

/-- The body of the loop of `idle` over the batch. -/
def handle (s : IOManager) (ok : Bool) (event : Reported) : Except Fault IOManager :=
  match s.m_fdContexts[event.fd]? with
  | none => .error .outOfRange
  | some fd_ctx =>
    let real_events := event.real fd_ctx
    if fd_ctx.events.inter real_events = .zero then .ok s
    else
      let left_events := fd_ctx.events.diff real_events
      let op := if left_events = .zero then .DEL else .MOD
      match epoll_ctl ok op fd_ctx.fd left_events s.interest with
      | none => .ok s
      | some interest =>
          { s with interest := interest }.triggerAll event.fd real_events

/-- The constructor: `contextResize(32)`. -/
def init : IOManager := contextResize ⟨[], 0, fun _ => none, []⟩ 32

end IOManager

open IOManager

/-- The calls that other threads make; `ok` is the answer of `epoll_ctl`. -/
inductive Call where
  | addEvent (caller : Caller) (ok : Bool) (fd : Nat) (event : Event)
      (cb : Option Nat)
  | delEvent (ok : Bool) (fd : Nat) (event : Event)
  | cancelEvent (ok : Bool) (fd : Nat) (event : Event)
  | cancelAll (ok : Bool) (fd : Nat)

def Call.run (s : IOManager) : Call → Except Fault IOManager
  | .addEvent caller ok fd event cb => (s.addEvent caller ok fd event cb).map Prod.snd
  | .delEvent ok fd event => (s.delEvent ok fd event).map Prod.snd
  | .cancelEvent ok fd event => (s.cancelEvent ok fd event).map Prod.snd
  | .cancelAll ok fd => (s.cancelAll ok fd).map Prod.snd

/-! ## The invariant -/

/-- A scheduler and one of fiber and callback if the event is registered, nothing otherwise. -/
def EventContext.Fits (ctx : EventContext) (registered : Bool) : Prop :=
  if registered then ctx.scheduler.isSome ∧ (ctx.fiber.isSome ↔ ctx.cb.isNone)
  else ctx = .empty

/-- Each context fits the mask. -/
structure FdContext.WellFormed (fd_ctx : FdContext) : Prop where
  read : fd_ctx.read.Fits fd_ctx.events.read
  write : fd_ctx.write.Fits fd_ctx.events.write

/-- The bits set in all masks. -/
def IOManager.registered (s : IOManager) : Nat :=
  (s.m_fdContexts.map fun fd_ctx => fd_ctx.events.bits).sum

/-- The interest a mask stands for: absent when it is 0. -/
def Mask.interest (m : Mask) : Option Mask :=
  if m = .zero then none else some m

private theorem interest_zero : Mask.zero.interest = none := rfl

variable {m : Mask} {t : IOManager} {ctx : EventContext}

private theorem interest_of_ne (h : m ≠ .zero) : m.interest = some m := if_neg h

/-- Contexts know their index and fit their masks, and the counter counts the
bits. -/
structure Counted (s : IOManager) : Prop where
  fd : ∀ (i : Nat) (fd_ctx : FdContext), s.m_fdContexts[i]? = some fd_ctx →
    fd_ctx.fd = i
  contexts : ∀ fd_ctx ∈ s.m_fdContexts, fd_ctx.WellFormed
  pending : s.m_pendingEventCount = s.registered

/-- The kernel watches a descriptor for the events of its mask. -/
def Watched (s : IOManager) : Prop :=
  ∀ fd, s.interest fd
    = (s.m_fdContexts[fd]?).bind fun fd_ctx => fd_ctx.events.interest

/-- Counter, masks, contexts and kernel agree. -/
structure Consistent (s : IOManager) : Prop extends Counted s where
  watched : Watched s
  size : 32 ≤ s.m_fdContexts.length

/-! ## Growing the table -/

/-- `n` new contexts at the end of the table. -/
def IOManager.extend (s : IOManager) (n : Nat) : IOManager :=
  { s with
    m_fdContexts := s.m_fdContexts
      ++ (List.range' s.m_fdContexts.length n).map newContext }

theorem contextResize_eq_extend {s : IOManager} {size : Nat} (h : s.m_fdContexts.length ≤ size) :
    s.contextResize size = s.extend (size - s.m_fdContexts.length) := by
  rw [contextResize, extend, take_of_length_le h]

theorem extend_zero (s : IOManager) : s.extend 0 = s := by
  rw [extend, range'_zero, map_nil, append_nil]

theorem length_extend (s : IOManager) (n : Nat) :
    (s.extend n).m_fdContexts.length = s.m_fdContexts.length + n := by
  rw [extend, length_append, length_map, length_range']

/-- A context of the grown table is an old one or a new, empty one. -/
theorem getElem?_extend {s : IOManager} {n i : Nat} {fd_ctx : FdContext}
    (h : (s.extend n).m_fdContexts[i]? = some fd_ctx) :
    s.m_fdContexts[i]? = some fd_ctx ∨ (s.m_fdContexts[i]? = none ∧ fd_ctx = newContext i) := by
  rw [extend, getElem?_append] at h
  split at h
  · exact Or.inl h
  · next hlen =>
    obtain ⟨j, hj, rfl⟩ := Option.map_eq_some_iff.mp ((getElem?_map ..).symm.trans h)
    refine Or.inr ⟨getElem?_eq_none_iff.mpr (Nat.not_lt.mp hlen), ?_⟩
    obtain ⟨hlt, rfl⟩ := List.getElem?_eq_some_iff.mp hj
    rw [getElem_range']
    congr 1
    omega

theorem registered_extend (s : IOManager) (n : Nat) : (s.extend n).registered = s.registered := by
  have hzero : ∀ fds : List Nat,
      ((fds.map newContext).map fun fd_ctx => fd_ctx.events.bits).sum = 0 := by
    intro fds
    induction fds with
    | nil => rfl
    | cons fd fds ih =>
      rw [map_cons, map_cons, sum_cons, ih]
      rfl
  rw [registered, extend, map_append, sum_append, hzero, Nat.add_zero]
  rfl

theorem Counted.extend {s : IOManager} (hs : Counted s) (n : Nat) : Counted (s.extend n) where
  fd := by
    intro i fd_ctx h
    rcases getElem?_extend h with h | ⟨-, rfl⟩
    · exact hs.fd i fd_ctx h
    · rfl
  contexts := by
    intro fd_ctx hmem
    obtain ⟨i, h⟩ := getElem?_of_mem hmem
    rcases getElem?_extend h with h | ⟨-, rfl⟩
    · exact hs.contexts fd_ctx (mem_of_getElem? h)
    · exact ⟨rfl, rfl⟩
  pending := by
    rw [registered_extend]
    exact hs.pending

theorem Watched.extend {s : IOManager} (hs : Watched s) (n : Nat) : Watched (s.extend n) := by
  intro fd
  show s.interest fd = _
  rw [hs fd]
  cases h : (s.extend n).m_fdContexts[fd]? with
  | none =>
    have hnone : s.m_fdContexts[fd]? = none := by
      rw [getElem?_eq_none_iff] at h ⊢
      rw [length_extend] at h
      exact Nat.le_trans (Nat.le_add_right _ _) h
    rw [hnone]
  | some fd_ctx =>
    rcases getElem?_extend h with hold | ⟨hnone, rfl⟩
    · rw [hold]
    · rw [hnone]
      exact interest_zero.symm

theorem Consistent.extend {s : IOManager} (hs : Consistent s) (n : Nat) :
    Consistent (s.extend n) where
  toCounted := hs.toCounted.extend n
  watched := hs.watched.extend n
  size := by
    rw [length_extend]
    exact Nat.le_trans hs.size (Nat.le_add_right _ _)

theorem init_consistent : Consistent IOManager.init where
  toCounted := by
    rw [IOManager.init, contextResize_eq_extend (Nat.zero_le 32)]
    refine Counted.extend ⟨fun i fd_ctx h => ?_, fun fd_ctx h => ?_, rfl⟩ _
    · rw [getElem?_nil] at h
      exact nomatch h
    · exact absurd h not_mem_nil
  watched := by
    rw [IOManager.init, contextResize_eq_extend (Nat.zero_le 32)]
    exact Watched.extend (fun _ => rfl) _
  size := Nat.le_of_eq rfl

/-! ## Changing one context -/

/-- Storing a context that fits its mask, with the counter moved by the
difference of the bits. -/
theorem Counted.store {s : IOManager} {fd : Nat} {fd_ctx fd_ctx' : FdContext}
    {pending : Int} (hs : Counted s) (hfd : s.m_fdContexts[fd]? = some fd_ctx)
    (hsame : fd_ctx'.fd = fd_ctx.fd) (hwf : fd_ctx'.WellFormed)
    (hbits : (fd_ctx'.events.bits : Int) = fd_ctx.events.bits + pending) :
    Counted (s.store fd fd_ctx' pending) where
  fd := by
    intro i x h
    obtain ⟨rfl, rfl⟩ | ⟨-, hold⟩ := getElem?_moved h
    · exact hsame.trans (hs.fd _ _ hfd)
    · exact hs.fd i x hold
  contexts := forall_moved hs.contexts hwf
  pending := by
    have hsum := sum_moved (f := fun c : FdContext => c.events.bits) (b := fd_ctx') hfd
    have hp := hs.pending
    simp only [IOManager.registered, IOManager.store] at hp ⊢
    omega

variable {fd_ctx' : FdContext} {caller : Caller}

/-- The kernel follows when it is told the mask of the stored context. -/
theorem Watched.store {s : IOManager} {fd : Nat} {fd_ctx : FdContext} (hs : Watched s)
    (hfd : s.m_fdContexts[fd]? = some fd_ctx)
    (htable : t.m_fdContexts = s.m_fdContexts.set fd fd_ctx')
    (hinterest : t.interest = Function.update s.interest fd fd_ctx'.events.interest) :
    Watched t := by
  obtain ⟨hlt, -⟩ := List.getElem?_eq_some_iff.mp hfd
  intro i
  rw [htable, hinterest]
  by_cases hi : i = fd
  · subst hi
    rw [Function.update_self, List.getElem?_set_self hlt]
    rfl
  · rw [Function.update_of_ne hi, getElem?_set_ne (Ne.symm hi)]
    exact hs i

@[simp] theorem putContext_fd {fd_ctx : FdContext} {event : Event} :
    (fd_ctx.putContext event ctx).fd = fd_ctx.fd := by
  cases event <;> rfl

@[simp] theorem putContext_events {fd_ctx : FdContext} {event : Event} :
    (fd_ctx.putContext event ctx).events = fd_ctx.events := by
  cases event <;> rfl

/-- The context after its event was cleared. -/
def FdContext.clear (fd_ctx : FdContext) (event : Event) : FdContext :=
  { fd_ctx with events := fd_ctx.events.remove event }.putContext event .empty

def FdContext.clearIf (fd_ctx : FdContext) (event : Event) (set : Bool) : FdContext :=
  if set then fd_ctx.clear event else fd_ctx

/-- The context after the events of a mask were cleared. -/
def FdContext.clearAll (fd_ctx : FdContext) (m : Mask) : FdContext :=
  (fd_ctx.clearIf .READ m.read).clearIf .WRITE m.write

section Clear

variable {fd_ctx : FdContext} {event : Event}

@[simp] theorem clear_fd : (fd_ctx.clear event).fd = fd_ctx.fd := putContext_fd

@[simp] theorem clear_events : (fd_ctx.clear event).events = fd_ctx.events.remove event :=
  putContext_events

theorem FdContext.WellFormed.clear (h : fd_ctx.WellFormed) : (fd_ctx.clear event).WellFormed := by
  cases event with
  | NONE => exact h
  | READ => exact ⟨rfl, h.write⟩
  | WRITE => exact ⟨h.read, rfl⟩

theorem bits_remove (h : m.has event = true) : ((m.remove event).bits : Int) = m.bits + -1 := by
  obtain ⟨read, write⟩ := m
  cases event <;> cases read <;> cases write <;> first | rfl | exact nomatch h

@[simp] theorem clearAll_events : (fd_ctx.clearAll m).events = fd_ctx.events.diff m := by
  obtain ⟨read, write⟩ := m
  cases read <;> cases write <;>
    simp [FdContext.clearAll, FdContext.clearIf, Mask.diff, Mask.remove]

/-- A filled context has a scheduler and holds a callback or a fiber. -/
theorem fits_true (h : ctx.Fits true) :
    ∃ scheduler, ctx = ⟨some scheduler, none, ctx.cb⟩ ∧ ctx.cb.isSome
      ∨ ctx = ⟨some scheduler, ctx.fiber, none⟩ ∧ ctx.fiber.isSome := by
  obtain ⟨scheduler, fiber, cb⟩ := ctx
  obtain ⟨hsched, hone⟩ := h
  obtain ⟨scheduler, rfl⟩ := Option.isSome_iff_exists.mp hsched
  refine ⟨scheduler, ?_⟩
  cases cb with
  | some cb =>
    cases fiber with
    | none => exact Or.inl ⟨rfl, rfl⟩
    | some f => exact nomatch hone.mp rfl
  | none => exact Or.inr ⟨rfl, hone.mpr rfl⟩

/-- The context of an event fits its bit. -/
theorem FdContext.WellFormed.fits (h : fd_ctx.WellFormed) (hbit : event ≠ .NONE) (m : Mask) :
    ∃ ctx, ({ fd_ctx with events := m } : FdContext).getContext event = .ok ctx
      ∧ ctx.Fits (fd_ctx.events.has event) := by
  cases event with
  | NONE => exact absurd rfl hbit
  | READ => exact ⟨_, rfl, h.read⟩
  | WRITE => exact ⟨_, rfl, h.write⟩

/-- `triggerEvent` on a registered event clears it and schedules what the
context held. -/
theorem triggerEvent_spec (h : fd_ctx.WellFormed) (hev : fd_ctx.events.has event = true) :
    ∃ task, fd_ctx.triggerEvent event = .ok (fd_ctx.clear event, [task]) := by
  have hbit : event ≠ .NONE := by
    rintro rfl
    exact nomatch hev
  obtain ⟨ctx, hget, hfits⟩ := h.fits hbit (fd_ctx.events.remove event)
  rw [hev] at hfits
  rw [FdContext.triggerEvent, if_pos hev]
  dsimp only
  rw [hget]
  obtain ⟨scheduler, ⟨hctx, hsome⟩ | ⟨hctx, hsome⟩⟩ := fits_true hfits
  · obtain ⟨cb, hcb⟩ := Option.isSome_iff_exists.mp hsome
    rw [hctx, hcb]
    exact ⟨_, rfl⟩
  · obtain ⟨fiber, hfiber⟩ := Option.isSome_iff_exists.mp hsome
    rw [hctx, hfiber]
    exact ⟨_, rfl⟩

end Clear

section Trigger

variable {s : IOManager} {fd : Nat} {fd_ctx : FdContext} {event : Event}

theorem Counted.clear (hs : Counted s) (hfd : s.m_fdContexts[fd]? = some fd_ctx)
    (hev : fd_ctx.events.has event = true) :
    Counted (s.store fd (fd_ctx.clear event) (-1)) := by
  refine hs.store hfd clear_fd (hs.contexts fd_ctx (mem_of_getElem? hfd)).clear ?_
  rw [clear_events]
  exact bits_remove hev

/-- `triggerEvent` with its decrement keeps contexts and counter in step. -/
theorem trigger_spec (hs : Counted s) (hfd : s.m_fdContexts[fd]? = some fd_ctx)
    (hev : fd_ctx.events.has event = true) :
    ∃ t, s.trigger fd event = .ok t ∧ Counted t
      ∧ t.m_fdContexts = s.m_fdContexts.set fd (fd_ctx.clear event)
      ∧ t.interest = s.interest := by
  obtain ⟨task, htask⟩ := triggerEvent_spec (hs.contexts fd_ctx (mem_of_getElem? hfd)) hev
  have hcounted := hs.clear hfd hev
  refine ⟨{ s.store fd (fd_ctx.clear event) (-1) with
    scheduled := s.scheduled ++ [task] }, ?_, ?_, rfl, rfl⟩
  · rw [trigger, hfd]
    dsimp only
    rw [htask]
    rfl
  · exact ⟨hcounted.fd, hcounted.contexts, hcounted.pending⟩

/-- On an event that is not registered the assertion fails. -/
theorem trigger_stale (hfd : s.m_fdContexts[fd]? = some fd_ctx)
    (hev : fd_ctx.events.has event = false) :
    s.trigger fd event = .error (.assertion .triggerEvent) := by
  rw [trigger, hfd]
  dsimp only
  rw [FdContext.triggerEvent, hev]
  rfl

theorem triggerIf_spec {set : Bool} (hs : Counted s) (hfd : s.m_fdContexts[fd]? = some fd_ctx)
    (hev : set = true → fd_ctx.events.has event = true) :
    ∃ t, s.triggerIf fd event set = .ok t ∧ Counted t
      ∧ t.m_fdContexts = s.m_fdContexts.set fd (fd_ctx.clearIf event set)
      ∧ t.interest = s.interest := by
  cases set with
  | true => exact trigger_spec hs hfd (hev rfl)
  | false =>
    obtain ⟨hlt, rfl⟩ := List.getElem?_eq_some_iff.mp hfd
    exact ⟨s, rfl, hs, (set_getElem_self hlt).symm, rfl⟩

/-- Triggering registered events clears them all. -/
theorem triggerAll_spec (hs : Counted s) (hfd : s.m_fdContexts[fd]? = some fd_ctx)
    (hread : m.read = true → fd_ctx.events.read = true)
    (hwrite : m.write = true → fd_ctx.events.write = true) :
    ∃ t, s.triggerAll fd m = .ok t ∧ Counted t
      ∧ t.m_fdContexts = s.m_fdContexts.set fd (fd_ctx.clearAll m)
      ∧ t.interest = s.interest := by
  obtain ⟨hlt, -⟩ := List.getElem?_eq_some_iff.mp hfd
  have hread : m.read = true → fd_ctx.events.has .READ = true := hread
  obtain ⟨u, hu, hcu, htu, hiu⟩ := triggerIf_spec hs hfd hread
  have hfdu : u.m_fdContexts[fd]? = some (fd_ctx.clearIf .READ m.read) := by
    rw [htu, List.getElem?_set_self hlt]
  have hev : m.write = true → (fd_ctx.clearIf .READ m.read).events.has .WRITE = true := by
    intro hm
    cases m.read <;> exact hwrite hm
  obtain ⟨t, ht, hct, htt, hit⟩ := triggerIf_spec hcu hfdu hev
  refine ⟨t, ?_, hct, ?_, hit.trans hiu⟩
  · rw [triggerAll, hu]
    exact ht
  · rw [htt, htu, set_set]
    rfl

/-- Triggering both events when only one is registered fails. -/
theorem triggerAll_stale (hs : Counted s) (hfd : s.m_fdContexts[fd]? = some fd_ctx)
    (hleft : fd_ctx.events = ⟨false, true⟩ ∨ fd_ctx.events = ⟨true, false⟩) :
    s.triggerAll fd ⟨true, true⟩ = .error (.assertion .triggerEvent) := by
  rw [triggerAll, triggerIf, if_pos rfl]
  rcases hleft with hleft | hleft
  · rw [trigger_stale hfd]
    · rfl
    · rw [hleft]
      rfl
  · -- `READ` is triggered, and the context left has no `WRITE`
    have hread : fd_ctx.events.has .READ = true := by
      rw [hleft]
      rfl
    obtain ⟨u, hu, -, htu, -⟩ := trigger_spec hs hfd hread
    have hfdu : u.m_fdContexts[fd]? = some (fd_ctx.clear .READ) := by
      rw [htu]
      exact List.getElem?_set_self (List.getElem?_eq_some_iff.mp hfd).1
    have hwrite : (fd_ctx.clear .READ).events.has .WRITE = false := by
      rw [clear_events, hleft]
      rfl
    rw [hu]
    exact trigger_stale hfdu hwrite

end Trigger

/-! ## `epoll_ctl` as these functions call it -/

section Ctl

variable {s : IOManager} {fd : Nat} {fd_ctx : FdContext}

private theorem epoll_ctl_refused (op : Ctl) (fd : Nat) (m : Mask)
    (interest : Nat → Option Mask) : epoll_ctl false op fd m interest = none := by
  simp only [epoll_ctl]

private theorem interest_at (hs : Watched s) (hfd : s.m_fdContexts[fd]? = some fd_ctx) :
    s.interest fd = fd_ctx.events.interest := by
  rw [hs fd, hfd]
  rfl

/-- Narrowing or dropping the interest in a descriptor with events. -/
theorem epoll_ctl_narrow (hs : Watched s) (hfd : s.m_fdContexts[fd]? = some fd_ctx)
    (hne : fd_ctx.events ≠ .zero) :
    epoll_ctl true (if m = .zero then .DEL else .MOD) fd m s.interest
      = some (Function.update s.interest fd m.interest) := by
  have hat := interest_at hs hfd
  rw [interest_of_ne hne] at hat
  by_cases hm : m = .zero
  · rw [if_pos hm, hm, interest_zero]
    simp only [epoll_ctl, hat]
  · rw [if_neg hm, interest_of_ne hm]
    simp only [epoll_ctl, hat]

/-- Adding to the interest in a descriptor. -/
theorem epoll_ctl_widen (hs : Watched s) (hfd : s.m_fdContexts[fd]? = some fd_ctx) (hne : m ≠ .zero)
    :
    epoll_ctl true (if fd_ctx.events = .zero then .ADD else .MOD) fd m s.interest
      = some (Function.update s.interest fd m.interest) := by
  have hat := interest_at hs hfd
  rw [interest_of_ne hne]
  by_cases hm : fd_ctx.events = .zero
  · rw [hm, interest_zero] at hat
    rw [if_pos hm]
    simp only [epoll_ctl, hat]
  · rw [interest_of_ne hm] at hat
    rw [if_neg hm]
    simp only [epoll_ctl, hat]

end Ctl

/-! ## The operations -/

section Operations

variable {s : IOManager} {fd : Nat} {fd_ctx : FdContext} {event : Event}

/-- After an operation: the state agrees, and the table is not shorter. -/
structure Kept (s t : IOManager) : Prop where
  consistent : Consistent t
  size : s.m_fdContexts.length ≤ t.m_fdContexts.length

theorem Kept.trans {u : IOManager} (h₁ : Kept s t) (h₂ : Kept t u) : Kept s u :=
  ⟨h₂.consistent, Nat.le_trans h₁.size h₂.size⟩

theorem Consistent.kept (hs : Consistent s) : Kept s s := ⟨hs, Nat.le_refl _⟩

/-- An operation that succeeds, and does nothing if the kernel refuses. -/
def Served (s : IOManager) (ok : Bool) (x : Except Fault IOManager) : Prop :=
  ∃ t, x = .ok t ∧ Kept s t ∧ (ok = false → t = s)

theorem Consistent.served (hs : Consistent s) (ok : Bool) : Served s ok (.ok s) :=
  ⟨s, rfl, hs.kept, fun _ => rfl⟩

/-- A counted state in which one context was replaced and the kernel told. -/
theorem Consistent.replaced (hs : Consistent s) (hfd : s.m_fdContexts[fd]? = some fd_ctx)
    (ht : Counted t) (htable : t.m_fdContexts = s.m_fdContexts.set fd fd_ctx')
    (hinterest : t.interest = Function.update s.interest fd fd_ctx'.events.interest) :
    Kept s t := by
  have hlen : t.m_fdContexts.length = s.m_fdContexts.length := by
    rw [htable, length_set]
  exact ⟨⟨ht, hs.watched.store hfd htable hinterest, hlen ▸ hs.size⟩, Nat.le_of_eq hlen.symm⟩

private theorem ne_zero_of_has (h : m.has event = true) : m ≠ .zero := by
  rintro rfl
  cases event <;> exact nomatch h

/-- With the kernel's consent the interest is narrowed by the event, if it is
registered. -/
theorem unwatch_cases (hs : Consistent s) (ok : Bool) (fd : Nat) (event : Event) :
    s.unwatch ok fd event = none ∨ ∃ fd_ctx, ok = true ∧ s.m_fdContexts[fd]? = some fd_ctx
        ∧ fd_ctx.events.has event = true
        ∧ s.unwatch ok fd event = some (fd_ctx,
          Function.update s.interest fd (fd_ctx.events.remove event).interest) := by
  rw [unwatch]
  cases hfd : s.m_fdContexts[fd]? with
  | none => exact Or.inl rfl
  | some fd_ctx =>
    dsimp only
    by_cases hev : fd_ctx.events.has event = true
    · rw [if_pos hev]
      cases ok with
      | false =>
        left
        rw [epoll_ctl_refused]
        rfl
      | true =>
        refine Or.inr ⟨fd_ctx, rfl, rfl, hev, ?_⟩
        rw [epoll_ctl_narrow hs.watched hfd (ne_zero_of_has hev)]
        rfl
    · rw [if_neg hev]
      exact Or.inl rfl

/-- `delEvent` -/
theorem delEvent_spec (hs : Consistent s) (ok : Bool) (fd : Nat) (event : Event) :
    Served s ok ((s.delEvent ok fd event).map Prod.snd) := by
  rw [delEvent]
  rcases unwatch_cases hs ok fd event with h | ⟨fd_ctx, rfl, hfd, hev, h⟩
  · rw [h]
    exact hs.served ok
  · have hcounted := hs.toCounted.clear hfd hev
    refine ⟨{ s.store fd (fd_ctx.clear event) (-1) with
      interest := Function.update s.interest fd
        (fd_ctx.events.remove event).interest }, ?_, ?_, fun h => nomatch h⟩
    · rw [h]
      cases event with
      | NONE => exact nomatch hev
      | READ => rfl
      | WRITE => rfl
    · refine hs.replaced hfd ⟨hcounted.fd, hcounted.contexts, hcounted.pending⟩ rfl ?_
      rw [clear_events]

/-- `cancelEvent` -/
theorem cancelEvent_spec (hs : Consistent s) (ok : Bool) (fd : Nat) (event : Event) :
    Served s ok ((s.cancelEvent ok fd event).map Prod.snd) := by
  rw [cancelEvent]
  rcases unwatch_cases hs ok fd event with h | ⟨fd_ctx, rfl, hfd, hev, h⟩
  · rw [h]
    exact hs.served ok
  · have htold : Counted { s with
        interest := Function.update s.interest fd (fd_ctx.events.remove event).interest } :=
      ⟨hs.fd, hs.contexts, hs.pending⟩
    obtain ⟨t, ht, hct, htt, hit⟩ := trigger_spec htold hfd hev
    refine ⟨t, ?_, ?_, fun h => nomatch h⟩
    · rw [h]
      dsimp only
      rw [ht]
      rfl
    · refine hs.replaced hfd hct htt ?_
      rw [hit, clear_events]

/-- `cancelAll` -/
theorem cancelAll_spec (hs : Consistent s) (ok : Bool) (fd : Nat) :
    Served s ok ((s.cancelAll ok fd).map Prod.snd) := by
  rw [cancelAll]
  cases hfd : s.m_fdContexts[fd]? with
  | none => exact hs.served ok
  | some fd_ctx =>
    dsimp only
    by_cases hne : fd_ctx.events = .zero
    · rw [if_pos hne]
      exact hs.served ok
    · rw [if_neg hne]
      cases ok with
      | false =>
        rw [epoll_ctl_refused]
        exact hs.served false
      | true =>
        have hctl := epoll_ctl_narrow (m := .zero) hs.watched hfd hne
        rw [if_pos rfl] at hctl
        rw [hctl]
        have htold : Counted { s with
            interest := Function.update s.interest fd Mask.zero.interest } :=
          ⟨hs.fd, hs.contexts, hs.pending⟩
        obtain ⟨t, ht, hct, htt, hit⟩ := triggerAll_spec (m := fd_ctx.events) htold hfd id id
        have hclear : (fd_ctx.clearAll fd_ctx.events).events = .zero := by
          rw [clearAll_events, Mask.diff, Bool.and_not_self, Bool.and_not_self]
          rfl
        have hall : (t.m_fdContexts[fd]?).all (·.events = .zero) = true := by
          obtain ⟨hlt, -⟩ := List.getElem?_eq_some_iff.mp hfd
          rw [htt, List.getElem?_set_self hlt, Option.all_some, hclear]
          rfl
        refine ⟨t, ?_, ?_, fun h => nomatch h⟩
        · dsimp only
          rw [ht]
          exact congrArg (Except.map Prod.snd) (if_pos hall)
        · refine hs.replaced hfd hct htt ?_
          rw [hit, hclear]

/-- Where `addEvent` finds its context: the table as it is, or grown. -/
theorem grown_spec (hs : Consistent s) (fd : Nat) :
    ∃ n, (if fd < s.m_fdContexts.length then s else s.contextResize (fd * 3 / 2)) = s.extend n
      ∧ (fd < s.m_fdContexts.length → n = 0)
      ∧ fd < (s.extend n).m_fdContexts.length := by
  by_cases hlt : fd < s.m_fdContexts.length
  · refine ⟨0, ?_, fun _ => rfl, ?_⟩
    · rw [if_pos hlt]
      exact (extend_zero s).symm
    · rwa [extend_zero]
  · have hsize := hs.size
    refine ⟨fd * 3 / 2 - s.m_fdContexts.length, ?_, fun h => absurd h hlt, ?_⟩
    · rw [if_neg hlt, contextResize_eq_extend (by omega)]
    · rw [length_extend]
      omega

/-- The new context is filled, on a thread of a scheduler; a fiber has to be `EXEC`. -/
theorem fill_spec {cb : Option Nat} (h : caller.scheduler.isSome)
    (hexec : cb = none → caller.state = .EXEC) :
    ∃ ctx, fill caller cb = .ok ctx ∧ ctx.Fits true := by
  cases cb with
  | some cb => exact ⟨_, rfl, h, by simp⟩
  | none =>
    refine ⟨⟨caller.scheduler, some caller.fiber, none⟩, ?_, h, by simp⟩
    rw [fill, if_pos (hexec rfl)]

/-- A context with one more event. -/
theorem wellFormed_add (hwf : fd_ctx.WellFormed) (hbit : event ≠ .NONE) (hctx : ctx.Fits true) :
    ({ fd_ctx with events := fd_ctx.events.add event }.putContext event ctx).WellFormed := by
  cases event with
  | NONE => exact absurd rfl hbit
  | READ => exact ⟨hctx, hwf.write⟩
  | WRITE => exact ⟨hwf.read, hctx⟩

theorem bits_add (hbit : event ≠ .NONE) (h : m.has event = false) :
    ((m.add event).bits : Int) = m.bits + 1 := by
  obtain ⟨read, write⟩ := m
  cases event <;> cases read <;> cases write <;>
    first | rfl | exact absurd rfl hbit | exact nomatch h

theorem add_ne_zero (hbit : event ≠ .NONE) : m.add event ≠ .zero := by
  cases event with
  | NONE => exact absurd rfl hbit
  | READ => exact fun h => nomatch congrArg Mask.read h
  | WRITE => exact fun h => nomatch congrArg Mask.write h

/-- The context of an event that is not registered is empty. -/
theorem getContext_unset (hwf : fd_ctx.WellFormed) (hbit : event ≠ .NONE)
    (hunset : fd_ctx.events.has event = false) (m : Mask) :
    ({ fd_ctx with events := m } : FdContext).getContext event = .ok .empty := by
  obtain ⟨ctx, hget, hfits⟩ := hwf.fits hbit m
  rw [hunset] at hfits
  exact hget.trans (congrArg _ hfits)

/-- `addEvent` for an event that is not registered, called on a thread of
a scheduler. -/
theorem addEvent_spec {cb : Option Nat} (hs : Consistent s) (hcaller : caller.scheduler.isSome)
    (hexec : cb = none → caller.state = .EXEC) (hbit : event ≠ .NONE)
    (hunset : ∀ fd_ctx, s.m_fdContexts[fd]? = some fd_ctx → fd_ctx.events.has event = false)
    (ok : Bool) :
    ∃ r t, s.addEvent caller ok fd event cb = .ok (r, t) ∧ Kept s t
      ∧ (ok = false → ∃ n, t = s.extend n ∧ (fd < s.m_fdContexts.length → n = 0)) := by
  obtain ⟨n, hgrown, hn, hlt⟩ := grown_spec hs fd
  have hg : Consistent (s.extend n) := hs.extend n
  have hlen : s.m_fdContexts.length ≤ (s.extend n).m_fdContexts.length := by
    rw [length_extend]
    exact Nat.le_add_right _ _
  obtain ⟨fd_ctx, hfd⟩ : ∃ fd_ctx, (s.extend n).m_fdContexts[fd]? = some fd_ctx :=
    ⟨_, getElem?_eq_getElem hlt⟩
  have hev : fd_ctx.events.has event = false := by
    rcases getElem?_extend hfd with hold | ⟨-, rfl⟩
    · exact hunset fd_ctx hold
    · cases event <;> rfl
  have hwf := hg.contexts fd_ctx (mem_of_getElem? hfd)
  rw [addEvent, hgrown]
  dsimp only
  rw [hfd]
  dsimp only
  rw [if_neg (Bool.eq_false_iff.mp hev)]
  cases ok with
  | false =>
    rw [epoll_ctl_refused]
    exact ⟨-1, s.extend n, rfl, ⟨hg, hlen⟩, fun _ => ⟨n, rfl, hn⟩⟩
  | true =>
    obtain ⟨ctx, hfill, hctx⟩ := fill_spec hcaller hexec
    rw [epoll_ctl_widen hg.watched hfd (add_ne_zero hbit)]
    dsimp only
    rw [getContext_unset hwf hbit hev]
    have hcounted : Counted ((s.extend n).store fd
        ({ fd_ctx with events := fd_ctx.events.add event }.putContext event ctx)
        1) := by
      refine hg.toCounted.store hfd putContext_fd (wellFormed_add hwf hbit hctx) ?_
      rw [putContext_events]
      exact bits_add hbit hev
    refine ⟨0, { (s.extend n).store fd
        ({ fd_ctx with events := fd_ctx.events.add event }.putContext event ctx) 1 with
        interest := Function.update (s.extend n).interest fd
          (fd_ctx.events.add event).interest }, ?_, ?_, fun h => nomatch h⟩
    · simp [bind, Except.bind, hfill]
    · refine Kept.trans ⟨hg, hlen⟩ (hg.replaced hfd
        ⟨hcounted.fd, hcounted.contexts, hcounted.pending⟩ rfl ?_)
      rw [putContext_events]

/-- Every event of `m` is one of `k`. -/
def Mask.Sub (m k : Mask) : Prop :=
  (m.read = true → k.read = true) ∧ (m.write = true → k.write = true)

/-- An entry is in order when it is handled: none of its events is registered any more, or all are.
-/
def Matches (fd_ctx : FdContext) (event : Reported) : Prop :=
  fd_ctx.events.inter (event.real fd_ctx) = .zero
    ∨ (event.real fd_ctx).Sub fd_ctx.events

/-- One entry of a batch that is in order. -/
theorem handle_spec {event : Reported} {ok : Bool} (hs : Consistent s)
    (hfd : s.m_fdContexts[event.fd]? = some fd_ctx)
    (hmatch : ok = true → Matches fd_ctx event) : Served s ok (s.handle ok event) := by
  rw [handle, hfd]
  dsimp only
  by_cases hzero : fd_ctx.events.inter (event.real fd_ctx) = .zero
  · rw [if_pos hzero]
    exact hs.served ok
  · rw [if_neg hzero, hs.fd _ _ hfd]
    cases ok with
    | false =>
      rw [epoll_ctl_refused]
      exact hs.served false
    | true =>
      have hsub := (hmatch rfl).resolve_left hzero
      have hne : fd_ctx.events ≠ .zero := by
        intro h
        rw [h] at hzero
        exact hzero rfl
      rw [epoll_ctl_narrow hs.watched hfd hne]
      have htold : Counted { s with
          interest := Function.update s.interest event.fd
            (fd_ctx.events.diff (event.real fd_ctx)).interest } :=
        ⟨hs.fd, hs.contexts, hs.pending⟩
      obtain ⟨t, ht, hct, htt, hit⟩ := triggerAll_spec htold hfd hsub.1 hsub.2
      refine ⟨t, ht, hs.replaced hfd hct htt ?_, fun h => nomatch h⟩
      rw [hit, clearAll_events]

/-- Some but not all of two events: both were reported and one is left. -/
theorem half_stale {k : Mask} (hinter : m.inter k ≠ .zero) (hsub : ¬ k.Sub m) :
    k = ⟨true, true⟩ ∧ (m = ⟨false, true⟩ ∨ m = ⟨true, false⟩) := by
  obtain ⟨mr, mw⟩ := m
  obtain ⟨kr, kw⟩ := k
  cases mr <;> cases mw <;> cases kr <;> cases kw <;>
    simp_all [Mask.inter, Mask.zero, Mask.Sub]

/-- A half stale entry, with some events registered and some not, fails the assertion of
`triggerEvent`. -/
theorem handle_stale {event : Reported} (hs : Consistent s)
    (hfd : s.m_fdContexts[event.fd]? = some fd_ctx)
    (hmatch : ¬ Matches fd_ctx event) :
    s.handle true event = .error (.assertion .triggerEvent) := by
  obtain ⟨hzero, hsub⟩ := not_or.mp hmatch
  obtain ⟨hreal, hleft⟩ := half_stale hzero hsub
  have hne : fd_ctx.events ≠ .zero := by
    rcases hleft with h | h <;> rw [h] <;> exact fun h => nomatch h
  rw [handle, hfd]
  dsimp only
  rw [if_neg hzero, hs.fd _ _ hfd, epoll_ctl_narrow hs.watched hfd hne, hreal]
  refine triggerAll_stale ?_ hfd hleft
  exact ⟨hs.fd, hs.contexts, hs.pending⟩

end Operations

/-! ## Runs -/

def Call.ok : Call → Bool
  | .addEvent _ ok _ _ _ | .delEvent ok _ _ | .cancelEvent ok _ _ | .cancelAll ok _ => ok

/-- `addEvent` is called on a thread of a scheduler, without a callback by a fiber in state `EXEC`,
for `READ` or `WRITE`, and that bit is not set. -/
def Call.Allowed (s : IOManager) : Call → Prop
  | .addEvent caller _ fd event cb => caller.scheduler.isSome
    ∧ (cb = none → caller.state = .EXEC) ∧ event ≠ .NONE
    ∧ ∀ fd_ctx, s.m_fdContexts[fd]? = some fd_ctx →
      fd_ctx.events.has event = false
  | _ => True

/-- The call is an `addEvent` for a descriptor outside the table. -/
def Call.Outside (s : IOManager) : Call → Prop
  | .addEvent _ _ fd _ _ => s.m_fdContexts.length ≤ fd
  | _ => False

/-- `t` is `s`, up to empty contexts that a call outside the table appended. -/
def Unchanged (s t : IOManager) (outside : Prop) : Prop :=
  ∃ n, t = s.extend n ∧ (¬ outside → n = 0)

theorem Served.unchanged {s : IOManager} {ok : Bool} {x : Except Fault IOManager}
    (h : Served s ok x) (outside : Prop) :
    ∃ t, x = .ok t ∧ Kept s t ∧ (ok = false → Unchanged s t outside) := by
  obtain ⟨t, hx, ht, hfail⟩ := h
  refine ⟨t, hx, ht, fun hok => ⟨0, ?_, fun _ => rfl⟩⟩
  rw [hfail hok, extend_zero]

/-- One call that is allowed succeeds and keeps the invariant. -/
theorem Call.run_spec {s : IOManager} {c : Call} (hs : Consistent s) (hc : c.Allowed s) :
    ∃ t, c.run s = .ok t ∧ Kept s t ∧ (c.ok = false → Unchanged s t (c.Outside s)) := by
  cases c with
  | addEvent caller ok fd event cb =>
    obtain ⟨hcaller, hexec, hbit, hunset⟩ := hc
    obtain ⟨r, t, h, ht, hfail⟩ := addEvent_spec hs hcaller hexec hbit hunset ok
    refine ⟨t, congrArg (Except.map Prod.snd) h, ht, fun hok => ?_⟩
    obtain ⟨n, hn, hin⟩ := hfail hok
    exact ⟨n, hn, fun hout => hin (Nat.lt_of_not_le hout)⟩
  | delEvent ok fd event => exact (delEvent_spec hs ok fd event).unchanged _
  | cancelEvent ok fd event => exact (cancelEvent_spec hs ok fd event).unchanged _
  | cancelAll ok fd => exact (cancelAll_spec hs ok fd).unchanged _

/-- The kernel can report the entry now: it watches the descriptor for the
events of the mask. -/
def Reportable (s : IOManager) (event : Reported) : Prop :=
  ∃ m, s.interest event.fd = some m ∧ event.events.Sub m

/-- What is reported now is registered now. -/
theorem Reportable.matches {s : IOManager} {event : Reported} (hs : Consistent s)
    (h : Reportable s event) :
    ∃ fd_ctx, s.m_fdContexts[event.fd]? = some fd_ctx ∧ Matches fd_ctx event := by
  obtain ⟨m, hm, hsub⟩ := h
  rw [hs.watched event.fd] at hm
  obtain ⟨fd_ctx, hfd, hinterest⟩ := Option.bind_eq_some_iff.mp hm
  refine ⟨fd_ctx, hfd, Or.inr ?_⟩
  obtain rfl : fd_ctx.events = m := by
    by_cases hzero : fd_ctx.events = .zero
    · rw [hzero, interest_zero] at hinterest
      exact nomatch hinterest
    · rw [interest_of_ne hzero] at hinterest
      exact Option.some.inj hinterest
  rw [Reported.real]
  split
  · constructor
    · intro h
      exact (Bool.or_eq_true_iff.mp h).elim hsub.1 id
    · intro h
      exact (Bool.or_eq_true_iff.mp h).elim hsub.2 id
  · exact hsub

/-- A call, or the handling of an entry that the kernel reports in the same
step. -/
inductive Op where
  | call (c : Call)
  | report (ok : Bool) (event : Reported)

/-- A call runs, or `idle` handles an event. -/
def Op.run (s : IOManager) : Op → Except Fault IOManager
  | .call c => c.run s
  | .report ok event => s.handle ok event

def Op.ok : Op → Bool
  | .call c => c.ok
  | .report ok _ => ok

def Op.Allowed (s : IOManager) : Op → Prop
  | .call c => c.Allowed s
  | .report _ event => Reportable s event

def Op.Outside (s : IOManager) : Op → Prop
  | .call c => c.Outside s
  | .report _ _ => False

def step (s : IOManager) (op : Op) : Option IOManager := (op.run s).toOption

theorem Op.run_spec {s : IOManager} {op : Op} (hs : Consistent s) (hop : op.Allowed s) :
    ∃ t, op.run s = .ok t ∧ Kept s t ∧ (op.ok = false → Unchanged s t (op.Outside s)) := by
  cases op with
  | call c => exact Call.run_spec hs hop
  | report ok event =>
    obtain ⟨fd_ctx, hfd, hmatch⟩ := Reportable.matches hs hop
    exact (handle_spec hs hfd fun _ => hmatch).unchanged _

/-- **The event bookkeeping.**  In every state that allowed operations reach, the counter is
the number of bits set, every context is filled exactly if its bit is set, and the kernel
watches every descriptor for its mask.  No allowed operation fails an assertion there, and
one whose `epoll_ctl` fails leaves the state as it is, up to appended empty contexts. -/
theorem bookkeeping {s : IOManager} (h : Reaches step (fun s op => op.Allowed s) IOManager.init s) :
    (s.m_pendingEventCount = s.registered ∧ (∀ fd_ctx ∈ s.m_fdContexts, fd_ctx.WellFormed)
        ∧ Watched s)
      ∧ ∀ op : Op, op.Allowed s → ∃ t, op.run s = .ok t
        ∧ (op.ok = false → Unchanged s t (op.Outside s)) := by
  have hs : Consistent s := h.inv init_consistent fun ha hop hstep => by
    obtain ⟨t, ht, hct, -⟩ := Op.run_spec ha hop
    rw [step, ht] at hstep
    cases hstep
    exact hct.consistent
  refine ⟨⟨hs.pending, hs.contexts, hs.watched⟩, fun op hop => ?_⟩
  obtain ⟨t, ht, -, hfail⟩ := Op.run_spec hs hop
  exact ⟨t, ht, hfail⟩

/-- One registration on a worker's thread, and the operations possible then. -/
theorem bookkeeping_read : ∃ s, exec step IOManager.init
        [.call (.addEvent ⟨some 0, 0, .EXEC⟩ true 5 .READ (some 7))] = some s
      ∧ s.m_pendingEventCount = 1 ∧ s.m_pendingEventCount = s.registered
      ∧ ∃ t, (Op.report true ⟨5, ⟨true, false⟩, false⟩).run s = .ok t := by
  have hrun : exec step IOManager.init
      [.call (.addEvent ⟨some 0, 0, .EXEC⟩ true 5 .READ (some 7))] = some _ := rfl
  have hallowed : Along step (fun s op => op.Allowed s) IOManager.init
      [.call (.addEvent ⟨some 0, 0, .EXEC⟩ true 5 .READ (some 7))] := by
    refine ⟨⟨rfl, nofun, Event.noConfusion, ?_⟩, fun _ _ => trivial⟩
    rintro fd_ctx hfd
    cases hfd
    rfl
  have hs := bookkeeping (reaches_of_exec hallowed hrun)
  obtain ⟨t, ht, -⟩ := hs.2 (.report true ⟨5, ⟨true, false⟩, false⟩) ⟨⟨true, false⟩, rfl, id, id⟩
  exact ⟨_, hrun, rfl, hs.1.1, t, ht⟩

/-- On a thread without a scheduler `addEvent` registers an event without one, and
cancelling it calls through a null pointer.  Outside the table it grows the table even if
`epoll_ctl` then fails.  A fiber that another worker has set to `HOLD` fails the
assertion. -/
theorem addEvent_off_scheduler :
    (∃ s fd_ctx, IOManager.init.addEvent ⟨none, 0, .EXEC⟩ true 5 .READ (some 7) = .ok (0, s)
      ∧ s.m_fdContexts[5]? = some fd_ctx ∧ fd_ctx.events.has .READ = true
      ∧ fd_ctx.read.scheduler = none ∧ ¬ fd_ctx.WellFormed
      ∧ s.cancelEvent true 5 .READ = .error .nullScheduler)
      ∧ ∃ s, IOManager.init.addEvent ⟨some 0, 0, .EXEC⟩ false 40 .READ (some 7) = .ok (-1, s)
        ∧ s.m_fdContexts.length = 60 ∧ IOManager.init.m_fdContexts.length = 32
        ∧ IOManager.init.addEvent ⟨some 0, 0, .HOLD⟩ true 5 .READ none
          = .error (.assertion .fiberExec) := by
  refine ⟨⟨_, _, rfl, rfl, rfl, rfl, ?_, rfl⟩, _, rfl, rfl, rfl, rfl⟩
  rintro ⟨hread, -⟩
  exact nomatch hread.1

end SylarIoEvent
