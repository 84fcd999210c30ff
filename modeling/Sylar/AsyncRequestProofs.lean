import Mathlib.Data.List.Basic
import Sylar.StepSystemProofs

/-! # Requests and responses (`async_socket_stream.cc`, `rock_stream.cc`)

`RockStream::request` makes a context with the calling fiber, puts it into
`m_ctxs`, adds a timer and yields.  The reader that gets the response, the timer
and `innerClose` each call `doRsp` on the context: it reads `scheduler`, swaps it
against null and, if it was the one to do so, schedules the fiber.  All of these
are threads here that move in steps of one access each; the queue of messages to
send is in `SendQueueProofs`.

* **`tokens`** — a context is open, or one `doRsp` is on its way to the scheduler, or
  the fiber was scheduled: always exactly one of the three.
* **`step_inv`** — one step keeps that.
* **`requests_matched`** — a fiber is scheduled at most once, by a `doRsp` on its own context. -/

namespace SylarAsyncRequest

open StepSystem List

/-! ## The code -/

/-- `AsyncSocketStream::Error`, as a `uint32_t`. -/
def TIMEOUT : UInt32 := -1

def IO_ERROR : UInt32 := -2

/-- `RockResponse`, as far as a caller reads it. -/
structure RockResponse where
  sn : UInt32
  result : UInt32
  deriving DecidableEq, Repr

/-- `RockCtx`; `none` is a null pointer, and `timer` is whether there is one. -/
structure RockCtx where
  sn : UInt32
  result : UInt32
  timed : Bool
  scheduler : Option Nat
  fiber : Option Nat
  timer : Bool
  response : Option RockResponse
  deriving DecidableEq, Repr

/-- `Scheduler::GetThis()` and `Fiber::GetThis()` where `request` is called. -/
structure Caller where
  scheduler : Nat
  fiber : Nat
  deriving DecidableEq, Repr

/-- Where a thread stands.  A `doRsp` that `innerClose` has called is followed by the contexts of
`rest`. -/
inductive Pc where
  | addCtx (c : Nat)
  | addTimer (c : Nat)
  | setTimer (c : Nat)
  | enqueue (c : Nat)
  | yieldToHold (c : Nat)
  | erase (c : Nat)
  | setTimed (c : Nat)
  | getAndDelCtx (rsp : RockResponse)
  | setResult (c : Nat) (rsp : RockResponse)
  | setResponse (c : Nat) (rsp : RockResponse)
  | swapCtxs
  | ioError (c : Nat) (rest : List Nat)
  | readScheduler (c : Nat) (rest : List Nat)
  | compareAndSwap (c : Nat) (scd : Option Nat) (rest : List Nat)
  | check (c : Nat) (scd : Option Nat) (rest : List Nat)
  | cancelTimer (c : Nat) (scd : Nat) (rest : List Nat)
  | checkTimed (c : Nat) (scd : Nat) (rest : List Nat)
  | schedule (c : Nat) (scd : Nat) (rest : List Nat)
  | done
  deriving DecidableEq, Repr

/-- A fiber that was handed to a scheduler, and the context it came from. -/
structure Scheduled where
  scheduler : Nat
  fiber : Nat
  ctx : Nat
  deriving DecidableEq, Repr

/-- The contexts by numbers, with their callers; `m_ctxs`; the timers not yet fired; the threads;
what was scheduled; the contexts on which a `doRsp` has returned. -/
structure State where
  ctxs : List RockCtx
  callers : List Caller
  m_ctxs : List (UInt32 × Nat)
  armed : List Nat
  threads : List Pc
  scheduled : List Scheduled
  returned : List Nat
  deriving DecidableEq, Repr

def init : State := ⟨[], [], [], [], [], [], []⟩

namespace State

/-- A context is written. -/
def put (s : State) (c : Nat) (f : RockCtx → RockCtx) : State :=
  { s with ctxs := s.ctxs.modify c f }

/-- `m_ctxs.find(sn)`. -/
def find (s : State) (sn : UInt32) : Option Nat := s.m_ctxs.lookup sn

/-- `m_ctxs.erase(sn)`. -/
def eraseSn (s : State) (sn : UInt32) : State :=
  { s with m_ctxs := s.m_ctxs.filter fun e => e.1 != sn }

/-- `m_ctxs.insert(std::make_pair(sn, c))`: an entry that is there stays. -/
def insertSn (s : State) (sn : UInt32) (c : Nat) : State :=
  { s with m_ctxs := if (s.find sn).isSome then s.m_ctxs else (sn, c) :: s.m_ctxs }

/-- A `doRsp` returns. -/
def ret (s : State) (c : Nat) : State := { s with returned := c :: s.returned }

end State

/-- The loop of `innerClose` goes on. -/
def next : List Nat → Pc
  | [] => .done
  | c :: rest => .ioError c rest

/-- The next access of a thread, and where it stands then; `innerClose` goes through the map in
`order`. -/
def advance (s : State) (order : List Nat) : Pc → Option (State × Pc)
  -- request
  | .addCtx c => (s.ctxs[c]?).map fun ctx => (s.insertSn ctx.sn c, .addTimer c)
  | .addTimer c => some ({ s with armed := c :: s.armed }, .setTimer c)
  | .setTimer c => some (s.put c fun ctx => { ctx with timer := true }, .enqueue c)
  | .enqueue c => some (s, .yieldToHold c)
  | .yieldToHold _ => some (s, .done)
  -- onTimeOut
  | .erase c => (s.ctxs[c]?).map fun ctx => (s.eraseSn ctx.sn, .setTimed c)
  | .setTimed c => some (s.put c fun ctx => { ctx with timed := true }, .readScheduler c [])
  -- doRecv
  | .getAndDelCtx rsp =>
    match s.find rsp.sn with
    | none => some (s, .done)
    | some c => some (s.eraseSn rsp.sn, .setResult c rsp)
  | .setResult c rsp =>
    some (s.put c fun ctx => { ctx with result := rsp.result }, .setResponse c rsp)
  | .setResponse c rsp =>
    some (s.put c fun ctx => { ctx with response := some rsp }, .readScheduler c [])
  -- innerClose
  | .swapCtxs =>
    if order.Perm (s.m_ctxs.map Prod.snd) then some ({ s with m_ctxs := [] }, next order)
    else none
  | .ioError c rest =>
    some (s.put c fun ctx => { ctx with result := IO_ERROR }, .readScheduler c rest)
  -- doRsp
  | .readScheduler c rest =>
    (s.ctxs[c]?).map fun ctx => (s, .compareAndSwap c ctx.scheduler rest)
  | .compareAndSwap c scd rest =>
    (s.ctxs[c]?).map fun ctx =>
      if ctx.scheduler = scd then
        (s.put c fun ctx => { ctx with scheduler := none }, .check c scd rest)
      else (s.ret c, next rest)
  | .check c scd rest =>
    (s.ctxs[c]?).map fun ctx =>
      match scd, ctx.fiber with
      | some scd, some _ => (s, .cancelTimer c scd rest)
      | _, _ => (s.ret c, next rest)
  | .cancelTimer c scd rest =>
    (s.ctxs[c]?).map fun ctx =>
      if ctx.timer then
        ({ s with armed := s.armed.erase c }.put c fun ctx => { ctx with timer := false },
          .checkTimed c scd rest)
      else (s, .checkTimed c scd rest)
  | .checkTimed c scd rest =>
    some (s.put c fun ctx => if ctx.timed then { ctx with result := TIMEOUT } else ctx,
      .schedule c scd rest)
  | .schedule c scd rest =>
    (s.ctxs[c]?).map fun ctx =>
      let scheduled := ctx.fiber.toList.map fun fiber => ⟨scd, fiber, c⟩
      (({ s with scheduled := s.scheduled ++ scheduled }.put c
        fun ctx => { ctx with fiber := none }).ret c, next rest)
  | .done => none

/-- A `request` begins, a response arrives, a timer fires, `innerClose` or `doRsp` is called, a
thread moves. -/
inductive Label where
  | request (sn : UInt32) (caller : Caller)
  | response (rsp : RockResponse)
  | expire (c : Nat)
  | innerClose
  | doRsp (c : Nat)
  | move (i : Nat) (order : List Nat)
  deriving DecidableEq, Repr

def State.spawn (s : State) (pc : Pc) : State := { s with threads := s.threads ++ [pc] }

/-- A new thread, or the next section of one. -/
def step (s : State) : Label → Option State
  | .request sn caller =>
    let ctx : RockCtx := ⟨sn, 0, false, some caller.scheduler, some caller.fiber, false, none⟩
    some ({ s with ctxs := s.ctxs ++ [ctx], callers := s.callers ++ [caller] }.spawn
      (.addCtx s.ctxs.length))
  | .response rsp => some (s.spawn (.getAndDelCtx rsp))
  | .expire c =>
    if c ∈ s.armed then some ({ s with armed := s.armed.erase c }.spawn (.erase c)) else none
  | .innerClose => some (s.spawn .swapCtxs)
  | .doRsp c =>
    if c < s.ctxs.length then some (s.spawn (.readScheduler c [])) else none
  | .move i order =>
    match s.threads[i]? with
    | none => none
    | some pc =>
        (advance s order pc).map fun (s, pc') => { s with threads := s.threads.set i pc' }

/-! ## The invariant -/

/-- The thread has swapped the scheduler of `c` and is on its way to schedule. -/
def Pc.wins (c : Nat) : Pc → Bool
  | .check c' (some _) _ | .cancelTimer c' _ _ | .checkTimed c' _ _ | .schedule c' _ _ =>
    c' == c
  | _ => false

def State.winners (s : State) (c : Nat) : Nat := s.threads.countP (Pc.wins c)

/-- What has been scheduled for a context. -/
def State.got (s : State) (c : Nat) : List Scheduled := s.scheduled.filter (·.ctx == c)

/-- Where a context and its fiber are. -/
structure Own (s : State) (c : Nat) (ctx : RockCtx) (caller : Caller) : Prop where
  /-- It is open, or one `doRsp` is on its way, or the fiber was scheduled. -/
  tokens : ctx.scheduler.isSome.toNat + s.winners c + (s.got c).length = 1
  scheduler : ∀ scd ∈ ctx.scheduler, scd = caller.scheduler
  fiber : ctx.fiber = if s.got c = [] then some caller.fiber else none
  got : ∀ e ∈ s.got c, e = ⟨caller.scheduler, caller.fiber, c⟩
  returned : c ∈ s.returned → ctx.scheduler = none
  response : ∀ rsp ∈ ctx.response, rsp.sn = ctx.sn

/-- A thread knows what it has found out. -/
def Pc.Sound (s : State) : Pc → Prop
  | .setResult c rsp | .setResponse c rsp => ∃ ctx, s.ctxs[c]? = some ctx ∧ rsp.sn = ctx.sn
  | .compareAndSwap c none _ => ∃ ctx, s.ctxs[c]? = some ctx ∧ ctx.scheduler = none
  | .check c none _ => ∃ ctx, s.ctxs[c]? = some ctx ∧ ctx.scheduler = none
  | .compareAndSwap c (some scd) _ | .check c (some scd) _ | .cancelTimer c scd _
  | .checkTimed c scd _ | .schedule c scd _ =>
    ∃ caller, s.callers[c]? = some caller ∧ scd = caller.scheduler
  | _ => True

/-- What holds in every reachable state. -/
structure Inv (s : State) : Prop where
  length : s.callers.length = s.ctxs.length
  own : ∀ c ctx caller, s.ctxs[c]? = some ctx → s.callers[c]? = some caller →
    Own s c ctx caller
  threads : ∀ pc ∈ s.threads, pc.Sound s
  m_ctxs : ∀ e ∈ s.m_ctxs, ∃ ctx, s.ctxs[e.2]? = some ctx ∧ e.1 = ctx.sn
  scheduled : ∀ e ∈ s.scheduled, e.ctx < s.ctxs.length
  returned : ∀ c ∈ s.returned, c < s.ctxs.length

theorem init_inv : Inv init where
  length := rfl
  own _ _ _ h := nomatch h
  threads _ h := absurd h not_mem_nil
  m_ctxs _ h := absurd h not_mem_nil
  scheduled _ h := absurd h not_mem_nil
  returned _ h := absurd h not_mem_nil

/-! ## Frames -/

variable {f : RockCtx → RockCtx} {scd : Nat}

section Frame

variable {s u : State} {i c : Nat} {pc pc' : Pc} {ctx ctx' : RockCtx} {caller : Caller}
  {m_ctxs : List (UInt32 × Nat)} {armed returned : List Nat}

/-- Contexts and callers stay, and a context that is not open does not open again. -/
structure Extends (s u : State) : Prop where
  ctxs : ∀ (c : Nat) ctx, s.ctxs[c]? = some ctx → ∃ ctx', u.ctxs[c]? = some ctx'
    ∧ ctx'.sn = ctx.sn ∧ (ctx.scheduler = none → ctx'.scheduler = none)
  callers : ∀ (c : Nat) caller, s.callers[c]? = some caller → u.callers[c]? = some caller

theorem Pc.Sound.mono (hext : Extends s u) (h : pc.Sound s) : pc.Sound u := by
  have hclosed : ∀ {c : Nat}, (∃ ctx, s.ctxs[c]? = some ctx ∧ ctx.scheduler = none) →
      ∃ ctx, u.ctxs[c]? = some ctx ∧ ctx.scheduler = none := by
    rintro c ⟨ctx, hctx, hnone⟩
    obtain ⟨ctx', hctx', -, hscheduler⟩ := hext.ctxs c ctx hctx
    exact ⟨ctx', hctx', hscheduler hnone⟩
  have hsn : ∀ {c : Nat} {rsp : RockResponse}, (∃ ctx, s.ctxs[c]? = some ctx ∧ rsp.sn = ctx.sn) →
      ∃ ctx, u.ctxs[c]? = some ctx ∧ rsp.sn = ctx.sn := by
    rintro c rsp ⟨ctx, hctx, heq⟩
    obtain ⟨ctx', hctx', hsn, -⟩ := hext.ctxs c ctx hctx
    exact ⟨ctx', hctx', heq.trans hsn.symm⟩
  have hscd : ∀ {c scd : Nat}, (∃ caller, s.callers[c]? = some caller ∧ scd = caller.scheduler) →
      ∃ caller, u.callers[c]? = some caller ∧ scd = caller.scheduler := by
    rintro c scd ⟨caller, hcaller, heq⟩
    exact ⟨caller, hext.callers c caller hcaller, heq⟩
  cases pc with
  | setResult c rsp => exact hsn h
  | setResponse c rsp => exact hsn h
  | compareAndSwap c scd rest =>
    cases scd with
    | none => exact hclosed h
    | some scd => exact hscd h
  | check c scd rest =>
    cases scd with
    | none => exact hclosed h
    | some scd => exact hscd h
  | cancelTimer c scd rest => exact hscd h
  | checkTimed c scd rest => exact hscd h
  | schedule c scd rest => exact hscd h
  | _ => trivial

/-- Everything but the single contexts follows from what was there before. -/
theorem Inv.extend (h : Inv s) (hext : Extends s u) (hlength : u.callers.length = u.ctxs.length)
    (hthreads : ∀ pc ∈ u.threads, pc ∈ s.threads ∨ pc.Sound u)
    (hm : ∀ e ∈ u.m_ctxs, e ∈ s.m_ctxs ∨ ∃ ctx, u.ctxs[e.2]? = some ctx ∧ e.1 = ctx.sn)
    (hscheduled : ∀ e ∈ u.scheduled, e ∈ s.scheduled ∨ e.ctx < u.ctxs.length)
    (hreturned : ∀ c ∈ u.returned, c ∈ s.returned ∨ c < u.ctxs.length)
    (hown : ∀ (c : Nat) ctx caller, u.ctxs[c]? = some ctx → u.callers[c]? = some caller →
      Own u c ctx caller) : Inv u := by
  have hlen : s.ctxs.length ≤ u.ctxs.length := by
    by_contra hlt
    have hctx := getElem?_eq_getElem (Nat.lt_of_not_le hlt)
    obtain ⟨ctx', hctx', -⟩ := hext.ctxs _ _ hctx
    exact Nat.lt_irrefl _ (List.getElem?_eq_some_iff.mp hctx').1
  refine ⟨hlength, hown, fun pc hpc => ?_, fun e he => ?_, fun e he => ?_, fun c hc => ?_⟩
  · rcases hthreads pc hpc with hpc | hpc
    · exact (h.threads pc hpc).mono hext
    · exact hpc
  · rcases hm e he with he | he
    · obtain ⟨ctx, hctx, hsn⟩ := h.m_ctxs e he
      obtain ⟨ctx', hctx', hsn', -⟩ := hext.ctxs e.2 ctx hctx
      exact ⟨ctx', hctx', hsn.trans hsn'.symm⟩
    · exact he
  · rcases hscheduled e he with he | he
    · exact Nat.lt_of_lt_of_le (h.scheduled e he) hlen
    · exact he
  · rcases hreturned c hc with hc | hc
    · exact Nat.lt_of_lt_of_le (h.returned c hc) hlen
    · exact hc

/-- Every context has its caller. -/
theorem Inv.known (h : Inv s) (hctx : s.ctxs[c]? = some ctx) :
    ∃ caller, s.callers[c]? = some caller ∧ Own s c ctx caller := by
  have hlt := (List.getElem?_eq_some_iff.mp hctx).1
  rw [← h.length] at hlt
  exact ⟨_, getElem?_eq_getElem hlt, h.own c ctx _ hctx (getElem?_eq_getElem hlt)⟩

theorem Inv.response (h : Inv s) (hctx : s.ctxs[c]? = some ctx) :
    ∀ rsp ∈ ctx.response, rsp.sn = ctx.sn := by
  obtain ⟨caller, -, hown⟩ := h.known hctx
  exact hown.response

/-- A context after a write to one. -/
theorem getElem?_put {d : Nat} (h : (s.put c f).ctxs[d]? = some ctx) :
    (d = c ∧ ∃ ctx₀, s.ctxs[c]? = some ctx₀ ∧ ctx = f ctx₀) ∨ (d ≠ c ∧ s.ctxs[d]? = some ctx) := by
  by_cases hd : d = c
  · subst hd
    rw [State.put, getElem?_modify_eq] at h
    obtain ⟨ctx₀, hctx₀, rfl⟩ := Option.map_eq_some_iff.mp h
    exact Or.inl ⟨rfl, ctx₀, hctx₀, rfl⟩
  · rw [State.put, getElem?_modify_ne _ _ (Ne.symm hd)] at h
    exact Or.inr ⟨hd, h⟩

theorem extends_put (hu : u.ctxs = (s.put c f).ctxs) (hcallers : u.callers = s.callers)
    (hsn : ∀ ctx, (f ctx).sn = ctx.sn)
    (hclosed : ∀ ctx, ctx.scheduler = none → (f ctx).scheduler = none) : Extends s u := by
  refine ⟨fun d ctx hctx => ?_, fun d caller hcaller => hcallers ▸ hcaller⟩
  rw [hu, State.put]
  by_cases hd : d = c
  · subst hd
    rw [getElem?_modify_eq, hctx]
    exact ⟨f ctx, rfl, hsn ctx, hclosed ctx⟩
  · rw [getElem?_modify_ne _ _ (Ne.symm hd)]
    exact ⟨ctx, hctx, rfl, id⟩

/-- How many threads are on their way, after one has moved. -/
theorem winners_set (hi : s.threads[i]? = some pc) (pc' : Pc) (c : Nat) :
    (s.threads.set i pc').countP (Pc.wins c) + (pc.wins c).toNat
      = s.winners c + (pc'.wins c).toNat :=
  countP_moved hi

theorem threads_set (hpc' : pc'.Sound u) :
    ∀ pc ∈ s.threads.set i pc', pc ∈ s.threads ∨ pc.Sound u := by
  intro pc hmem
  rcases mem_or_eq_of_mem_set hmem with hmem | rfl
  · exact Or.inl hmem
  · exact Or.inr hpc'

/-- A context stays as it is for its `doRsp`s. -/
theorem Own.same (h : Own s c ctx caller) (hscheduler : ctx'.scheduler = ctx.scheduler)
    (hfiber : ctx'.fiber = ctx.fiber) (hresponse : ∀ rsp ∈ ctx'.response, rsp.sn = ctx'.sn)
    (hwinners : u.winners c = s.winners c) (hgot : u.got c = s.got c)
    (hreturned : c ∈ u.returned → c ∈ s.returned ∨ ctx.scheduler = none) :
    Own u c ctx' caller := by
  refine ⟨?_, ?_, ?_, ?_, fun hret => ?_, hresponse⟩
  · rw [hwinners, hgot, hscheduler]
    exact h.tokens
  · rw [hscheduler]
    exact h.scheduler
  · rw [hgot, hfiber]
    exact h.fiber
  · rw [hgot]
    exact h.got
  · rw [hscheduler]
    rcases hreturned hret with hret | hnone
    · exact h.returned hret
    · exact hnone

/-- A write that `doRsp` does not see, by a thread that stays on or off its way to the
scheduler. -/
theorem Inv.quiet (h : Inv s) (hi : s.threads[i]? = some pc)
    (hf : ∀ ctx, s.ctxs[c]? = some ctx → (f ctx).sn = ctx.sn ∧ (f ctx).scheduler = ctx.scheduler
      ∧ (f ctx).fiber = ctx.fiber ∧ ∀ rsp ∈ (f ctx).response, rsp.sn = ctx.sn)
    (hreturned : ∀ d ∈ returned, d ∈ s.returned
      ∨ ∃ ctx, s.ctxs[d]? = some ctx ∧ ctx.scheduler = none)
    (hm : ∀ e ∈ m_ctxs, e ∈ s.m_ctxs ∨ ∃ ctx, s.ctxs[e.2]? = some ctx ∧ e.1 = ctx.sn)
    (hwins : ∀ d, pc'.wins d = pc.wins d) (hsound : pc'.Sound s) :
    Inv { s.put c f with m_ctxs, armed, returned, threads := s.threads.set i pc' } := by
  have hget : ∀ {d : Nat} {ctx : RockCtx}, (s.put c f).ctxs[d]? = some ctx →
      ∃ ctx₀, s.ctxs[d]? = some ctx₀ ∧ ctx.sn = ctx₀.sn ∧ ctx.scheduler = ctx₀.scheduler
        ∧ ctx.fiber = ctx₀.fiber ∧ ∀ rsp ∈ ctx.response, rsp.sn = ctx.sn := by
    intro d ctx hctx
    rcases getElem?_put hctx with ⟨rfl, ctx₀, hctx₀, rfl⟩ | ⟨-, hctx⟩
    · obtain ⟨hsn, hscheduler, hfiber, hresponse⟩ := hf ctx₀ hctx₀
      exact ⟨ctx₀, hctx₀, hsn, hscheduler, hfiber, hsn ▸ hresponse⟩
    · exact ⟨ctx, hctx, rfl, rfl, rfl, h.response hctx⟩
  have hlen : (s.put c f).ctxs.length = s.ctxs.length := length_modify ..
  have hext : Extends s
      { s.put c f with m_ctxs, armed, returned, threads := s.threads.set i pc' } := by
    refine ⟨fun d ctx hctx => ?_, fun _ _ hcaller => hcaller⟩
    have hlt := (List.getElem?_eq_some_iff.mp hctx).1
    rw [← hlen] at hlt
    have hctx' := getElem?_eq_getElem hlt
    obtain ⟨ctx₀, hctx₀, hsn, hscheduler, -⟩ := hget hctx'
    rw [hctx] at hctx₀
    cases hctx₀
    exact ⟨_, hctx', hsn, fun hnone => hscheduler.trans hnone⟩
  refine h.extend hext (h.length.trans hlen.symm) (threads_set (hsound.mono hext))
    (fun e he => ?_) (fun e he => Or.inl he) (fun d hd => ?_)
    fun d ctx caller hctx hcaller => ?_
  · rcases hm e he with he | ⟨ctx, hctx, hsn⟩
    · exact Or.inl he
    · obtain ⟨ctx', hctx', hsn', -⟩ := hext.ctxs e.2 ctx hctx
      exact Or.inr ⟨ctx', hctx', hsn.trans hsn'.symm⟩
  · rcases hreturned d hd with hd | ⟨ctx, hctx, -⟩
    · exact Or.inl hd
    · exact Or.inr (hlen.symm ▸ (List.getElem?_eq_some_iff.mp hctx).1)
  · obtain ⟨ctx₀, hctx₀, -, hscheduler, hfiber, hresponse⟩ := hget hctx
    refine (h.own d ctx₀ caller hctx₀ hcaller).same hscheduler hfiber hresponse ?_ rfl
      fun hret => ?_
    · have hset := winners_set hi pc' d
      rw [hwins d] at hset
      exact Nat.add_right_cancel hset
    · rcases hreturned d hret with hret | ⟨ctx₁, hctx₁, hnone⟩
      · exact Or.inl hret
      · rw [hctx₀] at hctx₁
        cases hctx₁
        exact Or.inr hnone

/-- **A thread on its way** is the only one, and the fiber is there. -/
theorem Inv.winner (h : Inv s) (hi : s.threads[i]? = some pc) (hwins : pc.wins c = true) :
    ∃ ctx caller, s.ctxs[c]? = some ctx ∧ s.callers[c]? = some caller ∧ Own s c ctx caller
      ∧ ctx.scheduler = none ∧ s.winners c = 1 ∧ s.got c = []
      ∧ ctx.fiber = some caller.fiber := by
  have hcaller : ∃ caller, s.callers[c]? = some caller := by
    have hsound := h.threads pc (mem_of_getElem? hi)
    cases pc with
    | check c' scd rest =>
      cases scd with
      | none => exact nomatch hwins
      | some scd =>
        obtain rfl := beq_iff_eq.mp hwins
        obtain ⟨caller, hcaller, -⟩ := hsound
        exact ⟨caller, hcaller⟩
    | cancelTimer c' scd rest | checkTimed c' scd rest | schedule c' scd rest =>
      obtain rfl := beq_iff_eq.mp hwins
      obtain ⟨caller, hcaller, -⟩ := hsound
      exact ⟨caller, hcaller⟩
    | _ => exact nomatch hwins
  obtain ⟨caller, hcaller⟩ := hcaller
  have hlt := (List.getElem?_eq_some_iff.mp hcaller).1
  rw [h.length] at hlt
  have hctx := getElem?_eq_getElem hlt
  have hown := h.own c _ caller hctx hcaller
  have hpos : 0 < s.winners c := countP_pos_iff.mpr ⟨pc, mem_of_getElem? hi, hwins⟩
  have htokens := hown.tokens
  have hgot : s.got c = [] := eq_nil_of_length_eq_zero (by omega)
  refine ⟨_, caller, hctx, hcaller, hown, ?_, by omega, hgot, ?_⟩
  · have hzero : (s.ctxs[c]).scheduler.isSome.toNat = 0 := by omega
    cases hsched : (s.ctxs[c]).scheduler with
    | none => rfl
    | some scd =>
      rw [hsched] at hzero
      exact nomatch hzero
  · rw [hown.fiber, if_pos hgot]

/-- The context that a thread on its way reads still has its fiber. -/
theorem Inv.winner_fiber (h : Inv s) (hi : s.threads[i]? = some pc)
    (hwins : pc.wins c = true) (hctx : s.ctxs[c]? = some ctx) :
    ∃ fiber, ctx.fiber = some fiber := by
  obtain ⟨ctx₀, caller, hctx₀, -, -, -, -, -, hfiber⟩ := h.winner hi hwins
  rw [hctx] at hctx₀
  cases hctx₀
  exact ⟨caller.fiber, hfiber⟩

end Frame

private theorem wins_next (c : Nat) (rest : List Nat) : (next rest).wins c = false := by
  cases rest <;> rfl

private theorem sound_next (s : State) (rest : List Nat) : (next rest).Sound s := by
  cases rest <;> trivial

/-! ## The two accesses that matter -/

section Accesses

variable {s : State} {i c : Nat} {rest : List Nat} {ctx : RockCtx}

/-- **The swap** that finds the scheduler: the context is no longer open, and the thread
is on its way. -/
theorem Inv.swapped (h : Inv s)
    (hi : s.threads[i]? = some (.compareAndSwap c (some scd) rest)) (hctx : s.ctxs[c]? = some ctx)
    (hscd : ctx.scheduler = some scd) :
    Inv { s.put c fun ctx => { ctx with scheduler := none } with
      threads := s.threads.set i (.check c (some scd) rest) } := by
  have hext : Extends s { s.put c fun ctx => { ctx with scheduler := none } with
      threads := s.threads.set i (.check c (some scd) rest) } :=
    extends_put (c := c) rfl rfl (fun _ => rfl) fun _ _ => rfl
  have hsound : (Pc.check c (some scd) rest).Sound s :=
    h.threads (.compareAndSwap c (some scd) rest) (mem_of_getElem? hi)
  have hwinners : ∀ d, (s.threads.set i (.check c (some scd) rest)).countP (Pc.wins d)
      = s.winners d + (c == d).toNat :=
    winners_set hi (.check c (some scd) rest)
  refine h.extend hext ?_ (threads_set (hsound.mono hext)) (fun e he => Or.inl he)
    (fun e he => Or.inl he) (fun d hd => Or.inl hd) fun d ctx' caller hctx' hcaller => ?_
  · show s.callers.length = (s.ctxs.modify c _).length
    rw [length_modify]
    exact h.length
  · rcases getElem?_put hctx' with ⟨rfl, ctx₀, hctx₀, rfl⟩ | ⟨hne, hctx'⟩
    · rw [hctx] at hctx₀
      cases hctx₀
      have hown := h.own d ctx caller hctx hcaller
      have htokens := hown.tokens
      rw [hscd] at htokens
      refine ⟨?_, fun x hx => (nomatch hx), hown.fiber, hown.got, fun _ => rfl, hown.response⟩
      show 0 + (s.threads.set i _).countP (Pc.wins d) + (s.got d).length = 1
      rw [hwinners, beq_self_eq_true]
      change 1 + s.winners d + (s.got d).length = 1 at htokens
      show 0 + (s.winners d + 1) + (s.got d).length = 1
      omega
    · have hown := h.own d ctx' caller hctx' hcaller
      refine hown.same rfl rfl hown.response ((hwinners d).trans ?_) rfl Or.inl
      rw [beq_eq_false_iff_ne.mpr (Ne.symm hne)]
      rfl

/-- The state after `scd->schedule(&fiber)`. -/
def State.handedOver (s : State) (c : Nat) (scd fiber : Nat) : State :=
  (State.put { s with scheduled := s.scheduled ++ [⟨scd, fiber, c⟩] } c
    fun ctx => { ctx with fiber := none }).ret c

theorem got_handedOver (c d scd fiber : Nat) : (s.handedOver c scd fiber).got d
      = s.got d ++ if c = d then [⟨scd, fiber, c⟩] else [] := by
  show (s.scheduled ++ [(⟨scd, fiber, c⟩ : Scheduled)]).filter (·.ctx == d) = _
  rw [filter_append, filter_singleton, State.got]
  by_cases hcd : c = d
  · rw [if_pos hcd, beq_iff_eq.mpr hcd, cond_true]
  · rw [if_neg hcd, beq_eq_false_iff_ne.mpr hcd, cond_false]

/-- The fiber is scheduled: the thread arrives. -/
theorem Inv.handedOver {fiber : Nat} (h : Inv s)
    (hi : s.threads[i]? = some (.schedule c scd rest)) (hctx : s.ctxs[c]? = some ctx)
    (hfiber : ctx.fiber = some fiber) :
    Inv { s.handedOver c scd fiber with threads := s.threads.set i (next rest) } := by
  have hwins : (Pc.schedule c scd rest).wins c = true := beq_self_eq_true c
  obtain ⟨caller₀, hcaller₀, rfl⟩ := h.threads _ (mem_of_getElem? hi)
  obtain ⟨ctx₁, caller₁, hctx₁, hcaller₁, hown, hclosed, hone, hgot, hfiber₁⟩ := h.winner hi hwins
  rw [hctx] at hctx₁
  cases hctx₁
  rw [hcaller₀] at hcaller₁
  cases hcaller₁
  rw [hfiber] at hfiber₁
  cases hfiber₁
  have hext : Extends s { s.handedOver c caller₀.scheduler caller₀.fiber with
      threads := s.threads.set i (next rest) } :=
    extends_put (c := c) rfl rfl (fun _ => rfl) fun _ h => h
  have hlt := (List.getElem?_eq_some_iff.mp hctx).1
  have hlen : ({ s.handedOver c caller₀.scheduler caller₀.fiber with
      threads := s.threads.set i (next rest) } : State).ctxs.length = s.ctxs.length :=
    length_modify ..
  -- the thread that won stops being a winner; the count of wakeups takes its place
  have hwinners : ∀ d, (s.threads.set i (next rest)).countP (Pc.wins d) + (c == d).toNat
      = s.winners d := by
    intro d
    have hset := winners_set hi (next rest) d
    rw [wins_next] at hset
    exact hset
  refine h.extend hext ?_ (threads_set (sound_next _ rest)) (fun e he => Or.inl he)
    (fun e he => ?_) (fun d hd => ?_) fun d ctx' caller hctx' hcaller => ?_
  · rw [hlen]
    exact h.length
  · rcases mem_append.mp he with he | he
    · exact Or.inl he
    · rw [hlen, mem_singleton.mp he]
      exact Or.inr hlt
  · rcases mem_cons.mp hd with rfl | hd
    · rw [hlen]
      exact Or.inr hlt
    · exact Or.inl hd
  · have hgot' := got_handedOver (s := s) c d caller₀.scheduler caller₀.fiber
    rcases getElem?_put hctx' with ⟨rfl, ctx₀, hctx₀, rfl⟩ | ⟨hne, hctx'⟩
    · change s.ctxs[d]? = some ctx₀ at hctx₀
      rw [hctx] at hctx₀
      cases hctx₀
      change s.callers[d]? = some caller at hcaller
      rw [hcaller₀] at hcaller
      cases hcaller
      rw [hgot, if_pos rfl, nil_append] at hgot'
      have hleft := hwinners d
      rw [beq_self_eq_true, hone] at hleft
      refine ⟨?_, hown.scheduler, ?_, fun e he => ?_, fun _ => hclosed, hown.response⟩
      · show _ + (s.threads.set i (next rest)).countP (Pc.wins d)
          + ((s.handedOver d caller₀.scheduler caller₀.fiber).got d).length = 1
        rw [hgot']
        show ctx.scheduler.isSome.toNat + _ + 1 = 1
        rw [hclosed]
        change _ + 1 = 1 at hleft
        show 0 + _ + 1 = 1
        omega
      · show none = if (s.handedOver d caller₀.scheduler caller₀.fiber).got d = [] then _ else _
        rw [hgot', if_neg (cons_ne_nil _ _)]
      · change e ∈ (s.handedOver d caller₀.scheduler caller₀.fiber).got d at he
        rw [hgot'] at he
        exact mem_singleton.mp he
    · have hown' := h.own d ctx' caller hctx' hcaller
      rw [if_neg (Ne.symm hne), append_nil] at hgot'
      have hleft := hwinners d
      rw [beq_eq_false_iff_ne.mpr (Ne.symm hne)] at hleft
      exact hown'.same rfl rfl hown'.response hleft hgot'
        fun hd => Or.inl ((mem_cons.mp hd).resolve_left hne)

end Accesses

/-! ## One step -/

section Step

variable {s u : State} {i c : Nat} {pc pc' : Pc} {order rest armed : List Nat} {ctx : RockCtx}

/-- An access that writes no context. -/
theorem Inv.quiet_same {m_ctxs : List (UInt32 × Nat)} {returned : List Nat} (h : Inv s)
    (hi : s.threads[i]? = some pc)
    (hreturned : ∀ d ∈ returned, d ∈ s.returned
      ∨ ∃ ctx, s.ctxs[d]? = some ctx ∧ ctx.scheduler = none)
    (hm : ∀ e ∈ m_ctxs, e ∈ s.m_ctxs ∨ ∃ ctx, s.ctxs[e.2]? = some ctx ∧ e.1 = ctx.sn)
    (hwins : ∀ d, pc'.wins d = pc.wins d) (hsound : pc'.Sound s) :
    Inv { s with m_ctxs, armed, returned, threads := s.threads.set i pc' } := by
  have hquiet : Inv { s.put 0 id with m_ctxs, armed, returned, threads := s.threads.set i pc' } :=
    h.quiet hi (fun ctx hctx => ⟨rfl, rfl, rfl, h.response hctx⟩) hreturned hm hwins hsound
  rwa [State.put, modify_id] at hquiet

/-- An access that writes neither a context nor the map. -/
theorem Inv.passed (h : Inv s) (hi : s.threads[i]? = some pc)
    (hwins : ∀ d, pc'.wins d = pc.wins d) (hsound : pc'.Sound s) :
    Inv { s with armed, threads := s.threads.set i pc' } :=
  h.quiet_same hi (fun _ hd => Or.inl hd) (fun _ he => Or.inl he) hwins hsound

/-- An access that writes one context, but not its scheduler or fiber. -/
theorem Inv.quiet_put (h : Inv s) (hi : s.threads[i]? = some pc)
    (hwins : ∀ d, pc'.wins d = pc.wins d) (hsound : pc'.Sound s)
    (hf : ∀ ctx, s.ctxs[c]? = some ctx → (f ctx).sn = ctx.sn ∧ (f ctx).scheduler = ctx.scheduler
      ∧ (f ctx).fiber = ctx.fiber
      ∧ ∀ rsp ∈ (f ctx).response, rsp ∈ ctx.response ∨ rsp.sn = ctx.sn) :
    Inv { s.put c f with armed, threads := s.threads.set i pc' } := by
  refine h.quiet hi (fun ctx hctx => ?_) (fun _ hd => Or.inl hd) (fun _ he => Or.inl he) hwins
    hsound
  obtain ⟨hsn, hscheduler, hfiber, hresponse⟩ := hf ctx hctx
  refine ⟨hsn, hscheduler, hfiber, fun rsp hrsp => ?_⟩
  rcases hresponse rsp hrsp with hrsp | hrsp
  · exact h.response hctx rsp hrsp
  · exact hrsp

/-- A `doRsp` that finds the context closed returns. -/
theorem Inv.lost (h : Inv s) (hi : s.threads[i]? = some pc) (hctx : s.ctxs[c]? = some ctx)
    (hnone : ctx.scheduler = none) (hwins : ∀ d, pc.wins d = false) :
    Inv { s.ret c with threads := s.threads.set i (next rest) } := by
  refine h.quiet_same hi (fun d hd => ?_) (fun e he => Or.inl he)
    (fun d => by rw [wins_next, hwins]) (sound_next s rest)
  rcases mem_cons.mp hd with rfl | hd
  · exact Or.inr ⟨ctx, hctx, hnone⟩
  · exact Or.inl hd

/-- What a `doRsp` that has read the scheduler knows. -/
theorem Inv.sound_read (h : Inv s) (hctx : s.ctxs[c]? = some ctx) :
    (Pc.compareAndSwap c ctx.scheduler rest).Sound s := by
  cases hscd : ctx.scheduler with
  | none => exact ⟨ctx, hctx, hscd⟩
  | some scd =>
    obtain ⟨caller, hcaller, hown⟩ := h.known hctx
    exact ⟨caller, hcaller, hown.scheduler scd hscd⟩

/-- The swap fails only on a context that was closed. -/
theorem Inv.closed_of_ne {scd : Option Nat} (h : Inv s)
    (hsound : (Pc.compareAndSwap c scd rest).Sound s) (hctx : s.ctxs[c]? = some ctx)
    (hne : ctx.scheduler ≠ scd) : ctx.scheduler = none := by
  obtain ⟨caller, hcaller, hown⟩ := h.known hctx
  cases hctxScd : ctx.scheduler with
  | none => rfl
  | some x =>
    have hx := hown.scheduler x hctxScd
    cases scd with
    | none =>
      obtain ⟨ctx₀, hctx₀, hnone⟩ := hsound
      rw [hctx] at hctx₀
      cases hctx₀
      exact absurd hnone hne
    | some y =>
      obtain ⟨caller₀, hcaller₀, hy⟩ := hsound
      rw [hcaller] at hcaller₀
      cases hcaller₀
      exact absurd (hctxScd.trans (by rw [hx, hy])) hne

theorem mem_insertSn {sn : UInt32} {e : UInt32 × Nat} (he : e ∈ (s.insertSn sn c).m_ctxs) :
    e ∈ s.m_ctxs ∨ e = (sn, c) := by
  rw [State.insertSn] at he
  split at he
  · exact Or.inl he
  · exact (mem_cons.mp he).symm

theorem mem_of_find {sn : UInt32} (h : s.find sn = some c) : (sn, c) ∈ s.m_ctxs := by
  obtain ⟨l₁, l₂, hsplit, -⟩ := lookup_eq_some_iff.mp h
  rw [hsplit]
  exact mem_append_right _ mem_cons_self

/-- One access of a thread keeps the invariant. -/
theorem advance_inv (h : Inv s) (hi : s.threads[i]? = some pc)
    (hstep : advance s order pc = some (u, pc')) :
    Inv { u with threads := u.threads.set i pc' } := by
  have hsound := h.threads pc (mem_of_getElem? hi)
  cases pc with
  | addCtx c =>
    obtain ⟨ctx, hctx, heq⟩ := Option.map_eq_some_iff.mp hstep
    cases heq
    refine h.quiet_same hi (fun _ hd => Or.inl hd) (fun e he => ?_) (fun _ => rfl) trivial
    rcases mem_insertSn he with he | rfl
    · exact Or.inl he
    · exact Or.inr ⟨ctx, hctx, rfl⟩
  | addTimer c | enqueue c | yieldToHold c =>
    cases hstep
    exact h.passed hi (fun _ => rfl) trivial
  | setTimer c | setTimed c | ioError c rest =>
    cases hstep
    exact h.quiet_put hi (fun _ => rfl) trivial fun _ _ => ⟨rfl, rfl, rfl, fun _ => Or.inl⟩
  | erase c =>
    obtain ⟨ctx, hctx, heq⟩ := Option.map_eq_some_iff.mp hstep
    cases heq
    exact h.quiet_same hi (fun _ hd => Or.inl hd)
      (fun e he => Or.inl (mem_filter.mp he).1) (fun _ => rfl) trivial
  | getAndDelCtx rsp =>
    rw [advance] at hstep
    cases hfind : s.find rsp.sn with
    | none =>
      rw [hfind] at hstep
      cases hstep
      exact h.passed hi (fun _ => rfl) trivial
    | some c =>
      rw [hfind] at hstep
      cases hstep
      exact h.quiet_same hi (fun _ hd => Or.inl hd)
        (fun e he => Or.inl (mem_filter.mp he).1) (fun _ => rfl)
        (h.m_ctxs _ (mem_of_find hfind))
  | setResult c rsp =>
    cases hstep
    exact h.quiet_put hi (fun _ => rfl) hsound fun _ _ => ⟨rfl, rfl, rfl, fun _ => Or.inl⟩
  | setResponse c rsp =>
    cases hstep
    obtain ⟨ctx₀, hctx₀, hsn⟩ := hsound
    refine h.quiet_put hi (fun _ => rfl) trivial fun ctx hctx => ⟨rfl, rfl, rfl, ?_⟩
    rintro _ ⟨⟩
    rw [hctx₀] at hctx
    cases hctx
    exact Or.inr hsn
  | swapCtxs =>
    rw [advance] at hstep
    split at hstep
    · cases hstep
      exact h.quiet_same hi (fun _ hd => Or.inl hd) (fun e he => absurd he not_mem_nil)
        (fun d => wins_next d order) (sound_next s order)
    · exact nomatch hstep
  | readScheduler c rest =>
    obtain ⟨ctx, hctx, heq⟩ := Option.map_eq_some_iff.mp hstep
    cases heq
    exact h.passed hi (fun _ => rfl) (h.sound_read hctx)
  | compareAndSwap c scd rest =>
    obtain ⟨ctx, hctx, heq⟩ := Option.map_eq_some_iff.mp hstep
    split at heq
    · rename_i hscd
      cases heq
      cases scd with
      | none =>
        -- A null pointer swapped against a null pointer.
        refine h.quiet_put hi (fun _ => rfl) hsound fun ctx₀ hctx₀ => ?_
        rw [hctx] at hctx₀
        cases hctx₀
        exact ⟨rfl, hscd.symm, rfl, fun _ => Or.inl⟩
      | some scd => exact h.swapped hi hctx hscd
    · rename_i hne
      cases heq
      exact h.lost hi hctx (h.closed_of_ne hsound hctx hne) fun _ => rfl
  | check c scd rest =>
    obtain ⟨ctx, hctx, heq⟩ := Option.map_eq_some_iff.mp hstep
    cases scd with
    | none =>
      cases heq
      obtain ⟨ctx₀, hctx₀, hnone⟩ := hsound
      exact h.lost hi hctx₀ hnone fun _ => rfl
    | some scd =>
      obtain ⟨fiber, hfiber⟩ := h.winner_fiber hi (beq_self_eq_true c) hctx
      simp only [hfiber] at heq
      cases heq
      exact h.passed hi (fun _ => rfl) hsound
  | cancelTimer c scd rest =>
    obtain ⟨ctx, hctx, heq⟩ := Option.map_eq_some_iff.mp hstep
    split at heq
    · cases heq
      exact h.quiet_put hi (fun _ => rfl) hsound fun _ _ => ⟨rfl, rfl, rfl, fun _ => Or.inl⟩
    · cases heq
      exact h.passed hi (fun _ => rfl) hsound
  | checkTimed c scd rest =>
    cases hstep
    refine h.quiet_put hi (fun _ => rfl) hsound fun ctx hctx => ?_
    cases ctx.timed <;> exact ⟨rfl, rfl, rfl, fun _ => Or.inl⟩
  | schedule c scd rest =>
    obtain ⟨ctx, hctx, heq⟩ := Option.map_eq_some_iff.mp hstep
    obtain ⟨fiber, hfiber⟩ := h.winner_fiber hi (beq_self_eq_true c) hctx
    simp only [hfiber] at heq
    cases heq
    exact h.handedOver hi hctx hfiber
  | done => exact nomatch hstep

/-- A new thread that is not on its way. -/
theorem Inv.spawn (h : Inv s) (armed : List Nat) (hsound : pc.Sound s)
    (hwins : ∀ d, pc.wins d = false) : Inv (State.spawn { s with armed } pc) := by
  refine h.extend ⟨fun c ctx hctx => ⟨ctx, hctx, rfl, id⟩, fun c caller hcaller => hcaller⟩
    h.length (fun pc' hpc' => ?_) (fun e he => Or.inl he) (fun e he => Or.inl he)
    (fun c hc => Or.inl hc) fun c ctx caller hctx hcaller => ?_
  · rcases mem_append.mp hpc' with hpc' | hpc'
    · exact Or.inl hpc'
    · rw [mem_singleton.mp hpc']
      exact Or.inr hsound
  · have hown := h.own c ctx caller hctx hcaller
    refine hown.same rfl rfl hown.response ?_ rfl Or.inl
    show (s.threads ++ [pc]).countP (Pc.wins c) = _
    rw [countP_append, countP_singleton, hwins]
    rfl

/-- Nothing is known about a context that has not been made. -/
theorem Inv.fresh (h : Inv s) (hc : s.ctxs.length ≤ c) :
    s.winners c = 0 ∧ s.got c = [] ∧ c ∉ s.returned := by
  refine ⟨countP_eq_zero.mpr fun pc hpc hwins => ?_,
    filter_eq_nil_iff.mpr fun e he hctx => ?_, fun hret => ?_⟩
  · obtain ⟨i, hi⟩ := getElem?_of_mem hpc
    obtain ⟨ctx, -, hctx, -⟩ := h.winner hi hwins
    exact Nat.not_lt.mpr hc (List.getElem?_eq_some_iff.mp hctx).1
  · have hlt := h.scheduled e he
    rw [beq_iff_eq.mp hctx] at hlt
    exact Nat.not_lt.mpr hc hlt
  · exact Nat.not_lt.mpr hc (h.returned c hret)

/-- **A request begins**: its context is open. -/
theorem Inv.request (h : Inv s) (sn : UInt32) (caller : Caller) : Inv { s with
      ctxs := s.ctxs ++ [⟨sn, 0, false, some caller.scheduler, some caller.fiber, false, none⟩]
      callers := s.callers ++ [caller] } := by
  refine h.extend ⟨fun c ctx hctx => ⟨ctx, ?_, rfl, id⟩, fun c caller' hcaller => ?_⟩ ?_
    (fun pc hpc => Or.inl hpc) (fun e he => Or.inl he) (fun e he => Or.inl he)
    (fun c hc => Or.inl hc) fun c ctx caller' hctx hcaller => ?_
  · exact (List.getElem?_append_left (List.getElem?_eq_some_iff.mp hctx).1).trans hctx
  · exact (List.getElem?_append_left (List.getElem?_eq_some_iff.mp hcaller).1).trans hcaller
  · rw [length_append, length_append, h.length]
    rfl
  · by_cases hc : c < s.ctxs.length
    · rw [List.getElem?_append_left hc] at hctx
      rw [List.getElem?_append_left (h.length ▸ hc)] at hcaller
      have hown := h.own c ctx caller' hctx hcaller
      exact hown.same rfl rfl hown.response rfl rfl Or.inl
    · obtain ⟨hwinners, hgot, hret⟩ := h.fresh (Nat.le_of_not_lt hc)
      rw [getElem?_append_right (Nat.le_of_not_lt hc), getElem?_singleton] at hctx
      rw [getElem?_append_right (h.length ▸ Nat.le_of_not_lt hc), getElem?_singleton] at hcaller
      split at hctx
      · cases hctx
        split at hcaller
        · cases hcaller
          refine ⟨?_, fun scd hscd => (Option.some.inj hscd).symm, ?_, fun e he => ?_,
            fun hmem => absurd hmem hret, fun rsp hrsp => nomatch hrsp⟩
          · show 1 + s.winners c + (s.got c).length = 1
            rw [hwinners, hgot]
            rfl
          · show some caller.fiber = if s.got c = [] then some caller.fiber else none
            rw [if_pos hgot]
          · change e ∈ s.got c at he
            rw [hgot] at he
            exact absurd he not_mem_nil
        · exact nomatch hcaller
      · exact nomatch hctx

/-- **STEP LEMMA.** -/
theorem step_inv {l : Label} (h : Inv s) (hstep : step s l = some u) : Inv u := by
  cases l with
  | request sn caller =>
    cases hstep
    exact (h.request sn caller).spawn s.armed trivial fun _ => rfl
  | response rsp | innerClose =>
    cases hstep
    exact h.spawn s.armed trivial fun _ => rfl
  | expire c | doRsp c =>
    rw [step] at hstep
    split at hstep
    · cases hstep
      exact h.spawn _ trivial fun _ => rfl
    · exact nomatch hstep
  | move i order =>
    rw [step] at hstep
    split at hstep
    · exact nomatch hstep
    · rename_i pc hi
      obtain ⟨⟨v, pc'⟩, hadv, heq⟩ := Option.map_eq_some_iff.mp hstep
      cases heq
      exact advance_inv h hi hadv

private theorem inv_of_reaches (h : Reaches step (fun _ _ => True) init s) : Inv s :=
  h.inv init_inv fun hinv _ hstep => step_inv hinv hstep

end Step

/-! ## What a step schedules -/

section Scheduling

variable {s u : State} {i c : Nat} {pc pc' : Pc} {rest : List Nat}

/-- Only one access of `doRsp` schedules, and only for its own context. -/
theorem scheduled_of_advance {order : List Nat} (h : advance s order pc = some (u, pc')) :
    u.scheduled = s.scheduled ∨ ∃ d scd rest, pc = .schedule d scd rest
      ∧ ∃ es : List Scheduled, u.scheduled = s.scheduled ++ es ∧ ∀ e ∈ es, e.ctx = d := by
  cases pc with
  | schedule d scd rest =>
    obtain ⟨ctx, -, heq⟩ := Option.map_eq_some_iff.mp h
    cases heq
    refine Or.inr ⟨d, scd, rest, rfl, _, rfl, fun e he => ?_⟩
    obtain ⟨fiber, -, rfl⟩ := mem_map.mp he
    rfl
  | addCtx c | erase c | readScheduler c rest =>
    obtain ⟨ctx, -, heq⟩ := Option.map_eq_some_iff.mp h
    cases heq
    exact Or.inl rfl
  | getAndDelCtx rsp =>
    rw [advance] at h
    split at h <;> cases h <;> exact Or.inl rfl
  | swapCtxs =>
    rw [advance] at h
    split at h
    · cases h
      exact Or.inl rfl
    · exact nomatch h
  | compareAndSwap c scd rest | check c scd rest | cancelTimer c scd rest =>
    obtain ⟨ctx, -, heq⟩ := Option.map_eq_some_iff.mp h
    split at heq <;> cases heq <;> exact Or.inl rfl
  | done => exact nomatch h
  | _ =>
    cases h
    exact Or.inl rfl

/-- No other context's step schedules the fiber. -/
theorem got_of_step {l : Label} (h : step s l = some u) (hne : u.got c ≠ s.got c) :
    ∃ i order scd rest, l = .move i order ∧ s.threads[i]? = some (.schedule c scd rest) := by
  have hsame : u.scheduled ≠ s.scheduled := by
    intro heq
    rw [State.got, State.got, heq] at hne
    exact hne rfl
  cases l with
  | request sn caller | response rsp | innerClose =>
    cases h
    exact absurd rfl hsame
  | expire c | doRsp c =>
    rw [step] at h
    split at h
    · cases h
      exact absurd rfl hsame
    · exact nomatch h
  | move i order =>
    rw [step] at h
    split at h
    · exact nomatch h
    · rename_i pc hi
      obtain ⟨⟨v, pc'⟩, hadv, heq⟩ := Option.map_eq_some_iff.mp h
      cases heq
      rcases scheduled_of_advance hadv with heq | ⟨d, scd, rest, rfl, es, heq, hes⟩
      · exact absurd heq hsame
      · by_cases hd : d = c
        · subst hd
          exact ⟨i, order, scd, rest, rfl, hi⟩
        · -- What was added is for another context.
          have hother : es.filter (·.ctx == c) = [] := filter_eq_nil_iff.mpr fun e he hctx =>
              hd ((hes e he).symm.trans (beq_iff_eq.mp hctx))
          refine absurd ?_ hne
          show v.scheduled.filter _ = _
          rw [heq, filter_append, hother, append_nil]
          rfl

/-- The thread's own next `k` steps have the fiber scheduled. -/
def Arrives (s : State) (i c k : Nat) : Prop :=
  ∃ t, exec step s (List.replicate k (.move i [])) = some t ∧ t.got c ≠ []

theorem Inv.arrives {k : Nat} (h : Inv s) (hi : s.threads[i]? = some pc)
    (hadv : advance s [] pc = some (u, pc')) (hthreads : u.threads = s.threads)
    (hrest : ∀ {t}, Inv t → t.threads[i]? = some pc' → Arrives t i c k) :
    Arrives s i c (k + 1) := by
  have hmoved : (u.threads.set i pc')[i]? = some pc' := by
    rw [hthreads]
    exact List.getElem?_set_self (List.getElem?_eq_some_iff.mp hi).1
  obtain ⟨t, hexec, hgot⟩ := hrest (advance_inv h hi hadv) hmoved
  refine ⟨t, ?_, hgot⟩
  have hstep : step s (.move i []) = some { u with threads := u.threads.set i pc' } := by
    rw [step, hi]
    simp only [hadv, Option.map_some]
  rw [replicate_succ, exec, hstep]
  exact hexec

theorem Inv.arrives_schedule (h : Inv s)
    (hi : s.threads[i]? = some (.schedule c scd rest)) : Arrives s i c 1 := by
  obtain ⟨ctx, caller, hctx, -, -, -, -, -, hfiber⟩ := h.winner hi (beq_self_eq_true c)
  have hstep : step s (.move i []) = some
      { s.handedOver c scd caller.fiber with threads := s.threads.set i (next rest) } := by
    simp only [step, hi, advance, hctx, Option.map_some, hfiber, Option.toList_some,
      map_cons, map_nil]
    rfl
  refine ⟨_, by rw [replicate_one, exec, hstep]; rfl, ?_⟩
  show (s.handedOver c scd caller.fiber).got c ≠ []
  rw [got_handedOver, if_pos rfl]
  exact append_ne_nil_of_right_ne_nil _ (cons_ne_nil _ _)

theorem Inv.arrives_checkTimed (h : Inv s)
    (hi : s.threads[i]? = some (.checkTimed c scd rest)) : Arrives s i c 2 :=
  h.arrives hi rfl rfl fun hinv hi' => hinv.arrives_schedule hi'

theorem Inv.arrives_cancelTimer (h : Inv s)
    (hi : s.threads[i]? = some (.cancelTimer c scd rest)) : Arrives s i c 3 := by
  obtain ⟨ctx, caller, hctx, -⟩ := h.winner hi (beq_self_eq_true c)
  have hadv : ∃ u, advance s [] (.cancelTimer c scd rest) = some (u, .checkTimed c scd rest)
      ∧ u.threads = s.threads := by
    rw [advance, hctx, Option.map_some]
    split
    · exact ⟨_, rfl, rfl⟩
    · exact ⟨_, rfl, rfl⟩
  obtain ⟨u, hadv, hthreads⟩ := hadv
  exact h.arrives hi hadv hthreads fun hinv hi' => hinv.arrives_checkTimed hi'

theorem Inv.arrives_check (h : Inv s)
    (hi : s.threads[i]? = some (.check c (some scd) rest)) : Arrives s i c 4 := by
  obtain ⟨ctx, caller, hctx, -, -, -, -, -, hfiber⟩ := h.winner hi (beq_self_eq_true c)
  have hadv : advance s [] (.check c (some scd) rest) = some (s, .cancelTimer c scd rest) := by
    simp only [advance, hctx, Option.map_some, hfiber]
  exact h.arrives hi hadv rfl fun hinv hi' => hinv.arrives_cancelTimer hi'

/-- The first `doRsp` to swap schedules the fiber by its own steps. -/
theorem Inv.winner_arrives (h : Inv s) (hi : s.threads[i]? = some pc)
    (hwins : pc.wins c = true) : ∃ k ≤ 4, Arrives s i c k := by
  cases pc with
  | check d scd rest =>
    cases scd with
    | none => exact nomatch hwins
    | some scd =>
      obtain rfl := beq_iff_eq.mp hwins
      exact ⟨4, Nat.le_refl 4, h.arrives_check hi⟩
  | cancelTimer d scd rest =>
    obtain rfl := beq_iff_eq.mp hwins
    exact ⟨3, by decide, h.arrives_cancelTimer hi⟩
  | checkTimed d scd rest =>
    obtain rfl := beq_iff_eq.mp hwins
    exact ⟨2, by decide, h.arrives_checkTimed hi⟩
  | schedule d scd rest =>
    obtain rfl := beq_iff_eq.mp hwins
    exact ⟨1, by decide, h.arrives_schedule hi⟩
  | _ => exact nomatch hwins

/-- A `doRsp` has returned: the fiber is scheduled, or a thread is on its way. -/
theorem Inv.returned_got (h : Inv s) (hc : c ∈ s.returned) :
    s.got c ≠ [] ∨ ∃ (i : Nat) (pc : Pc), s.threads[i]? = some pc ∧ pc.wins c = true := by
  have hctx := getElem?_eq_getElem (h.returned c hc)
  obtain ⟨caller, -, hown⟩ := h.known hctx
  have htokens := hown.tokens
  rw [hown.returned hc] at htokens
  change 0 + s.winners c + (s.got c).length = 1 at htokens
  by_cases hgot : s.got c = []
  · rw [hgot, length_nil] at htokens
    have hpos : 0 < s.winners c := by omega
    obtain ⟨pc, hpc, hwins⟩ := countP_pos_iff.mp hpos
    obtain ⟨i, hi⟩ := getElem?_of_mem hpc
    exact Or.inr ⟨i, pc, hi, hwins⟩
  · exact Or.inl hgot

/-- At most once, and to the caller's own scheduler. -/
theorem Inv.got_once {caller : Caller} (h : Inv s) (hcaller : s.callers[c]? = some caller) :
    s.got c = [] ∨ s.got c = [⟨caller.scheduler, caller.fiber, c⟩] := by
  have hlt := (List.getElem?_eq_some_iff.mp hcaller).1
  rw [h.length] at hlt
  have hown := h.own c _ caller (getElem?_eq_getElem hlt) hcaller
  have htokens := hown.tokens
  match hgot : s.got c with
  | [] => exact Or.inl rfl
  | [e] =>
    have he := hown.got e (hgot ▸ mem_singleton_self e)
    exact Or.inr (by rw [he])
  | a :: b :: rest =>
    rw [hgot, length_cons, length_cons] at htokens
    omega

end Scheduling

/-! ## Every run -/

/-- **REQUESTS AND RESPONSES.**  Over every run, whatever numbers the requests have: a
fiber is scheduled at most once, at its caller's scheduler, by a `doRsp` on its own
context; once such a `doRsp` has returned, the fiber was scheduled or the next four
steps of the `doRsp` that swapped first do so; and a response has its context's number. -/
theorem requests_matched {s : State} (h : Reaches step (fun _ _ => True) init s) :
    (∀ (c : Nat) caller, s.callers[c]? = some caller →
      s.got c = [] ∨ s.got c = [⟨caller.scheduler, caller.fiber, c⟩])
    ∧ (∀ c ∈ s.returned,
      s.got c ≠ [] ∨ ∃ (i : Nat) (pc : Pc), s.threads[i]? = some pc ∧ pc.wins c = true)
    ∧ (∀ (c i : Nat) (pc : Pc), s.threads[i]? = some pc → pc.wins c = true →
      ∃ k ≤ 4, ∃ t, exec step s (List.replicate k (.move i [])) = some t ∧ t.got c ≠ [])
    ∧ (∀ l t c, step s l = some t → t.got c ≠ s.got c →
      ∃ i order scd rest, l = .move i order ∧ s.threads[i]? = some (.schedule c scd rest))
    ∧ ∀ (c : Nat) (ctx : RockCtx), s.ctxs[c]? = some ctx →
      ∀ rsp ∈ ctx.response, rsp.sn = ctx.sn := by
  have hinv := inv_of_reaches h
  exact ⟨fun c caller hcaller => hinv.got_once hcaller, fun c hc => hinv.returned_got hc,
    fun c i pc hi hwins => hinv.winner_arrives hi hwins,
    fun l t c hstep hne => got_of_step hstep hne, fun c ctx hctx => hinv.response hctx⟩

/-- Fiber 7 asks with number 1 and gets its response; its `doRsp` has swapped the scheduler when the
timer fires. -/
def raced : List Label :=
  [.request 1 ⟨3, 7⟩, .move 0 [], .move 0 [], .move 0 [], .move 0 [], .move 0 [],
   .response ⟨1, 0⟩, .move 1 [], .move 1 [], .move 1 [], .move 1 [], .move 1 [],
   .expire 0, .move 2 [], .move 2 [], .move 2 [], .move 2 [], .move 2 []]

theorem requests_matched_raced : ∃ s, exec step init raced = some s ∧ 0 ∈ s.returned
      ∧ ∃ k ≤ 4, ∃ t, exec step s (List.replicate k (.move 1 [])) = some t ∧ t.got 0 ≠ [] := by
  have hrun : exec step init raced = some _ := rfl
  have halong : Along step (fun _ _ => True) init raced := along_of_forall fun _ _ _ => trivial
  obtain ⟨-, -, harrives, -⟩ := requests_matched (reaches_of_exec halong hrun)
  exact ⟨_, hrun, by decide, harrives 0 1 _ rfl rfl⟩

/-- **The timeout's `doRsp` returns first**, while the fiber waits for the thread of the response.
-/
theorem timeout_returns_first :
    ∃ s, exec step init raced = some s ∧ s.threads[2]? = some .done ∧ 0 ∈ s.returned
      ∧ s.got 0 = [] ∧ s.threads[1]? = some (.check 0 (some 3) []) :=
  ⟨_, rfl, by decide⟩

end SylarAsyncRequest
