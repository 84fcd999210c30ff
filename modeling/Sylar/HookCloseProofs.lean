import Sylar.HookTimeoutProofs

/-! # Closing a descriptor under a parked call (`hook.cc`, `iomanager.cc`)

`close(fd)` cancels the events of the descriptor, so that a parked call is
resumed; `do_io` then goes back to `retry` and calls the kernel again, on a
number that is closed or belongs to somebody else by then.  What it does look
at is `tinfo->cancelled`, which only the timer sets.

* **`no_io_after_close`** — when no call touches the number after `close` has returned.
* **`read_from_reused`** — a parked `read` that is given data of the next
  socket with the same number. -/

namespace SylarHookIo

open StepSystem SylarFdManager

/-- The call is on its way to look at `tinfo->cancelled`, or to return `-1`. -/
def State.onWayBack (s : State) : Bool :=
  match s.pc with
  | .YieldToHold | .parked => s.scheduled
  | .cancelTimer | .look | .addFailed _ => true
  | _ => false

/-- `close` has returned. -/
def State.closed (s : State) : Bool :=
  match s.closer with
  | .returned _ => true
  | _ => false

/-- After `close` has returned the call does not touch the number; if it had not returned by then,
it returns `-1`. -/
structure NoIo (s : State) : Prop where
  untouched : s.touched = []
  returns : s.closer = .returned false →
    s.onWayBack = true ∨ ∃ e, s.pc = .done (.error e)

/-- A parked call is closed; when the kernel closes the number the call is on its way back or has
returned; when it looks at `cancelled` after that, the timeout has fired. -/
def ClosesInTime (s : State) : Label → Prop
  | .close =>
    (s.closer = .idle → s.pc = .parked)
      ∧ (s.closer = .close_f → s.pc.finished = true ∨ s.onWayBack = true)
  | .call _ => s.closed = true → s.pc = .look → s.cancelled = true
  | _ => True

instance (s : State) (l : Label) : Decidable (ClosesInTime s l) :=
  match l with
  | .close => inferInstanceAs (Decidable ((_ → _) ∧ (_ → _ ∨ _)))
  | .call _ => inferInstanceAs (Decidable (s.closed = true → s.pc = .look → _))
  | .expire | .callback | .cancelEvent | .ready | .resume | .reuse _ =>
    inferInstanceAs (Decidable True)

/-- What holds in every state of such a run. -/
structure CloseInv (s : State) : Prop where
  untouched : s.touched = []
  finished : s.closer = .returned true → s.pc.finished = true
  epoll : ∀ b, s.closer = .returned b → s.epoll = false
  returns : s.closer = .returned false →
    s.onWayBack = true ∨ ∃ e, s.pc = .done (.error e)

private theorem init_closeInv : CloseInv init := by
  constructor <;> simp [init]

variable {s t : State}

/-- `close` has not returned yet. -/
theorem CloseInv.before (hs : CloseInv s) (hcl : ∀ b, s.closer ≠ .returned b)
    (htouched : t.touched = s.touched) (hcloser : t.closer = s.closer) : CloseInv t := by
  have hno (b : Bool) : t.closer ≠ .returned b := hcloser ▸ hcl b
  refine ⟨htouched.trans hs.untouched, ?_, ?_, ?_⟩
  · intro h
    exact absurd h (hno _)
  · intro b h
    exact absurd h (hno _)
  · intro h
    exact absurd h (hno _)

/-- A step that leaves the place of the call and the queue as they are. -/
theorem CloseInv.frame (hs : CloseInv s) (htouched : t.touched = s.touched)
    (hcloser : t.closer = s.closer) (hepoll : s.epoll = false → t.epoll = false) (hpc : t.pc = s.pc)
    (hsched : s.scheduled = true → t.scheduled = true) : CloseInv t := by
  refine ⟨htouched.trans hs.untouched, ?_, ?_, ?_⟩
  · intro h
    rw [hpc]
    exact hs.finished (hcloser ▸ h)
  · intro b h
    exact hepoll (hs.epoll b (hcloser ▸ h))
  · intro h
    rcases hs.returns (hcloser ▸ h) with hback | hdone
    · left
      unfold State.onWayBack at hback ⊢
      rw [hpc]
      split at hback
      · exact hsched hback
      · exact hsched hback
      · rfl
      · rfl
      · rfl
      · cases hback
    · right
      rw [hpc]
      exact hdone

/-- The call moves on its way back after `close` has returned. -/
theorem CloseInv.move (hs : CloseInv s) (hrun : s.pc.finished = false)
    (htouched : t.touched = s.touched) (hcloser : t.closer = s.closer) (hepoll : t.epoll = s.epoll)
    (hback : t.onWayBack = true ∨ ∃ e, t.pc = .done (.error e)) : CloseInv t := by
  refine ⟨htouched.trans hs.untouched, ?_, ?_, fun _ => hback⟩
  · intro h
    rw [hs.finished (hcloser ▸ h)] at hrun
    cases hrun
  · intro b h
    rw [hepoll]
    exact hs.epoll b (hcloser ▸ h)

variable {timeout_so : TimeoutType} {ctx : Option FdCtx} {l : Label}

/-- One step after `close` keeps the invariant. -/
theorem returned_closeInv (hs : CloseInv s) (hc : ClosesInTime s l) {b : Bool}
    (hb : s.closer = .returned b) (h : Moves ⟨.do_io timeout_so, ctx⟩ s l t) : CloseInv t := by
  have hep := hs.epoll b hb
  -- the places a call can be at after `close`
  have hplace : s.onWayBack = true ∨ s.pc.finished = true := by
    cases b with
    | true => exact Or.inr (hs.finished hb)
    | false =>
      refine (hs.returns hb).imp_right ?_
      rintro ⟨e, he⟩
      rw [he]
      rfl
  cases h with
  | enter hpc | plain hpc | retry hpc | arm hpc | addEvent hpc | addFails hpc
  | getsockopt hpc =>
    -- a call that is not on its way back
    simp [State.onWayBack, hpc, Pc.finished] at hplace
  | YieldToHold hpc =>
    have hsched : s.scheduled = true := by
      simpa [State.onWayBack, hpc, Pc.finished] using hplace
    exact hs.move (by rw [hpc]; rfl) rfl rfl rfl (Or.inl hsched)
  | cancelTimer hpc =>
    exact hs.move (by rw [hpc]; rfl) rfl rfl rfl (Or.inl rfl)
  | timedOut hpc hcan =>
    exact hs.move (by rw [hpc]; rfl) rfl rfl rfl (Or.inr ⟨_, rfl⟩)
  | goesOn hpc hcan =>
    rw [hc (by rw [State.closed, hb]) hpc] at hcan
    cases hcan
  | addFailed hpc => exact hs.move (by rw [hpc]; rfl) rfl rfl rfl (Or.inr ⟨_, rfl⟩)
  | expire | stale | fire | nothingToCancel => exact hs.frame rfl rfl id rfl id
  | cancelEvent hfire hreg hep' | ready hreg hep' =>
    rw [hep] at hep'
    cases hep'
  | resume hpc hsched =>
    exact hs.move (by rw [hpc]; rfl) rfl rfl rfl (Or.inl rfl)
  | close hcl | cancelAll hcl | cancelNone hcl | del hcl | close_f hcl =>
    rw [hb] at hcl
    cases hcl
  | reuse hfile => exact hs.frame rfl rfl (fun _ => rfl) rfl id

/-- One step keeps the invariant. -/
theorem step_closeInv (hs : CloseInv s) (hc : ClosesInTime s l)
    (h : Moves ⟨.do_io timeout_so, ctx⟩ s l t) : CloseInv t := by
  by_cases hret : ∃ b, s.closer = .returned b
  · obtain ⟨b, hb⟩ := hret
    exact returned_closeInv hs hc hb h
  · have hcl (b : Bool) : s.closer ≠ .returned b := fun hb => hret ⟨b, hb⟩
    have htouch := touch_of_not_returned hcl
    cases h with
    | enter | arm | YieldToHold | cancelTimer | timedOut | goesOn | addFailed | expire
    | stale | fire | cancelEvent | nothingToCancel | ready | resume | reuse =>
      exact hs.before hcl rfl rfl
    | plain | retry | addEvent | addFails | getsockopt =>
      rw [htouch]
      exact hs.before hcl rfl rfl
    | close | cancelAll | cancelNone | del =>
      refine ⟨hs.untouched, ?_, ?_, ?_⟩
      · intro h
        cases h
      · intro b h
        cases h
      · intro h
        cases h
    | close_f hclose =>
      -- here the condition says where the call is
      refine ⟨hs.untouched, ?_, fun _ _ => rfl, ?_⟩
      · intro h
        exact ClosePc.returned.inj h
      · intro h
        have hrun : s.pc.finished = false := ClosePc.returned.inj h
        refine Or.inl ((hc.2 hclose).resolve_left fun hfin => ?_)
        rw [hrun] at hfin
        cases hfin

/-- **No I/O on a closed descriptor, if the timeout has fired.**  Let a hooked call be parked
while another fiber closes its descriptor.  In every run in which the call is on its way
back when the kernel closes the number, and finds its timeout fired when it looks after
that: it has not touched the number after `close` returned, and it returns `-1`. -/
theorem no_io_after_close {timeout_so : TimeoutType} {ctx : Option FdCtx} {s : State}
    (h : Reaches (step ⟨.do_io timeout_so, ctx⟩) ClosesInTime init s) : NoIo s := by
  have hs : CloseInv s :=
    h.inv init_closeInv fun ha hc hstep => step_closeInv ha hc (step_moves hstep)
  exact ⟨hs.untouched, hs.returns⟩

/-- A parked `read` whose descriptor is closed, after its timer has expired. -/
def closedAfterTimeout : List Label :=
  [.call (.value 0), .call (.error .EAGAIN), .call (.value 0), .call (.value 0),
    .call (.value 0), .expire, .callback, .close, .close, .close, .close, .reuse 1,
    .cancelEvent, .resume, .call (.value 0), .call (.value 0)]

theorem no_io_after_close_read : ∃ s, exec (step readCall) init closedAfterTimeout = some s
      ∧ s.closer = .returned false ∧ s.pc = .done (.error .ETIMEDOUT) ∧ NoIo s := by
  have hrun : exec (step readCall) init closedAfterTimeout = some _ := rfl
  have hin : Along (step readCall) ClosesInTime init closedAfterTimeout := by
    decide +kernel
  exact ⟨_, hrun, rfl, rfl, no_io_after_close (reaches_of_exec hin hrun)⟩

/-- **A read from somebody else's socket**: `close` resumes a parked `read`, the number is handed
out again, and five bytes of the new socket are read. -/
theorem read_from_reused : ∃ s, exec (step readCall) init
        [.call (.value 0), .call (.error .EAGAIN), .call (.value 0), .call (.value 0),
          .call (.value 0), .close, .close, .close, .close, .reuse 1, .resume,
          .call (.value 0), .call (.value 0), .call (.value 5)] = some s
      ∧ s.closer = .returned false ∧ s.touched = [some 1] ∧ s.pc = .done (.value 5)
      ∧ ¬ NoIo s := by
  refine ⟨_, rfl, rfl, rfl, rfl, fun h => ?_⟩
  exact absurd h.untouched (by decide)

end SylarHookIo
