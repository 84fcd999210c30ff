import Sylar.HookIoProofs

/-! # A hooked call with a timeout comes back (`hook.cc`)

The timer of a hooked call is armed before the event is registered, and its
callback runs on another thread.  A callback that runs in between finds no
event to cancel, and nobody cancels it later.

* **`comes_back`** — when a parked call has somebody who will cancel its event. -/

namespace SylarHookIo

open StepSystem

/-- An expiry callback that will cancel the registered event is still to run. -/
def State.willCancel (s : State) : Prop :=
  0 < s.firing ∨ 0 < s.expired ∧ s.cancelled = false

/-- A parked call with its event registered has a timer or such a callback. -/
def Watched (s : State) : Prop :=
  s.pc = .parked → s.registered = true → s.armed = true ∨ s.willCancel

/-- A call that was resumed after the timeout has returned `ETIMEDOUT`, or its
next steps lead there. -/
def TimesOut (c : Call) (s : State) : Prop :=
  s.late = true →
    s.pc = .done (.error .ETIMEDOUT)
      ∨ ∃ ls t, exec (step c) s ls = some t ∧ t.pc = .done (.error .ETIMEDOUT)
        ∧ (∀ l ∈ ls, ∃ a, l = .call a)

/-- A step of the call, its timer or the kernel; the event is registered before the callback of an
expired timer has set `cancelled`, or while it still has to call `cancelEvent`. -/
def InTime (s : State) : Label → Prop
  | .call _ => s.pc = .addEvent → s.cancelled = false ∨ 0 < s.firing
  | .close | .reuse _ => False
  | _ => True

instance (s : State) (l : Label) : Decidable (InTime s l) :=
  match l with
  | .call _ => inferInstanceAs (Decidable (s.pc = .addEvent → _ ∨ _))
  | .close | .reuse _ => inferInstanceAs (Decidable False)
  | .expire | .callback | .cancelEvent | .ready | .resume =>
    inferInstanceAs (Decidable True)

/-- What holds in every state of such a run. -/
structure Inv (s : State) : Prop where
  closer : s.closer = .idle
  epoll : s.registered = true → s.epoll = true
  scheduled : s.scheduled = true →
    s.registered = false ∧ (s.pc = .YieldToHold ∨ s.pc = .parked)
  registered : s.registered = true → s.pc = .YieldToHold ∨ s.pc = .parked
  gap : s.pc = .addEvent → s.armed = true ∨ 0 < s.expired ∨ s.cancelled = true
  watch : s.registered = true →
    0 < s.firing ∨ s.cancelled = false ∧ (s.armed = true ∨ 0 < s.expired)
  late : s.late = true →
    s.pc = .done (.error .ETIMEDOUT)
      ∨ s.cancelled = true ∧ (s.pc = .cancelTimer ∨ s.pc = .look)

theorem init_inv : Inv init := by
  constructor <;> simp [init]

variable {s : State}

/-- The call runs: it is neither on its way to sleep nor asleep. -/
@[simp] def Pc.Runs (pc : Pc) : Prop := pc ≠ .YieldToHold ∧ pc ≠ .parked

/-- Nothing is registered or queued while the call runs. -/
theorem Inv.running (hs : Inv s) (hrun : s.pc.Runs) :
    ¬ s.registered = true ∧ ¬ s.scheduled = true :=
  ⟨fun hreg => (hs.registered hreg).elim hrun.1 hrun.2,
    fun hsched => (hs.scheduled hsched).2.elim hrun.1 hrun.2⟩

/-- The invariant where nothing is registered or queued. -/
theorem Inv.of_running (hclose : s.closer = .idle)
    (hrun : ¬ s.registered = true ∧ ¬ s.scheduled = true)
    (hgap : s.pc = .addEvent → s.armed = true ∨ 0 < s.expired ∨ s.cancelled = true)
    (hlate : s.late = true → s.pc = .done (.error .ETIMEDOUT)
      ∨ s.cancelled = true ∧ (s.pc = .cancelTimer ∨ s.pc = .look)) : Inv s where
  closer := hclose
  epoll h := absurd h hrun.1
  scheduled h := absurd h hrun.2
  registered h := absurd h hrun.1
  gap := hgap
  watch h := absurd h hrun.1
  late := hlate

/-- The call goes on to a place where it is not waiting. -/
theorem Inv.goTo (hs : Inv s) (hrun : s.pc.Runs) {pc : Pc} (armed : Bool) (hadd : pc ≠ .addEvent)
    (hlate : s.late = true → pc = .done (.error .ETIMEDOUT) ∨ s.cancelled = true ∧ pc = .look) :
    Inv { s with pc := pc, armed := armed } := by
  refine .of_running hs.closer (hs.running hrun) (fun h => absurd h hadd) fun h => ?_
  exact (hlate h).imp_right fun ⟨hc, hl⟩ => ⟨hc, Or.inr hl⟩

/-- The place of a call that is not about to look at `cancelled`, and has not. -/
@[simp] def Pc.Early (pc : Pc) : Prop :=
  pc ≠ .done (.error .ETIMEDOUT) ∧ pc ≠ .cancelTimer ∧ pc ≠ .look

/-- Such a call was not resumed late. -/
theorem Inv.notLate (hs : Inv s) (hearly : s.pc.Early) : ¬ s.late = true := by
  intro h
  rcases hs.late h with h | ⟨-, h | h⟩
  · exact hearly.1 h
  · exact hearly.2.1 h
  · exact hearly.2.2 h

/-- The event is taken out. -/
theorem Inv.trigger (hs : Inv s) (hreg : s.registered = true) (firing : Nat) :
    Inv { s.trigger with firing := firing } := by
  constructor
  · exact hs.closer
  · intro h
    cases h
  · intro _
    exact ⟨rfl, hs.registered hreg⟩
  · intro h
    cases h
  · intro h
    rcases hs.registered hreg with hpc | hpc
    · exact absurd (hpc.symm.trans h) (by decide)
    · exact absurd (hpc.symm.trans h) (by decide)
  · intro h
    cases h
  · exact hs.late

theorem enter_ne (c : Call) : enter c ≠ .addEvent := by
  rw [enter]
  split
  · decide
  · decide
  · split_ifs <;> decide

theorem afterRetry_ne (k : Kind) (a : Answer) : afterRetry k a ≠ .addEvent := by
  unfold afterRetry
  split
  · decide
  · split_ifs
    · decide
    · exact fun h => by cases h
  · exact fun h => by cases h

private theorem afterWait_ne (k : Kind) : afterWait k ≠ .addEvent := by
  cases k <;> exact fun h => by cases h

private theorem afterFailed_ne (k : Kind) (e : Errno) : afterFailed k e ≠ .addEvent := by
  cases k <;> exact fun h => by cases h

private theorem afterGetsockopt_ne (a : Answer) : afterGetsockopt a ≠ .addEvent := by
  unfold afterGetsockopt
  split <;> exact fun h => by cases h

/-- One step keeps the invariant. -/
theorem step_inv {c : Call} {t : State} {l : Label} (hto : c.timeout ≠ -1) (hs : Inv s)
    (hc : InTime s l) (h : Moves c s l t) : Inv t := by
  have htouch : s.touch = s := touch_of_not_returned fun b hb => by
    rw [hs.closer] at hb
    cases hb
  -- the call runs, and was not resumed late
  have hgo {pc : Pc} (armed : Bool) (hadd : pc ≠ .addEvent) (hpc : s.pc.Runs ∧ s.pc.Early) :
      Inv { s with pc := pc, armed := armed } :=
    hs.goTo hpc.1 armed hadd fun h => absurd h (hs.notLate hpc.2)
  cases h with
  | enter hpc => exact hgo s.armed (enter_ne c) (by simp [hpc])
  | plain hpc =>
    rw [htouch]
    exact hgo s.armed (by simp) (by simp [hpc])
  | retry hpc =>
    rw [htouch]
    exact hgo s.armed (afterRetry_ne _ _) (by simp [hpc])
  | arm hpc =>
    -- the timeout is finite, so the timer is armed now
    have hl := hs.notLate (by simp [hpc])
    exact .of_running hs.closer (hs.running (by simp [hpc]))
      (fun _ => Or.inl (bne_iff_ne.mpr hto)) fun h => absurd h hl
  | addEvent hpc hfile hreg =>
    obtain ⟨-, hsched⟩ := hs.running (by simp [hpc])
    have hl := hs.notLate (by simp [hpc])
    rw [htouch]
    refine ⟨hs.closer, fun _ => rfl, fun h => absurd h hsched, fun _ => Or.inl rfl, ?_, fun _ => ?_,
      fun h => absurd h hl⟩
    · intro h
      cases h
    · -- here the callback must not have run for nothing
      rcases hc hpc with hcan | hfire
      · refine Or.inr ⟨hcan, ?_⟩
        rcases hs.gap hpc with h | h | h
        · exact Or.inl h
        · exact Or.inr h
        · exact absurd h (Bool.eq_false_iff.mp hcan)
      · exact Or.inl hfire
  | addFails hpc =>
    rw [htouch]
    exact hgo s.armed (by simp) (by simp [hpc])
  | YieldToHold hpc =>
    have hl := hs.notLate (by simp [hpc])
    refine ⟨hs.closer, hs.epoll, fun h => ⟨(hs.scheduled h).1, Or.inr rfl⟩, fun _ => Or.inr rfl, ?_,
      hs.watch, fun h => absurd h hl⟩
    intro h
    cases h
  | cancelTimer hpc =>
    refine hs.goTo (by simp [hpc]) false (by simp) fun h => ?_
    rcases hs.late h with h | ⟨hcan, -⟩
    · rw [hpc] at h
      cases h
    · exact Or.inr ⟨hcan, rfl⟩
  | timedOut hpc hcan => exact hs.goTo (by simp [hpc]) s.armed (by simp) fun _ => Or.inl rfl
  | goesOn hpc hcan =>
    refine hs.goTo (by simp [hpc]) s.armed (afterWait_ne _) fun h => ?_
    rcases hs.late h with h | ⟨hcan', -⟩
    · rw [hpc] at h
      cases h
    · exact absurd hcan' (Bool.eq_false_iff.mp hcan)
  | addFailed hpc => exact hgo false (afterFailed_ne _ _) (by simp [hpc])
  | getsockopt hpc =>
    rw [htouch]
    exact hgo s.armed (afterGetsockopt_ne _) (by simp [hpc])
  | expire harmed =>
    refine { hs with gap := fun _ => Or.inr (Or.inl (Nat.succ_pos _)), watch := fun h => ?_ }
    exact (hs.watch h).imp_right fun ⟨hcan, _⟩ => ⟨hcan, Or.inr (Nat.succ_pos _)⟩
  | stale hexp hold =>
    refine { hs with gap := fun h => ?_, watch := fun h => ?_ }
    · refine Or.inr (Or.inr (hold.resolve_left fun hfin => ?_))
      rw [show s.pc = .addEvent from h] at hfin
      cases hfin
    · -- a finished call has no event, and a callback that finds `cancelled` set
      -- was not the one that is waited for
      rcases hs.watch h with hfire | ⟨hcan, -⟩
      · exact Or.inl hfire
      · rcases hold with hfin | hset
        · rcases hs.registered h with hpc | hpc
          · rw [hpc] at hfin
            cases hfin
          · rw [hpc] at hfin
            cases hfin
        · exact absurd hset (Bool.eq_false_iff.mp hcan)
  | fire hexp hpc hcan =>
    exact { hs with
      gap := fun _ => Or.inr (Or.inr rfl)
      watch := fun _ => Or.inl (Nat.succ_pos _)
      late := fun h => (hs.late h).imp_right fun ⟨_, hpc⟩ => ⟨rfl, hpc⟩ }
  | cancelEvent hfire hreg hep => exact hs.trigger hreg _
  | nothingToCancel hfire hno =>
    refine { hs with watch := fun hreg => ?_ }
    rcases hno with h | h
    · rw [show s.registered = true from hreg] at h
      cases h
    · rw [hs.epoll hreg] at h
      cases h
  | ready hreg hep => exact hs.trigger hreg s.firing
  | resume hpc hsched =>
    obtain ⟨hreg, -⟩ := hs.scheduled hsched
    exact .of_running hs.closer ⟨Bool.eq_false_iff.mp hreg, Bool.false_ne_true⟩
      (fun h => by cases h) fun h => Or.inr ⟨h, Or.inl rfl⟩
  | close | cancelAll | cancelNone | del | close_f => exact hc.elim
  | reuse hfile => exact hc.elim

/-- A call that was resumed late is about to look, or has returned. -/
theorem Inv.timesOut {c : Call} (hs : Inv s) : TimesOut c s := by
  intro h
  rcases hs.late h with h | ⟨hc, h | h⟩
  · exact Or.inl h
  · refine Or.inr ⟨[.call (.value 0), .call (.value 0)], { s with
      armed := false, pc := .done (.error .ETIMEDOUT) }, ?_, rfl, by simp⟩
    simp [exec, step, advance, h, hc]
  · refine Or.inr ⟨[.call (.value 0)], { s with pc := .done (.error .ETIMEDOUT) }, ?_, rfl, by simp⟩
    simp [exec, step, advance, h, hc]

/-- **A hooked call with a timeout comes back, if its event is registered in time.**  In
every run in which `addEvent` never comes after an expiry callback that has already run,
a parked call with its event registered has an armed timer or a callback that will cancel
the event; and a call that was resumed after the timeout returns `ETIMEDOUT`. -/
theorem comes_back {c : Call} (hto : c.timeout ≠ -1) {s : State}
    (h : Reaches (step c) InTime init s) : Watched s ∧ TimesOut c s := by
  have hs : Inv s := h.inv init_inv fun ha hc hstep => step_inv hto ha hc (step_moves hstep)
  refine ⟨fun _ hreg => ?_, hs.timesOut⟩
  rcases hs.watch hreg with hfire | ⟨hc, harmed | hexp⟩
  · exact Or.inr (Or.inl hfire)
  · exact Or.inl harmed
  · exact Or.inr (Or.inr ⟨hexp, hc⟩)

/-- A blocking `read` on a socket with a receive timeout of one second. -/
def readCall : Call where
  kind := .do_io .SO_RCVTIMEO
  ctx := some
    { m_isInit := true
      m_isSocket := true
      m_sysNonblock := true
      m_userNonblock := false
      m_isClosed := false
      m_fd := 5
      m_recvTimeout := 1000
      m_sendTimeout := -1 }

/-- A read that parks, and is cancelled by its timer. -/
def cancelledRead : List Label :=
  [.call (.value 0), .call (.error .EAGAIN), .call (.value 0), .call (.value 0),
    .call (.value 0), .expire, .callback, .cancelEvent, .resume]

theorem comes_back_read : ∃ s, exec (step readCall) init cancelledRead = some s
      ∧ s.late = true ∧ Watched s ∧ TimesOut readCall s := by
  have hrun : exec (step readCall) init cancelledRead = some _ := rfl
  have hin : Along (step readCall) InTime init cancelledRead := by decide +kernel
  exact ⟨_, hrun, rfl, comes_back (by decide) (reaches_of_exec hin hrun)⟩

/-- **A lost timeout**: the callback of a `read`'s timer runs before the event is registered.  The
call is parked for good, with its event registered and no timer or callback left. -/
theorem early_expiry_parks : ∃ s, exec (step readCall) init
        [.call (.value 0), .call (.error .EAGAIN), .call (.value 0), .expire, .callback,
          .cancelEvent, .call (.value 0), .call (.value 0)] = some s
      ∧ s.pc = .parked ∧ s.registered = true ∧ s.armed = false ∧ s.expired = 0
      ∧ s.firing = 0 ∧ ¬ Watched s := by
  refine ⟨_, rfl, rfl, rfl, rfl, rfl, rfl, fun h => ?_⟩
  rcases h rfl rfl with h | h | ⟨h, -⟩
  · cases h
  · cases h
  · cases h

end SylarHookIo
