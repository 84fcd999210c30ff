import Sylar.TimerExpiryProofs

/-! # What a timer's handle is told (`timer.cc`)

`addTimer` returns a pointer to the timer, and `cancel`, `refresh` and `reset`
are called through it: before the timer fires, after it, after a `cancel`, any
number of times.  Their results say whether the timer was armed.  The first test
of `reset` comes before the look at the callback: asked for the period that the
timer has, it returns `true` to the handle of a timer that fired or was
cancelled long ago.

* **`Op.run_disarmed`** — a timer that is not armed stays so, and out of the
  set; from it **`disarmed_silent`**: its callback is not returned again.
* **`handle_contract_iff`** — in every reachable state a call keeps its contract
  EXACTLY when it is not such a `reset`. -/

namespace SylarTimer

open StepSystem TimerManager

/-- A call through the handle of a timer, with the clock it reads. -/
inductive HandleCall where
  | cancel
  | refresh (now : UInt64)
  | reset (now ms : UInt64) (from_now : Bool)
  deriving DecidableEq, Repr

/-- What the call returns, and the manager after it. -/
def HandleCall.run (s : TimerManager) (a : Address) :
    HandleCall → Except Fault (Bool × TimerManager)
  | .cancel => s.cancel a
  | .refresh now => s.refresh now a
  | .reset now ms from_now => s.reset now a ms from_now

/-- The timer a successful call leaves: `refresh` starts its period now, `reset` another one, now or
from the start of the present one. -/
def HandleCall.restarted (timer : Timer) : HandleCall → Option Timer
  | .cancel => none
  | .refresh now => some { timer with m_next := now + timer.m_ms }
  | .reset now ms from_now =>
    let start := if from_now then now else timer.m_next - timer.m_ms
    some { timer with m_ms := ms, m_next := start + ms }

/-- A new timer at the address `a`. -/
def Op.Creates (a : Address) : Op → Prop
  | .addTimer _ b _ _ _ | .addConditionTimer _ b _ _ _ _ => b = a
  | _ => False

/-- As long as `a` is the address of the same timer it is not armed, and `listExpiredCb` returns
others' callbacks. -/
def Silent (t : TimerManager) (a : Address) : Prop :=
  ∀ u, Reaches step (fun s op => op.Legal s ∧ ¬ op.Creates a) t u →
    ¬ Armed u a ∧ a ∉ u.m_timers
      ∧ ∀ now now_timer, u.heap now_timer = none →
          ∃ (due : List Address) (cbs : List (Option Callback)) (v : TimerManager),
            u.listExpiredCb now now_timer = .ok (cbs, v)
            ∧ cbs = due.map u.callbackAt ∧ a ∉ due

/-- The contract: a call says whether the timer was armed, changes nothing if not, silences it
if it was a `cancel`, and restarts it otherwise. -/
structure Contract (s : TimerManager) (a : Address) (timer : Timer) (c : HandleCall)
    (rt : Bool) (t : TimerManager) : Prop where
  result : rt = true ↔ Armed s a
  unchanged : rt = false → t = s
  silent : c = .cancel → rt = true → Silent t a
  restarted : ∀ timer', c.restarted timer = some timer' → rt = true →
    t.heap a = some timer'

/-- `reset` of a timer without a callback to the period it has, from its start. -/
def HandleCall.ResetsDisarmed (timer : Timer) : HandleCall → Prop
  | .reset _ ms from_now => ms = timer.m_ms ∧ from_now = false ∧ timer.m_cb = none
  | _ => False

/-! ## Timers that are not armed -/

section Disarmed

variable {Q : Option Callback → Prop} {s t : TimerManager} {a b : Address} {timer : Timer}

theorem armed_iff (ha : s.heap a = some timer) : Armed s a ↔ timer.m_cb.isSome = true := by
  constructor
  · rintro ⟨timer', htimer', hcb⟩
    rw [ha] at htimer'
    cases htimer'
    exact hcb
  · intro hcb
    exact ⟨timer, ha, hcb⟩

theorem Op.adds_any (op : Op) : op.Adds fun _ => True := by
  cases op <;> exact trivial

/-- Writing and inserting another timer. -/
theorem disarmed_put_insert (ha : a ∉ s.m_timers ∧ ¬ Armed s a) (hne : a ≠ b)
    {l : List Address} (hl : ∀ x ∈ l, x ∈ s.m_timers) :
    a ∉ (({ s with m_timers := l }.put b timer).insert b).m_timers
      ∧ ¬ Armed (({ s with m_timers := l }.put b timer).insert b) a := by
  refine ⟨fun hmem => ?_, fun harmed => ha.2 ((held_put_of_ne hne).mp harmed)⟩
  rcases (OrderedSet.mem_insert (orderedBy _)).mp hmem with h | h
  · exact hne h
  · exact ha.1 (hl a h)

/-- **A timer that is not armed** is not armed by any call. -/
--  cancel b =>|the calls on a handle change an armed timer only, so not `a`
theorem Op.run_disarmed {op : Op} (h : Ordered Q s) (hop : op.Legal s)
    (hnew : ¬ op.Creates a) (ha : a ∉ s.m_timers ∧ ¬ Armed s a) (hrun : op.run s = .ok t) :
    a ∉ t.m_timers ∧ ¬ Armed t a := by
  cases op with
  | addTimer now b ms cb recurring =>
    cases hrun
    exact disarmed_put_insert ha (fun hab => hnew hab.symm) fun x hx => hx
  | addConditionTimer now b ms cb weak_cond recurring =>
    cases hrun
    exact disarmed_put_insert ha (fun hab => hnew hab.symm) fun x hx => hx
  | cancel b =>
    obtain ⟨timer, hb⟩ := Option.isSome_iff_exists.mp hop
    by_cases hcb : timer.m_cb.isSome = true
    · obtain ⟨u, hcancel, -, hform, hmem⟩ := cancel_spec h hb hcb
      rw [run, hcancel] at hrun
      cases hrun
      have hne : a ≠ b := by
        rintro rfl
        exact ha.2 ((armed_iff hb).mpr hcb)
      refine ⟨fun hu => ha.1 (hmem a hu).1, fun harmed => ha.2 ?_⟩
      rw [hform] at harmed
      exact (held_put_of_ne hne).mp harmed
    · rw [run, cancel_disarmed hb hcb] at hrun
      cases hrun
      exact ha
  | refresh now b =>
    obtain ⟨timer, hb⟩ := Option.isSome_iff_exists.mp hop
    by_cases hcb : timer.m_cb.isSome = true
    · obtain ⟨l, hrefresh, -, hmem⟩ := refresh_spec h hb hcb now
      rw [run, hrefresh] at hrun
      cases hrun
      refine disarmed_put_insert ha ?_ fun x hx => ((hmem x).mp hx).1
      rintro rfl
      exact ha.2 ((armed_iff hb).mpr hcb)
    · rw [run, refresh_disarmed hb hcb] at hrun
      cases hrun
      exact ha
  | reset now b ms from_now =>
    obtain ⟨timer, hb⟩ := Option.isSome_iff_exists.mp hop
    by_cases hsame : ms = timer.m_ms ∧ from_now = false
    · rw [run, reset_same hb hsame] at hrun
      cases hrun
      exact ha
    · by_cases hcb : timer.m_cb.isSome = true
      · obtain ⟨l, hreset, -, hmem⟩ := reset_spec h hb hcb now ms from_now hsame
        rw [run, hreset] at hrun
        cases hrun
        refine disarmed_put_insert ha ?_ fun x hx => ((hmem x).mp hx).1
        rintro rfl
        exact ha.2 ((armed_iff hb).mpr hcb)
      · rw [run, reset_disarmed hb hsame hcb] at hrun
        cases hrun
        exact ha
  | getNextTimer now =>
    cases hrun
    rw [getNextTimer_snd]
    exact ha
  | listExpiredCb now now_timer =>
    obtain ⟨cbs, u, hlist, -, hexpiry⟩ := listExpiredCb_expiry h hop now
    rw [run, hlist] at hrun
    cases hrun
    obtain ⟨hheap, hmem⟩ := hexpiry.others a fun hdue => ha.1 (mem_of_mem_due hdue)
    rw [Armed, Held, hheap]
    exact ⟨fun hu => ha.1 (hmem.mp hu), ha.2⟩
  | drop b =>
    cases hrun
    refine ⟨ha.1, fun harmed => ?_⟩
    by_cases hab : a = b
    · subst hab
      exact not_held (Function.update_self ..) harmed
    · obtain ⟨timer, htimer, hcb⟩ := harmed
      exact ha.2 ⟨timer, (Function.update_of_ne hab ..).symm.trans htimer, hcb⟩

/-- **A timer that is not armed is silent** from then on. -/
theorem disarmed_silent (h : Ordered (fun _ => True) t) (ha : a ∉ t.m_timers ∧ ¬ Armed t a) :
    Silent t a := by
  intro u hreach
  have hinv : Ordered (fun _ => True) u ∧ a ∉ u.m_timers ∧ ¬ Armed u a := by
    refine hreach.inv (P := fun u => Ordered (fun _ => True) u ∧ a ∉ u.m_timers ∧ ¬ Armed u a)
      ⟨h, ha⟩ fun {v w op} hv hop hstep => ?_
    obtain ⟨w', hrun, hw'⟩ := Op.run_spec hv.1 hop.1 op.adds_any
    rw [step, hrun] at hstep
    cases hstep
    exact ⟨hw', Op.run_disarmed hv.1 hop.1 hop.2 hv.2 hrun⟩
  obtain ⟨hu, hout, hunarmed⟩ := hinv
  refine ⟨hunarmed, hout, fun now now_timer hfree => ?_⟩
  obtain ⟨cbs, v, hrun, -, hexpiry⟩ := listExpiredCb_expiry hu hfree now
  exact ⟨_, cbs, v, hrun, hexpiry.callbacks, fun hdue => hout (mem_of_mem_due hdue)⟩

end Disarmed

/-! ## The calls -/

variable {now ms : UInt64} {from_now : Bool}

section Calls

variable {s : TimerManager} {a : Address} {timer : Timer}

/-- The answer `false`, for a timer that is not armed. -/
theorem contract_false (ha : s.heap a = some timer) (hcb : ¬ timer.m_cb.isSome = true)
    (c : HandleCall) : Contract s a timer c false s where
  result := iff_of_false Bool.false_ne_true (mt (armed_iff ha).mp hcb)
  unchanged _ := rfl
  silent _ h := absurd h Bool.false_ne_true
  restarted _ _ h := absurd h Bool.false_ne_true

/-- The answer `true`, for an armed timer that is started again. -/
theorem contract_restarted {t : TimerManager} {c : HandleCall} {timer' : Timer}
    (ha : s.heap a = some timer) (hcb : timer.m_cb.isSome = true)
    (hc : c.restarted timer = some timer') (ht : t.heap a = some timer') :
    Contract s a timer c true t where
  result := iff_of_true rfl ((armed_iff ha).mpr hcb)
  unchanged h := absurd h.symm Bool.false_ne_true
  silent h := by
    subst h
    cases hc
  restarted timer'' h _ := by
    rw [hc] at h
    cases h
    exact ht

theorem contract_cancel (h : Ordered (fun _ => True) s) (ha : s.heap a = some timer) :
    ∃ rt t, s.cancel a = .ok (rt, t) ∧ Contract s a timer .cancel rt t := by
  by_cases hcb : timer.m_cb.isSome = true
  · obtain ⟨t, hrun, ht, hform, hmem⟩ := cancel_spec h ha hcb
    have hunarmed : ¬ Armed t a := by
      intro harmed
      rw [hform] at harmed
      have hheld : Armed (s.put a { timer with m_cb := none }) a := harmed
      exact absurd (held_put_self.mp hheld) Bool.false_ne_true
    have hsilent := disarmed_silent ht ⟨fun hat => (hmem a hat).2 rfl, hunarmed⟩
    exact ⟨true, t, hrun,
      { result := iff_of_true rfl ((armed_iff ha).mpr hcb)
        unchanged := fun hf => absurd hf.symm Bool.false_ne_true
        silent := fun _ _ => hsilent
        restarted := fun _ hnone => by cases hnone }⟩
  · exact ⟨false, s, cancel_disarmed ha hcb, contract_false ha hcb _⟩

theorem contract_refresh (h : Ordered (fun _ => True) s) (ha : s.heap a = some timer)
    (now : UInt64) :
    ∃ rt t, s.refresh now a = .ok (rt, t) ∧ Contract s a timer (.refresh now) rt t := by
  by_cases hcb : timer.m_cb.isSome = true
  · obtain ⟨l, hrun, -⟩ := refresh_spec h ha hcb now
    exact ⟨true, _, hrun, contract_restarted ha hcb rfl heap_put_self⟩
  · exact ⟨false, s, refresh_disarmed ha hcb now, contract_false ha hcb _⟩

/-- The period of the timer, from the time it was started, leaves it as it is. -/
theorem restarted_same (h : ms = timer.m_ms ∧ from_now = false) :
    (HandleCall.reset now ms from_now).restarted timer = some timer := by
  obtain ⟨rfl, rfl⟩ := h
  rw [HandleCall.restarted, if_neg Bool.false_ne_true, UInt64.sub_add_cancel]

theorem contract_reset (h : Ordered (fun _ => True) s) (ha : s.heap a = some timer)
    (hc : ¬ (HandleCall.reset now ms from_now).ResetsDisarmed timer) :
    ∃ rt t, s.reset now a ms from_now = .ok (rt, t)
      ∧ Contract s a timer (.reset now ms from_now) rt t := by
  by_cases hsame : ms = timer.m_ms ∧ from_now = false
  · have hcb : timer.m_cb.isSome = true := by
      rw [Option.isSome_iff_ne_none]
      exact fun hnone => hc ⟨hsame.1, hsame.2, hnone⟩
    exact ⟨true, s, reset_same ha hsame now, contract_restarted ha hcb (restarted_same hsame) ha⟩
  · by_cases hcb : timer.m_cb.isSome = true
    · obtain ⟨l, hrun, -⟩ := reset_spec h ha hcb now ms from_now hsame
      exact ⟨true, _, hrun, contract_restarted ha hcb rfl heap_put_self⟩
    · exact ⟨false, s, reset_disarmed ha hsame hcb now, contract_false ha hcb _⟩

/-- **The handle contract** is kept, in every reachable state, EXACTLY when the call is not a
`reset` of a timer without a callback to the period it has, from its start. -/
theorem handle_contract_iff {now₀ : UInt64}
    (h : Reaches step (fun s op => op.Legal s) (TimerManager.new now₀) s)
    (ha : s.heap a = some timer) (c : HandleCall) :
    (∃ rt t, c.run s a = .ok (rt, t) ∧ Contract s a timer c rt t) ↔ ¬ c.ResetsDisarmed timer := by
  have hs : Ordered (fun _ => True) s :=
    (new_ordered _ now₀).reaches (fun {_ op} hop => ⟨hop, op.adds_any⟩) h
  constructor
  · rintro ⟨rt, t, hrun, hcontract⟩ hdis
    cases c with
    | cancel => exact hdis
    | refresh now => exact hdis
    | reset now ms from_now =>
      obtain ⟨hms, hfrom, hcb⟩ := hdis
      rw [HandleCall.run, reset_same ha ⟨hms, hfrom⟩] at hrun
      obtain ⟨rfl, -⟩ := Prod.mk.inj (Except.ok.inj hrun)
      have harmed := (armed_iff ha).mp (hcontract.result.mp rfl)
      rw [hcb] at harmed
      cases harmed
  · intro hc
    cases c with
    | cancel => exact contract_cancel hs ha
    | refresh now => exact contract_refresh hs ha now
    | reset now ms from_now => exact contract_reset hs ha hc

end Calls

/-- A timer with the period 5 is added and cancelled. -/
theorem cancelled_run : ∃ s, exec step (TimerManager.new 0)
          [.addTimer 10 1 5 (some (.user 1)) false, .cancel 1] = some s
      ∧ s.heap 1 = some ⟨false, 5, 15, none⟩
      ∧ Reaches step (fun s op => op.Legal s) (TimerManager.new 0) s := by
  let s₁ := (TimerManager.new 0).addTimer 10 1 5 (some (.user 1)) false
  let s₂ : TimerManager := { s₁.put 1 ⟨false, 5, 15, none⟩ with m_timers := [] }
  have hadd : Reaches step (fun s op => op.Legal s) (TimerManager.new 0) s₁ :=
    Reaches.single (l := .addTimer 10 1 5 (some (.user 1)) false) rfl rfl
  have halive : (Op.cancel 1).Legal s₁ := rfl
  have hcancel : step s₁ (.cancel 1) = some s₂ := rfl
  exact ⟨s₂, rfl, rfl, hadd.tail halive hcancel⟩

/-- Its handle asks for the period 7. -/
theorem handle_contract_iff_cancelled : ∃ s, exec step (TimerManager.new 0)
          [.addTimer 10 1 5 (some (.user 1)) false, .cancel 1] = some s
      ∧ ∃ rt t, (HandleCall.reset 12 7 false).run s 1 = .ok (rt, t)
        ∧ Contract s 1 ⟨false, 5, 15, none⟩ (.reset 12 7 false) rt t := by
  obtain ⟨s, hexec, htimer, hreach⟩ := cancelled_run
  refine ⟨s, hexec, (handle_contract_iff hreach htimer _).mpr ?_⟩
  rintro ⟨hms, -⟩
  exact absurd hms (by decide)

/-- Asked for the period 5, which the timer has, `reset` returns `true`, though the
timer is cancelled. -/
theorem reset_after_cancel : ∃ s, exec step (TimerManager.new 0)
          [.addTimer 10 1 5 (some (.user 1)) false, .cancel 1] = some s
      ∧ ¬ Armed s 1 ∧ (HandleCall.reset 12 5 false).run s 1 = .ok (true, s)
      ∧ ¬ ∃ rt t, (HandleCall.reset 12 5 false).run s 1 = .ok (rt, t)
        ∧ Contract s 1 ⟨false, 5, 15, none⟩ (.reset 12 5 false) rt t := by
  obtain ⟨s, hexec, htimer, -⟩ := cancelled_run
  have hunarmed : ¬ Armed s 1 := fun h => absurd ((armed_iff htimer).mp h) (by decide)
  have hrun : (HandleCall.reset 12 5 false).run s 1 = .ok (true, s) :=
    reset_same htimer ⟨rfl, rfl⟩ 12
  refine ⟨s, hexec, hunarmed, hrun, ?_⟩
  rintro ⟨rt, t, hrt, hcontract⟩
  rw [hrun] at hrt
  obtain ⟨rfl, -⟩ := Prod.mk.inj (Except.ok.inj hrt)
  exact hunarmed (hcontract.result.mp rfl)

end SylarTimer
