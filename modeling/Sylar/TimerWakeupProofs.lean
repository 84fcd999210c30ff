import Mathlib.Algebra.Ring.Nat
import Mathlib.Data.List.TakeWhile
import Mathlib.Order.WithBot
import Sylar.TimerSetProofs

/-! # Waking the thread that waits for the next timer (`timer.cc`)

A thread asks `getNextTimer` how long to wait.  If a timer that comes earlier
is added before it wakes up, `onTimerInsertedAtFront` has to wake it; the flag
`m_tickled` keeps this from happening twice.  `addTimer` and `reset` notify;
`refresh` and the re-arming in `listExpiredCb` do not, and need not as long as
they only move timers to later times.

* **`step_moved`** — what one call does to the front, the flag and the number of
  notifications.
* **`timer_wakeup`** — the flag is set or the front is not before the one that `getNextTimer` last
  saw. -/

namespace SylarTimer

open StepSystem TimerManager List

/-- The earliest `m_next`; infinite if there is no timer. -/
def TimerManager.earliest (s : TimerManager) : WithTop Nat :=
  match s.m_timers.head? with
  | none => ⊤
  | some a => WithTop.some (s.next a).toNat

/-- The reading of the clock in a call. -/
def Op.now : Op → Option UInt64
  | .addTimer now _ _ _ _ | .addConditionTimer now _ _ _ _ _ | .refresh now _
  | .reset now _ _ _ | .getNextTimer now | .listExpiredCb now _ => some now
  | .cancel _ | .drop _ => none

/-- The manager, the last reading of the clock and the front the most recent `getNextTimer` saw;
infinite before the first. -/
structure Clocked where
  manager : TimerManager
  clock : UInt64
  seen : WithTop Nat

def Clocked.new (now : UInt64) : Clocked := ⟨TimerManager.new now, now, ⊤⟩

def track (s : Clocked) (op : Op) : Option Clocked :=
  (step s.manager op).map fun t =>
    { manager := t
      clock := op.now.getD s.clock
      seen := match op with
        | .getNextTimer _ => s.manager.earliest
        | _ => s.seen }

/-- The sum of a clock reading and a period fits into 64 bits. -/
def Fits (now ms : UInt64) : Prop := now.toNat + ms.toNat < 2 ^ 64

/-- `refresh`, and the re-arming of a timer that is due, add without overflow. -/
def Op.NoOverflow (s : TimerManager) : Op → Prop
  | .refresh now a => ∀ timer, s.heap a = some timer → Fits now timer.m_ms
  | .listExpiredCb now _ => ∀ a ∈ s.m_timers, ∀ timer, s.heap a = some timer →
    timer.m_recurring = true → timer.m_next ≤ now → Fits now timer.m_ms
  | _ => True

/-- A legal call at a time that is not before the last one, without overflow. -/
structure Allowed (s : Clocked) (op : Op) : Prop where
  legal : op.Legal s.manager
  clock : ∀ now ∈ op.now, s.clock ≤ now
  fits : op.NoOverflow s.manager

/-! ## The front -/

variable {F : WithTop Nat} {op : Op}

section Front

variable {s : TimerManager} {a : Address} {timer : Timer}

theorem le_earliest (h : ∀ a ∈ s.m_timers, F ≤ WithTop.some (s.next a).toNat) : F ≤ s.earliest := by
  rw [earliest]
  cases hl : s.m_timers with
  | nil => exact le_top
  | cons first rest =>
    refine h first ?_
    rw [hl]
    exact mem_cons_self

/-- Nothing in an ordered set comes before the front. -/
theorem earliest_le (h : OrderedSet.Sorted (key s.heap) s.m_timers) (ha : a ∈ s.m_timers) :
    s.earliest ≤ WithTop.some (s.next a).toNat := by
  rw [earliest]
  cases hl : s.m_timers with
  | nil =>
    rw [hl] at ha
    exact absurd ha not_mem_nil
  | cons first rest =>
    rw [hl] at h ha
    refine WithTop.coe_le_coe.mpr ?_
    rcases mem_cons.mp ha with rfl | ha
    · exact Nat.le_refl _
    · rcases key_lt.mp ((pairwise_cons.mp h).1 a ha) with hlt | ⟨heq, -⟩
      · exact Nat.le_of_lt (UInt64.lt_iff_toNat_lt.mp hlt)
      · exact Nat.le_of_eq (congrArg UInt64.toNat heq)

theorem next_put_of_ne {b : Address} (h : b ≠ a) : (s.put a timer).next b = s.next b := by
  rw [TimerManager.next, TimerManager.next, nextAt, nextAt, heap_put_of_ne h]

theorem next_put_self : (s.put a timer).next a = timer.m_next := by
  rw [TimerManager.next, nextAt, heap_put_self]
  rfl

end Front

/-- A call other than `getNextTimer` notifies and sets the flag, or does neither, and if the flag is
not set the front does not come earlier. -/
def Moved (s t : TimerManager) : Prop :=
  (t.insertedAtFront = s.insertedAtFront + 1 ∧ t.m_tickled = true)
    ∨ (t.insertedAtFront = s.insertedAtFront ∧ t.m_tickled = s.m_tickled
      ∧ (s.m_tickled = true ∨ s.earliest ≤ t.earliest))

/-- Nothing but the timers changes, and the front does not come earlier. -/
structure Later (s t : TimerManager) : Prop where
  insertedAtFront : t.insertedAtFront = s.insertedAtFront
  m_tickled : t.m_tickled = s.m_tickled
  earliest : s.earliest ≤ t.earliest

theorem Later.refl (s : TimerManager) : Later s s := ⟨rfl, rfl, le_refl _⟩

theorem Later.moved {s t : TimerManager} (h : Later s t) : Moved s t :=
  Or.inr ⟨h.insertedAtFront, h.m_tickled, Or.inr h.earliest⟩

theorem Later.trans_moved {s t u : TimerManager} (h : Later s t) (hm : Moved t u) : Moved s u := by
  rcases hm with ⟨hcalls, htick⟩ | ⟨hcalls, htick, hfront⟩
  · exact Or.inl ⟨hcalls.trans (congrArg (· + 1) h.insertedAtFront), htick⟩
  · refine Or.inr ⟨hcalls.trans h.insertedAtFront, htick.trans h.m_tickled, ?_⟩
    rcases hfront with hfront | hfront
    · exact Or.inl (h.m_tickled ▸ hfront)
    · exact Or.inr (le_trans h.earliest hfront)

/-- `addTimer(val, lock)` notifies if the timer gets to the front. -/
theorem addTimerVal_moved {s : TimerManager} {a : Address} (timer : Timer)
    (ha : a ∉ s.m_timers) : Moved s ((s.put a timer).addTimerVal a) := by
  have hnext : ∀ b ∈ s.m_timers, (s.put a timer).next b = s.next b := by
    intro b hb
    refine next_put_of_ne ?_
    rintro rfl
    exact ha hb
  generalize hu : (s.put a timer).insert a = u
  have hcalls : u.insertedAtFront = s.insertedAtFront := by rw [← hu]; rfl
  have htick : u.m_tickled = s.m_tickled := by rw [← hu]; rfl
  rw [addTimerVal, hu]
  by_cases hfront : (decide (u.m_timers.head? = some a) && !u.m_tickled) = true
  · refine Or.inl ⟨?_, ?_⟩
    · dsimp only
      rw [hfront, hcalls]
      rfl
    · dsimp only
      rw [hfront, Bool.or_true]
  · have hfalse := Bool.eq_false_iff.mpr hfront
    refine Or.inr ⟨?_, ?_, ?_⟩
    · dsimp only
      rw [hfalse, hcalls]
      rfl
    · dsimp only
      rw [hfalse, Bool.or_false, htick]
    · by_cases ht : s.m_tickled = true
      · exact Or.inl ht
      · -- the timer is not the first: the first is the one that was first before
        right
        have hhead : u.m_timers.head? ≠ some a := by
          intro h
          refine hfront ?_
          rw [htick, Bool.eq_false_iff.mpr ht, h]
          simp
        have hsame : u.m_timers.head? = s.m_timers.head? := by
          rw [← hu] at hhead ⊢
          exact (OrderedSet.head_insert ..).resolve_left hhead
        rw [earliest, earliest]
        dsimp only
        rw [hsame]
        cases hfirst : s.m_timers.head? with
        | none => exact le_refl _
        | some b =>
          have hb : b ∈ s.m_timers := mem_of_mem_head? hfirst
          show WithTop.some (s.next b).toNat ≤ WithTop.some (u.next b).toNat
          rw [← hu]
          exact le_of_eq (congrArg (fun n : UInt64 => WithTop.some n.toNat) (hnext b hb).symm)

/-- Every timer of `t` comes no earlier than some timer of `s`. -/
theorem later_of_forall {s t : TimerManager} (hs : OrderedSet.Sorted (key s.heap) s.m_timers)
    (hcalls : t.insertedAtFront = s.insertedAtFront) (htick : t.m_tickled = s.m_tickled)
    (hnext : ∀ a ∈ t.m_timers, ∃ b ∈ s.m_timers, (s.next b).toNat ≤ (t.next a).toNat) :
    Later s t := by
  refine ⟨hcalls, htick, le_earliest fun a ha => ?_⟩
  obtain ⟨b, hb, hle⟩ := hnext a ha
  exact le_trans (earliest_le hs hb) (WithTop.coe_le_coe.mpr hle)

/-! ## Times that are only moved to later -/

/-- Every timer was set, for its period, at a time that has passed. -/
def Started (heap : Address → Option Timer) (clock : UInt64) : Prop :=
  ∀ a timer, heap a = some timer → timer.m_next - timer.m_ms ≤ clock

theorem Started.put {s : TimerManager} {a : Address} {timer : Timer} {clock : UInt64}
    (h : Started s.heap clock) (htimer : timer.m_next - timer.m_ms ≤ clock) :
    Started (s.put a timer).heap clock := by
  intro b timer' hb
  by_cases hba : b = a
  · subst hba
    rw [heap_put_self] at hb
    cases hb
    exact htimer
  · rw [heap_put_of_ne hba] at hb
    exact h b timer' hb

theorem Started.mono {heap : Address → Option Timer} {clock now : UInt64}
    (h : Started heap clock) (hle : clock ≤ now) : Started heap now :=
  fun a timer ha => UInt64.le_trans (h a timer ha) hle

private theorem refreshed_start (timer : Timer) (now : UInt64) :
    (timer.refreshed now).m_next - (timer.refreshed now).m_ms = now :=
  UInt64.add_sub_cancel now timer.m_ms

private theorem rescheduled_start (timer : Timer) (now ms : UInt64) (from_now : Bool) :
    (timer.rescheduled now ms from_now).m_next - (timer.rescheduled now ms from_now).m_ms
      = if from_now then now else timer.m_next - timer.m_ms :=
  UInt64.add_sub_cancel _ ms

/-- A new start is not earlier: without overflow a timer moves to a later time. -/
theorem le_refreshed {timer : Timer} {now : UInt64}
    (hstart : timer.m_next - timer.m_ms ≤ now) (hfits : Fits now timer.m_ms) :
    timer.m_next.toNat ≤ (timer.refreshed now).m_next.toNat := by
  have hnext : timer.m_next.toNat
      = ((timer.m_next - timer.m_ms).toNat + timer.m_ms.toNat) % 2 ^ 64 := by
    rw [← UInt64.toNat_add, UInt64.sub_add_cancel]
  have hsum : (timer.refreshed now).m_next.toNat = now.toNat + timer.m_ms.toNat := by
    rw [Timer.refreshed, UInt64.toNat_add]
    exact Nat.mod_eq_of_lt hfits
  have hle := UInt64.le_iff_toNat_le.mp hstart
  rw [hnext, hsum]
  exact Nat.le_trans (Nat.mod_le _ _) (Nat.add_le_add_right hle _)

/-! ## One call -/

/-- The set is ordered, and no time it was set at is in the future. -/
structure Sound (s : TimerManager) (clock : UInt64) : Prop where
  ordered : Ordered (fun _ => True) s
  started : Started s.heap clock
  previous : s.m_previouseTime ≤ clock

variable {expired : List Address} {now_timer : Address}

section Calls

variable {s t : TimerManager} {clock now : UInt64} {a : Address} {timer : Timer}

theorem Sound.mono (h : Sound s clock) (hle : clock ≤ now) : Sound s now :=
  ⟨h.ordered, h.started.mono hle, UInt64.le_trans h.previous hle⟩

/-- `addTimer` at a free address. -/
theorem addTimer_moved (h : Sound s clock) (ha : s.heap a = none) (hclock : clock ≤ now)
    (ms : UInt64) (cb : Option Callback) (recurring : Bool) :
    Moved s (s.addTimer now a ms cb recurring) ∧ Sound (s.addTimer now a ms cb recurring) now := by
  refine ⟨addTimerVal_moved _ (h.ordered.not_mem ha), h.ordered.addTimer ha trivial now ms
    recurring, (h.started.mono hclock).put ?_, UInt64.le_trans h.previous hclock⟩
  exact UInt64.le_of_eq (UInt64.add_sub_cancel now ms)

/-- `cancel` does not bring the front forward. -/
theorem cancel_later (h : Sound s clock) (ha : s.heap a = some timer)
    (hcb : timer.m_cb.isSome = true) :
    ∃ t, s.cancel a = .ok (true, t) ∧ Later s t ∧ Sound t clock := by
  obtain ⟨t, hrun, ht, hform, hmem⟩ := cancel_spec h.ordered ha hcb
  refine ⟨t, hrun, later_of_forall h.ordered.sorted ?_ ?_ fun b hb => ?_, ht, ?_, ?_⟩
  · rw [hform]
    rfl
  · rw [hform]
    rfl
  · refine ⟨b, (hmem b hb).1, Nat.le_of_eq (congrArg UInt64.toNat ?_)⟩
    rw [hform]
    exact (next_put_of_ne (hmem b hb).2).symm
  · rw [hform]
    exact h.started.put (h.started a timer ha)
  · rw [hform]
    exact h.previous

/-- `refresh` does not bring the front forward. -/
theorem refresh_later (h : Sound s clock) (ha : s.heap a = some timer)
    (hcb : timer.m_cb.isSome = true) (hclock : clock ≤ now) (hfits : Fits now timer.m_ms) :
    ∃ t, s.refresh now a = .ok (true, t) ∧ Later s t ∧ Sound t now := by
  obtain ⟨l, hrun, ht, hmem⟩ := refresh_spec h.ordered ha hcb now
  have hstart := h.started.mono hclock
  refine ⟨_, hrun, later_of_forall h.ordered.sorted rfl rfl fun b hb => ?_, ht, ?_, ?_⟩
  · show ∃ c ∈ s.m_timers, (s.next c).toNat
      ≤ (({ s with m_timers := l }.put a (timer.refreshed now)).next b).toNat
    rcases (OrderedSet.mem_insert (orderedBy _)).mp hb with rfl | hb
    · refine ⟨b, h.ordered.mem ha hcb, ?_⟩
      rw [next_put_self, TimerManager.next, nextAt, ha]
      exact le_refreshed (hstart b timer ha) hfits
    · obtain ⟨hb, hne⟩ := (hmem b).mp hb
      refine ⟨b, hb, ?_⟩
      rw [next_put_of_ne hne]
      exact Nat.le_refl _
  · refine Started.put hstart ?_
    rw [refreshed_start]
    exact UInt64.le_refl _
  · exact UInt64.le_trans h.previous hclock

/-- `reset` to another period notifies if the timer gets to the front. -/
theorem reset_moved (h : Sound s clock) (ha : s.heap a = some timer)
    (hcb : timer.m_cb.isSome = true) (hclock : clock ≤ now) (ms : UInt64) (from_now : Bool)
    (hne : ¬ (ms = timer.m_ms ∧ from_now = false)) :
    ∃ t, s.reset now a ms from_now = .ok (true, t) ∧ Moved s t ∧ Sound t now := by
  obtain ⟨l, hrun, ht, hmem⟩ := reset_spec h.ordered ha hcb now ms from_now hne
  have hstart := h.started.mono hclock
  have hsub : Later s { s with m_timers := l } :=
    later_of_forall h.ordered.sorted rfl rfl fun b hb =>
      ⟨b, ((hmem b).mp hb).1, Nat.le_refl _⟩
  refine ⟨_, hrun, hsub.trans_moved (addTimerVal_moved _ fun hmem' => ?_), ht, ?_, ?_⟩
  · exact ((hmem a).mp hmem').2 rfl
  · refine Started.put hstart ?_
    rw [rescheduled_start]
    split
    · exact UInt64.le_refl _
    · exact hstart a timer ha
  · exact UInt64.le_trans h.previous hclock

/-- What the search leaves out of the set is due, unless the clock has gone back. -/
theorem expired_due {Q : Option Callback → Prop} {rest : List Address} (h : Ordered Q s)
    (hfree : s.heap now_timer = none) (hcut : s.m_timers = expired ++ rest)
    (hrest : rest = s.unexpired false now now_timer) : ∀ a ∈ expired, s.next a ≤ now := by
  -- the prefix consists of what the two loops of the search skip
  have hsplit : expired = s.m_timers.takeWhile
        ((s.put now_timer ⟨false, 0, now, none⟩).before · now_timer)
      ++ (OrderedSet.lowerBound (s.put now_timer ⟨false, 0, now, none⟩).before now_timer
        s.m_timers).takeWhile fun a => s.next a == now := by
    refine (append_left_inj rest).mp ?_
    rw [← hcut, hrest, unexpired, if_neg Bool.false_ne_true, append_assoc,
      takeWhile_append_dropWhile, OrderedSet.lowerBound, takeWhile_append_dropWhile]
  intro a ha
  have hne : a ≠ now_timer := by
    rintro rfl
    refine h.not_mem hfree ?_
    rw [hcut]
    exact mem_append_left _ ha
  rw [hsplit] at ha
  rcases mem_append.mp ha with ha | ha
  · have hbefore := mem_takeWhile_imp ha
    rw [(orderedBy _).lt_iff, key_lt] at hbefore
    change (s.put now_timer ⟨false, 0, now, none⟩).next a
        < (s.put now_timer ⟨false, 0, now, none⟩).next now_timer
      ∨ (s.put now_timer ⟨false, 0, now, none⟩).next a
        = (s.put now_timer ⟨false, 0, now, none⟩).next now_timer ∧ _ at hbefore
    rw [next_put_of_ne hne, next_put_self] at hbefore
    rcases hbefore with hlt | ⟨heq, -⟩
    · exact UInt64.le_of_lt hlt
    · exact UInt64.le_of_eq heq
  · have hnow := mem_takeWhile_imp ha
    exact UInt64.le_of_eq (beq_iff_eq.mp hnow)

/-- The state inside the loop over the expired timers: nothing comes before `F`. -/
structure Rearming (s : TimerManager) (now : UInt64) (F : WithTop Nat) (expired : List Address)
    (t : TimerManager) : Prop where
  out : OrderedBut (fun _ => True) expired t
  alive : ∀ a ∈ expired, ∃ timer, t.heap a = some timer
    ∧ (timer.m_recurring = true → F ≤ WithTop.some (timer.refreshed now).m_next.toNat)
  started : Started t.heap now
  insertedAtFront : t.insertedAtFront = s.insertedAtFront
  m_tickled : t.m_tickled = s.m_tickled
  previous : t.m_previouseTime ≤ now
  front : ∀ a ∈ t.m_timers, F ≤ WithTop.some (t.next a).toNat

/-- One round of the loop. -/
theorem Rearming.step (h : Rearming s now F (a :: expired) t) :
    ∃ timer, t.heap a = some timer ∧ Rearming s now F expired (t.rearmOne now a timer) := by
  obtain ⟨timer, htimer, hF⟩ := h.alive a mem_cons_self
  have hout : OrderedBut _ expired (t.rearmOne now a timer) := h.out.rearmOne trivial now
  have hne : ∀ b ∈ expired, b ≠ a := by
    rintro b hb rfl
    exact (nodup_cons.mp h.out.nodup).1 hb
  have hmem : ∀ b ∈ t.m_timers, b ≠ a := by
    rintro b hb rfl
    exact h.out.outside b mem_cons_self hb
  refine ⟨timer, htimer, ?_⟩
  rw [TimerManager.rearmOne] at hout ⊢
  split at hout
  · next hrec =>
    rw [if_pos hrec]
    refine ⟨hout, fun b hb => ?_, Started.put h.started ?_, h.insertedAtFront, h.m_tickled,
      h.previous, fun b hb => ?_⟩
    · show ∃ timer', (t.put a _).heap b = some timer' ∧ _
      rw [heap_put_of_ne (hne b hb)]
      exact h.alive b (mem_cons_of_mem _ hb)
    · rw [refreshed_start]
      exact UInt64.le_refl _
    · show F ≤ WithTop.some ((t.put a (timer.refreshed now)).next b).toNat
      rcases (OrderedSet.mem_insert (orderedBy _)).mp hb with rfl | hb
      · rw [next_put_self]
        exact hF hrec
      · rw [next_put_of_ne (hmem b hb)]
        exact h.front b hb
  · next hrec =>
    rw [if_neg hrec]
    refine ⟨hout, fun b hb => ?_, Started.put h.started (h.started a timer htimer),
      h.insertedAtFront, h.m_tickled, h.previous, fun b hb => ?_⟩
    · rw [heap_put_of_ne (hne b hb)]
      exact h.alive b (mem_cons_of_mem _ hb)
    · rw [next_put_of_ne (hmem b hb)]
      exact h.front b hb

/-- `listExpiredCb` does not bring the front forward. -/
theorem listExpiredCb_later (h : Sound s clock) (hclock : clock ≤ now)
    (hfree : s.heap now_timer = none) (hfits : (Op.listExpiredCb now now_timer).NoOverflow s) :
    ∃ cbs t, s.listExpiredCb now now_timer = .ok (cbs, t) ∧ Later s t ∧ Sound t now := by
  have hstart := h.started.mono hclock
  have hprev := UInt64.le_trans h.previous hclock
  have hroll : (s.detectClockRollover now).1 = false := by
    rw [detectClockRollover, decide_eq_false (UInt64.not_lt.mpr hprev), Bool.false_and]
  have hdetect : Ordered (fun _ => True) (s.detectClockRollover now).2 := h.ordered.congr rfl rfl
  rcases listExpiredCb_cases s now now_timer with hrun | hrun | hrun
  · exact ⟨[], s, hrun, Later.refl s, h.ordered, hstart, hprev⟩
  · exact ⟨[], _, hrun, ⟨rfl, rfl, le_refl _⟩, hdetect, hstart, UInt64.le_refl now⟩
  · rw [hroll] at hrun
    obtain ⟨expired, rest, hcut, hrest, hexpire, hout, hheld⟩ :=
      expire_cut hdetect false now now_timer
    have hdue := expired_due hdetect hfree hcut hrest
    have hmem : ∀ a ∈ expired, a ∈ s.m_timers := by
      intro a ha
      rw [show s.m_timers = expired ++ rest from hcut]
      exact mem_append_left _ ha
    have hloop : Rearming s now s.earliest expired
        { (s.detectClockRollover now).2 with m_timers := rest } := by
      refine ⟨hout, fun a ha => ?_, hstart, rfl, rfl, UInt64.le_refl now, fun a ha => ?_⟩
      · obtain ⟨timer, htimer, -⟩ := hheld a ha
        refine ⟨timer, htimer, fun hrec => ?_⟩
        have hnext : s.next a = timer.m_next := by
          rw [TimerManager.next, nextAt, show s.heap a = some timer from htimer]
          rfl
        have hle := hdue a ha
        change s.next a ≤ now at hle
        rw [hnext] at hle
        refine le_trans (earliest_le h.ordered.sorted (hmem a ha)) ?_
        rw [hnext]
        exact WithTop.coe_le_coe.mpr (le_refreshed (hstart a timer htimer)
          (hfits a (hmem a ha) timer htimer hrec hle))
      · refine earliest_le h.ordered.sorted ?_
        rw [show s.m_timers = expired ++ rest from hcut]
        exact mem_append_right _ ha
    obtain ⟨cbs, t, hloop, ht⟩ := rearm_rule (P := Rearming s now s.earliest) Rearming.step
      expired [] hloop
    exact ⟨cbs, t, hrun.trans (hexpire.trans hloop),
      ⟨ht.insertedAtFront, ht.m_tickled, le_earliest ht.front⟩, ht.out, ht.started, ht.previous⟩

end Calls

/-- **One call** other than `getNextTimer` notifies if it brings the front forward and
the flag is not set. -/
--  drop a =>|a timer that is dropped is not in the set
theorem step_moved {s : TimerManager} {clock : UInt64} (h : Sound s clock) (hlegal : op.Legal s)
    (hclock : ∀ now ∈ op.now, clock ≤ now) (hfits : op.NoOverflow s)
    (hop : ∀ now, op ≠ .getNextTimer now) :
    ∃ t, op.run s = .ok t ∧ Moved s t ∧ Sound t (op.now.getD clock) := by
  cases op with
  | addTimer now a ms cb recurring =>
    exact ⟨_, rfl, addTimer_moved h hlegal (hclock now rfl) ms cb recurring⟩
  | addConditionTimer now a ms cb weak_cond recurring =>
    exact ⟨_, rfl, addTimer_moved h hlegal (hclock now rfl) ms _ recurring⟩
  | cancel a =>
    obtain ⟨timer, ha⟩ := Option.isSome_iff_exists.mp hlegal
    by_cases hcb : timer.m_cb.isSome = true
    · obtain ⟨t, hrun, hlater, ht⟩ := cancel_later h ha hcb
      exact ⟨t, by rw [Op.run, hrun]; rfl, hlater.moved, ht⟩
    · exact ⟨s, by rw [Op.run, cancel_disarmed ha hcb]; rfl, (Later.refl s).moved, h⟩
  | refresh now a =>
    obtain ⟨timer, ha⟩ := Option.isSome_iff_exists.mp hlegal
    have hle := hclock now rfl
    by_cases hcb : timer.m_cb.isSome = true
    · obtain ⟨t, hrun, hlater, ht⟩ := refresh_later h ha hcb hle (hfits timer ha)
      exact ⟨t, by rw [Op.run, hrun]; rfl, hlater.moved, ht⟩
    · exact ⟨s, by rw [Op.run, refresh_disarmed ha hcb]; rfl, (Later.refl s).moved, h.mono hle⟩
  | reset now a ms from_now =>
    obtain ⟨timer, ha⟩ := Option.isSome_iff_exists.mp hlegal
    have hle := hclock now rfl
    by_cases hsame : ms = timer.m_ms ∧ from_now = false
    · exact ⟨s, by rw [Op.run, reset_same ha hsame]; rfl, (Later.refl s).moved, h.mono hle⟩
    · by_cases hcb : timer.m_cb.isSome = true
      · obtain ⟨t, hrun, hmoved, ht⟩ := reset_moved h ha hcb hle ms from_now hsame
        exact ⟨t, by rw [Op.run, hrun]; rfl, hmoved, ht⟩
      · exact ⟨s, by rw [Op.run, reset_disarmed ha hsame hcb]; rfl, (Later.refl s).moved,
          h.mono hle⟩
  | getNextTimer now => exact absurd rfl (hop now)
  | listExpiredCb now now_timer =>
    obtain ⟨cbs, t, hrun, hlater, ht⟩ := listExpiredCb_later h (hclock now rfl) hlegal hfits
    exact ⟨t, by rw [Op.run, hrun]; rfl, hlater.moved, ht⟩
  | drop a =>
    have hnext : ∀ b ∈ s.m_timers,
        ({ s with heap := Function.update s.heap a none } : TimerManager).next b = s.next b := by
      intro b hb
      have hne : b ≠ a := by
        rintro rfl
        exact hlegal hb
      show nextAt (Function.update s.heap a none) b = nextAt s.heap b
      rw [nextAt, nextAt, Function.update_of_ne hne]
    obtain ⟨t, hrun, ht⟩ := Op.run_spec h.ordered hlegal trivial
    cases hrun
    refine ⟨_, rfl, Later.moved (later_of_forall h.ordered.sorted rfl rfl fun b hb =>
      ⟨b, hb, Nat.le_of_eq (congrArg UInt64.toNat (hnext b hb).symm)⟩), ht, ?_, h.previous⟩
    intro b timer hb
    change Function.update s.heap a none b = some timer at hb
    refine h.started b timer ?_
    by_cases hba : b = a
    · subst hba
      rw [Function.update_self] at hb
      exact absurd hb (Option.some_ne_none timer).symm
    · rwa [Function.update_of_ne hba] at hb

/-! ## Runs -/

/-- What one call does: `getNextTimer` clears the flag, the others notify if they bring the
front forward. -/
theorem track_cases {s t : Clocked} (h : Sound s.manager s.clock) (hop : Allowed s op)
    (hstep : track s op = some t) :
    Sound t.manager t.clock
      ∧ ((t.manager = { s.manager with m_tickled := false } ∧ t.seen = s.manager.earliest)
        ∨ (Moved s.manager t.manager ∧ t.seen = s.seen)) := by
  by_cases hget : ∃ now, op = .getNextTimer now
  · obtain ⟨now, rfl⟩ := hget
    cases hstep
    have hmanager := getNextTimer_snd s.manager now
    have hle := hop.clock now rfl
    refine ⟨?_, Or.inl ⟨hmanager, rfl⟩⟩
    show Sound (s.manager.getNextTimer now).2 now
    rw [hmanager]
    exact ⟨h.ordered.congr rfl rfl, h.started.mono hle, UInt64.le_trans h.previous hle⟩
  · have hne : ∀ now, op ≠ .getNextTimer now := fun now heq => hget ⟨now, heq⟩
    obtain ⟨m, hrun, hmoved, hm⟩ := step_moved h hop.legal hop.clock hop.fits hne
    change (step s.manager op).map _ = some t at hstep
    rw [step, hrun] at hstep
    cases hstep
    refine ⟨hm, Or.inr ⟨hmoved, ?_⟩⟩
    cases op with
    | getNextTimer now => exact absurd rfl (hne now)
    | _ => rfl

private theorem new_sound (now : UInt64) : Sound (TimerManager.new now) now :=
  ⟨new_ordered _ now, fun _ _ h => absurd h (Option.some_ne_none _).symm, UInt64.le_refl now⟩

/-- The flag is set, or the front is not before the one that was last seen. -/
def Covered (s : Clocked) : Prop :=
  s.manager.m_tickled = true ∨ s.seen ≤ s.manager.earliest

theorem Covered.step {s t : Clocked} (h : Covered s) (hsound : Sound s.manager s.clock)
    (hop : Allowed s op) (hstep : track s op = some t) : Covered t := by
  obtain ⟨-, ⟨hmanager, hseen⟩ | ⟨hmoved, hseen⟩⟩ := track_cases hsound hop hstep
  · right
    rw [hmanager, hseen]
    exact le_refl _
  · rcases hmoved with ⟨-, htick⟩ | ⟨-, htick, hfront⟩
    · exact Or.inl htick
    · rcases hfront with hfront | hfront
      · exact Or.inl (htick.trans hfront)
      · rcases h with h | h
        · exact Or.inl (htick.trans h)
        · right
          rw [hseen]
          exact le_trans h hfront

/-- Since there were `n` notifications and the front was `F`: another one, or the flag is clear and
the front is not before `F`. -/
def Heard (n : Nat) (F : WithTop Nat) (s : TimerManager) : Prop :=
  n < s.insertedAtFront
    ∨ (s.insertedAtFront = n ∧ s.m_tickled = false ∧ F ≤ s.earliest)

theorem Heard.step {n : Nat} {s t : Clocked} (h : Heard n F s.manager)
    (hsound : Sound s.manager s.clock) (hop : Allowed s op) (hstep : track s op = some t) :
    Heard n F t.manager := by
  obtain ⟨-, ⟨hmanager, -⟩ | ⟨hmoved, -⟩⟩ := track_cases hsound hop hstep
  · rw [hmanager]
    rcases h with h | ⟨hcalls, -, hF⟩
    · exact Or.inl h
    · exact Or.inr ⟨hcalls, rfl, hF⟩
  · rcases hmoved with ⟨hcalls, -⟩ | ⟨hcalls, htick, hfront⟩
    · left
      rcases h with h | ⟨h, -, -⟩
      · omega
      · omega
    · rcases h with h | ⟨hn, hclear, hF⟩
      · exact Or.inl (hcalls ▸ h)
      · refine Or.inr ⟨hcalls.trans hn, htick.trans hclear, le_trans hF ?_⟩
        rcases hfront with hset | hfront
        · rw [hclear] at hset
          exact absurd hset Bool.false_ne_true
        · exact hfront

/-- **The thread that waits is woken.**  If the clock does not go back and no period added
to it overflows: the flag is set or the front is not before the one that the most recent
`getNextTimer` saw, and whenever the front is before the one a `getNextTimer` saw,
`onTimerInsertedAtFront` has been called since. -/
theorem timer_wakeup {now₀ : UInt64} {s : Clocked}
    (h : Reaches track Allowed (Clocked.new now₀) s) :
    (s.manager.m_tickled = true ∨ s.seen ≤ s.manager.earliest)
      ∧ ∀ now t u, s.clock ≤ now → track s (.getNextTimer now) = some t →
        Reaches track Allowed t u → u.manager.earliest < s.manager.earliest →
        t.manager.insertedAtFront < u.manager.insertedAtFront := by
  have hs := h.inv (P := fun s : Clocked => Sound s.manager s.clock ∧ Covered s)
    ⟨new_sound now₀, Or.inr le_top⟩ fun ⟨hsound, hcovered⟩ hop hstep =>
      ⟨(track_cases hsound hop hstep).1, hcovered.step hsound hop hstep⟩
  refine ⟨hs.2, fun now t u hclock hget hrun hfront => ?_⟩
  have hop : Allowed s (.getNextTimer now) := by
    refine ⟨trivial, fun n hn => ?_, trivial⟩
    cases hn
    exact hclock
  have hmanager : t.manager = { s.manager with m_tickled := false } := by
    cases hget
    exact getNextTimer_snd s.manager now
  have ht : Sound t.manager t.clock
      ∧ Heard t.manager.insertedAtFront s.manager.earliest t.manager := by
    refine ⟨(track_cases hs.1 hop hget).1, Or.inr ?_⟩
    rw [hmanager]
    exact ⟨rfl, rfl, le_refl _⟩
  have hu := hrun.inv (P := fun u : Clocked => Sound u.manager u.clock ∧ Heard
    t.manager.insertedAtFront s.manager.earliest u.manager) ht
    fun ⟨hsound, hheard⟩ hop hstep =>
      ⟨(track_cases hsound hop hstep).1, hheard.step hsound hop hstep⟩
  rcases hu.2 with hcalls | ⟨-, -, hle⟩
  · exact hcalls
  · exact absurd hfront (not_lt.mpr hle)

/-- A timer for time 11, seen at time 1; then one for time 5 is added. -/
theorem timer_wakeup_earlier :
    ∃ s t u, exec track (Clocked.new 1) [.addTimer 1 3 10 (some (.user 0)) false] = some s
      ∧ track s (.getNextTimer 1) = some t
      ∧ exec track t [.addTimer 2 7 3 (some (.user 1)) true] = some u
      ∧ u.manager.earliest < s.manager.earliest
      ∧ t.manager.insertedAtFront < u.manager.insertedAtFront := by
  have hfront : WithTop.some 5 < WithTop.some 11 := WithTop.coe_lt_coe.mpr (by decide)
  have hfirst : Along track Allowed (Clocked.new 1) [.addTimer 1 3 10 (some (.user 0)) false] := by
    refine ⟨⟨rfl, ?_, trivial⟩, fun _ _ => trivial⟩
    rintro _ ⟨⟩
    decide
  refine ⟨_, _, _, rfl, rfl, rfl, hfront, ?_⟩
  refine (timer_wakeup (reaches_of_exec hfirst rfl)).2 1 _ _ (by decide) rfl
    (Reaches.single (l := .addTimer 2 7 3 (some (.user 1)) true) ?_ rfl) hfront
  refine ⟨rfl, ?_, trivial⟩
  rintro _ ⟨⟩
  decide

/-- The only timer is for the last time there is; a `refresh` moves it to time 0, the flag stays
clear and nobody is notified. -/
theorem refresh_overflow : ∃ s t u, exec track (Clocked.new 1)
        [.addTimer 1 3 0xFFFFFFFFFFFFFFFE (some (.user 0)) false] = some s
      ∧ track s (.getNextTimer 1) = some t
      ∧ (t.clock ≤ 2 ∧ Op.Legal t.manager (.refresh 2 3))
      ∧ track t (.refresh 2 3) = some u
      ∧ u.manager.m_tickled = false
      ∧ u.manager.earliest < u.seen
      ∧ u.manager.insertedAtFront = t.manager.insertedAtFront := by
  refine ⟨_, _, _, rfl, rfl, ⟨by decide, rfl⟩, rfl, rfl, ?_, rfl⟩
  have hlast : (1 + 0xFFFFFFFFFFFFFFFE : UInt64).toNat = 0xFFFFFFFFFFFFFFFF := by decide
  have hlt : WithTop.some 0 < WithTop.some (1 + 0xFFFFFFFFFFFFFFFE : UInt64).toNat := by
    rw [hlast]
    exact WithTop.coe_lt_coe.mpr (by decide)
  exact hlt

end SylarTimer
