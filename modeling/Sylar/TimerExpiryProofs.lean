import Sylar.TimerWakeupProofs

/-! # Which timers expire (`timer.cc`)

`listExpiredCb` cuts the set at a probe timer with the present time: by
`lower_bound`, and then past the timers with the same time, since the probe's
address may stand anywhere among theirs.  What is in front of the cut is taken
out, and the recurring timers are inserted again into the set that is left.

* **`expired_eq_due`** — the cut is exact, ties included.
* **`rearm_spec`** — the loop over the timers that were taken out: each of them
  is changed once, from the state it had before the loop.
* **`expiry_exact`** — the callbacks returned are those of the timers that are
  due, in the order of their times; what becomes of each timer; and after the
  clock went back by more than an hour, all timers are due. -/

namespace SylarTimer

open TimerManager List

/-- The callback of the timer at an address. -/
def TimerManager.callbackAt (s : TimerManager) (a : Address) : Option Callback :=
  (s.heap a).bind Timer.m_cb

/-- The timers that expire: those whose time has come, or all of them. -/
def TimerManager.due (s : TimerManager) (rollover : Bool) (now : UInt64) : List Address :=
  if rollover then s.m_timers else s.m_timers.filter fun a => decide (s.next a ≤ now)

theorem TimerManager.mem_of_mem_due {s : TimerManager} {rollover : Bool} {now : UInt64}
    {a : Address} (h : a ∈ s.due rollover now) : a ∈ s.m_timers := by
  rw [due] at h
  split at h
  · exact h
  · exact mem_of_mem_filter h

/-- The timer as the loop of `listExpiredCb` leaves it. -/
def Timer.expired (timer : Timer) (now : UInt64) : Timer :=
  if timer.m_recurring then timer.refreshed now else { timer with m_cb := none }

/-! ## The cut -/

section Cut

variable {Q : Option Callback → Prop} {s : TimerManager} {now : UInt64} {now_timer : Address}

/-- Neither loop of the search stops at a timer that is due. -/
theorem unexpired_not_due (h : Ordered Q s) (hfree : s.heap now_timer = none) :
    ∀ a ∈ s.unexpired false now now_timer, now < s.next a := by
  let p := s.put now_timer ⟨false, 0, now, none⟩
  have hne : ∀ a ∈ s.m_timers, a ≠ now_timer := by
    rintro a ha rfl
    exact h.not_mem hfree ha
  have hbefore : ∀ a ∈ s.m_timers, p.before a now_timer = true
      ↔ s.next a < now ∨ s.next a = now ∧ a < now_timer := by
    intro a ha
    have hnext : nextAt p.heap a = s.next a := next_put_of_ne (hne a ha)
    have hprobe : nextAt p.heap now_timer = now := next_put_self
    rw [(orderedBy p).lt_iff, key_lt, hnext, hprobe]
  have hsorted : OrderedSet.Sorted (key p.heap) s.m_timers :=
    h.sorted.congr fun a ha => key_put_of_ne (hne a ha)
  -- from the lower bound on, no timer comes before the probe
  have hlower : ∀ a ∈ OrderedSet.lowerBound p.before now_timer s.m_timers, ¬ s.next a < now := by
    intro a ha hlt
    refine hsorted.not_of_mem_dropWhile (fun b _ c _ hbc hc => ?_) a ha ?_
    · rw [(orderedBy p).lt_iff] at hc ⊢
      exact lt_trans hbc hc
    · exact (hbefore a ((dropWhile_sublist _).subset ha)).mpr (Or.inl hlt)
  intro a ha
  rw [unexpired, if_neg Bool.false_ne_true] at ha
  have hmem := (dropWhile_sublist _).subset ha
  -- and among those the timers with the time of the probe stand in front
  have hne_now : ¬ (s.next a == now) = true := by
    refine OrderedSet.Sorted.not_of_mem_dropWhile
      (h.sorted.sublist (dropWhile_sublist _)) (fun b hb c _ hbc hc => ?_) a ha
    rw [beq_iff_eq] at hc ⊢
    rcases key_lt.mp hbc with hlt | ⟨heq, -⟩
    · exact absurd (lt_of_lt_of_eq hlt hc) (hlower b hb)
    · exact heq.trans hc
  rw [beq_iff_eq] at hne_now
  exact UInt64.lt_of_le_of_ne (UInt64.not_lt.mp (hlower a hmem)) (Ne.symm hne_now)

/-- **The cut**: what is taken out are the timers that are due. -/
theorem expired_eq_due (h : Ordered Q s) (hfree : s.heap now_timer = none)
    {expired rest : List Address} (hcut : s.m_timers = expired ++ rest)
    (hrest : rest = s.unexpired false now now_timer) :
    expired = s.due false now := by
  have hdue : ∀ a ∈ expired, decide (s.next a ≤ now) = true := fun a ha =>
    decide_eq_true (expired_due h hfree hcut hrest a ha)
  have hnot : ∀ a ∈ rest, ¬ decide (s.next a ≤ now) = true := by
    intro a ha hle
    rw [hrest] at ha
    exact absurd (of_decide_eq_true hle) (UInt64.not_le.mpr (unexpired_not_due h hfree a ha))
  rw [due, if_neg Bool.false_ne_true, hcut, filter_append, filter_eq_self.mpr hdue,
    filter_eq_nil_iff.mpr hnot, append_nil]

end Cut

/-! ## The loop -/

section Loop

variable {s : TimerManager} {now : UInt64} {a b : Address} {timer : Timer}

theorem heap_rearmOne_self : (s.rearmOne now a timer).heap a = some (timer.expired now) := by
  rw [TimerManager.rearmOne, Timer.expired]
  split
  · exact heap_put_self
  · exact heap_put_self

theorem heap_rearmOne_of_ne (h : b ≠ a) : (s.rearmOne now a timer).heap b = s.heap b := by
  rw [TimerManager.rearmOne]
  split
  · exact heap_put_of_ne h
  · exact heap_put_of_ne h

theorem mem_rearmOne : b ∈ (s.rearmOne now a timer).m_timers
      ↔ b = a ∧ timer.m_recurring = true ∨ b ∈ s.m_timers := by
  rw [TimerManager.rearmOne]
  split
  · next hrec =>
      rw [and_iff_left hrec]
      exact OrderedSet.mem_insert (orderedBy _)
  · next hrec =>
      refine ⟨Or.inr, ?_⟩
      rintro (⟨-, h⟩ | h)
      · exact absurd h hrec
      · exact h

private theorem mem_rearmOne_of_ne (h : b ≠ a) :
    b ∈ (s.rearmOne now a timer).m_timers ↔ b ∈ s.m_timers := by
  rw [mem_rearmOne, or_iff_right fun hb => h hb.1]

/-- **The loop** over the timers that were taken out. -/
theorem rearm_spec (now : UInt64) (expired : List Address) (cbs : List (Option Callback))
    {s : TimerManager} (hnodup : expired.Nodup) (halive : ∀ a ∈ expired, (s.heap a).isSome) :
    ∃ t, rearm now expired cbs s = .ok (cbs ++ expired.map s.callbackAt, t)
      ∧ (∀ a ∈ expired, ∀ timer, s.heap a = some timer → t.heap a = some (timer.expired now)
          ∧ (a ∈ t.m_timers ↔ timer.m_recurring = true ∨ a ∈ s.m_timers))
      ∧ ∀ a, a ∉ expired → t.heap a = s.heap a ∧ (a ∈ t.m_timers ↔ a ∈ s.m_timers) := by
  induction expired generalizing cbs s with
  | nil =>
    refine ⟨s, ?_, fun a ha => absurd ha not_mem_nil, fun a _ => ⟨rfl, Iff.rfl⟩⟩
    rw [rearm, map_nil, append_nil]
  | cons a expired ih =>
    obtain ⟨hnot, hnodup⟩ := nodup_cons.mp hnodup
    obtain ⟨timer, htimer⟩ := Option.isSome_iff_exists.mp (halive a mem_cons_self)
    have hne : ∀ b ∈ expired, b ≠ a := by
      rintro b hb rfl
      exact hnot hb
    have hheap : ∀ b ∈ expired, (s.rearmOne now a timer).heap b = s.heap b :=
      fun b hb => heap_rearmOne_of_ne (hne b hb)
    obtain ⟨t, hrun, hin, hout⟩ := ih (cbs ++ [timer.m_cb])
      (s := s.rearmOne now a timer) hnodup fun b hb => by
        rw [hheap b hb]
        exact halive b (mem_cons_of_mem _ hb)
    have hcbs : expired.map (s.rearmOne now a timer).callbackAt = expired.map s.callbackAt := by
      refine map_congr_left fun b hb => ?_
      rw [callbackAt, callbackAt, hheap b hb]
    have hcb : s.callbackAt a = timer.m_cb := by
      rw [callbackAt, htimer]
      rfl
    refine ⟨t, ?_, fun b hb timer' hb' => ?_, fun b hb => ?_⟩
    · rw [rearm, htimer]
      dsimp only
      rw [hrun, hcbs, map_cons, hcb, append_assoc]
      rfl
    · rcases mem_cons.mp hb with rfl | hb
      · -- the timer itself: later rounds leave it alone
        obtain ⟨hsame, hmem⟩ := hout b hnot
        rw [htimer] at hb'
        cases hb'
        refine ⟨hsame.trans heap_rearmOne_self, hmem.trans ?_⟩
        rw [mem_rearmOne, and_iff_right rfl]
      · obtain ⟨hthis, hmem⟩ := hin b hb timer' (by rw [hheap b hb]; exact hb')
        rw [mem_rearmOne_of_ne (hne b hb)] at hmem
        exact ⟨hthis, hmem⟩
    · obtain ⟨hba, hb⟩ := not_or.mp (mt mem_cons.mpr hb)
      obtain ⟨hsame, hmem⟩ := hout b hb
      rw [heap_rearmOne_of_ne hba] at hsame
      rw [mem_rearmOne_of_ne hba] at hmem
      exact ⟨hsame, hmem⟩

end Loop

/-! ## `listExpiredCb` -/

/-- What `listExpiredCb` has to do with the timers `due`: their callbacks are returned, each once in
the order of the times; a timer that is not recurring leaves the set and loses its callback; a
recurring one gets the time `now + m_ms`; all others stay. -/
structure Expiry (s : TimerManager) (now : UInt64) (due : List Address)
    (cbs : List (Option Callback)) (t : TimerManager) : Prop where
  callbacks : cbs = due.map s.callbackAt
  nodup : due.Nodup
  sorted : due.Pairwise fun a b => s.next a ≤ s.next b
  oneShot : ∀ a ∈ due, ∀ timer, s.heap a = some timer → timer.m_recurring = false →
    a ∉ t.m_timers ∧ t.heap a = some { timer with m_cb := none }
  recurring : ∀ a ∈ due, ∀ timer, s.heap a = some timer → timer.m_recurring = true →
    a ∈ t.m_timers ∧ t.heap a = some { timer with m_next := now + timer.m_ms }
  others : ∀ a, a ∉ due → t.heap a = s.heap a ∧ (a ∈ t.m_timers ↔ a ∈ s.m_timers)

section Calls

variable {Q : Option Callback → Prop} {s : TimerManager}

theorem expiry_nothing (s : TimerManager) (now : UInt64) {t : TimerManager}
    (hheap : t.heap = s.heap) (htimers : t.m_timers = s.m_timers) :
    Expiry s now [] [] t where
  callbacks := rfl
  nodup := nodup_nil
  sorted := List.Pairwise.nil
  oneShot a ha := absurd ha not_mem_nil
  recurring a ha := absurd ha not_mem_nil
  others a _ := by rw [hheap, htimers]; exact ⟨rfl, Iff.rfl⟩

/-- The clock that the last check has read plays no part. -/
theorem Expiry.since {now now' : UInt64} {due : List Address} {cbs : List (Option Callback)}
    {t : TimerManager} (h : Expiry (s.detectClockRollover now').2 now due cbs t) :
    Expiry s now due cbs t :=
  ⟨h.callbacks, h.nodup, h.sorted, h.oneShot, h.recurring, h.others⟩

/-- `expire` takes the timers in front of the cut. -/
theorem expire_expiry (h : Ordered Q s) (rollover : Bool) (now : UInt64) (now_timer : Address) :
    ∃ expired cbs t, s.m_timers = expired ++ s.unexpired rollover now now_timer
      ∧ s.expire rollover now now_timer = .ok (cbs, t) ∧ Expiry s now expired cbs t := by
  obtain ⟨expired, rest, hcut, hrest, hexpire, hout, hheld⟩ := expire_cut h rollover now now_timer
  have halive : ∀ a ∈ expired, (s.heap a).isSome := by
    intro a ha
    obtain ⟨timer, htimer, -⟩ := hheld a ha
    rw [htimer]
    rfl
  obtain ⟨t, hrun, hin, hothers⟩ := rearm_spec now expired []
    (s := { s with m_timers := rest }) hout.nodup halive
  have hfront : expired.Pairwise fun a b => key s.heap a < key s.heap b := by
    have hsorted := h.sorted
    rw [hcut] at hsorted
    exact (pairwise_append.mp hsorted).1
  have hgone : ∀ a ∈ expired, a ∉ rest := hout.outside
  refine ⟨expired, _, t, hrest ▸ hcut, hexpire.trans hrun, ?_⟩
  refine ⟨rfl, hout.nodup, hfront.imp fun {a b} hab => ?_, fun a ha timer htimer hrec => ?_,
    fun a ha timer htimer hrec => ?_, fun a ha => ?_⟩
  · rcases key_lt.mp hab with hlt | ⟨heq, -⟩
    · exact UInt64.le_of_lt hlt
    · exact UInt64.le_of_eq heq
  · obtain ⟨hheap, hmem⟩ := hin a ha timer htimer
    rw [hrec, or_iff_right Bool.false_ne_true] at hmem
    rw [Timer.expired, if_neg (by rw [hrec]; exact Bool.false_ne_true)] at hheap
    exact ⟨fun ht => hgone a ha (hmem.mp ht), hheap⟩
  · obtain ⟨hheap, hmem⟩ := hin a ha timer htimer
    rw [Timer.expired, if_pos hrec] at hheap
    exact ⟨hmem.mpr (Or.inl hrec), hheap⟩
  · obtain ⟨hheap, hmem⟩ := hothers a ha
    refine ⟨hheap, hmem.trans ?_⟩
    rw [hcut, mem_append, or_iff_right ha]

/-- If the first timer is not due, none is. -/
theorem due_nil (h : Ordered Q s) {first : Address} (hfirst : s.m_timers.head? = some first)
    {now : UInt64} (hlater : now < s.next first) :
    s.due false now = [] := by
  obtain ⟨rest, hlist⟩ := head?_eq_some_iff.mp hfirst
  have hsorted := h.sorted
  rw [hlist] at hsorted
  refine filter_eq_nil_iff.mpr fun a ha hle => ?_
  have hle := of_decide_eq_true hle
  rw [hlist] at ha
  rcases mem_cons.mp ha with rfl | ha
  · exact UInt64.not_le.mpr hlater hle
  · rcases key_lt.mp ((pairwise_cons.mp hsorted).1 a ha) with hlt | ⟨heq, -⟩
    · exact UInt64.not_le.mpr (UInt64.lt_trans hlater hlt) hle
    · exact UInt64.not_le.mpr hlater (UInt64.le_trans (UInt64.le_of_eq heq) hle)

/-- `detectClockRollover`: the clock went back by more than an hour, or at all in the first hour
of the epoch, where the subtraction wraps around. -/
theorem detectClockRollover_iff (s : TimerManager) (now : UInt64) :
    (s.detectClockRollover now).1 = true ↔ now.toNat < s.m_previouseTime.toNat
      ∧ (s.m_previouseTime.toNat < 3600000 ∨ now.toNat + 3600000 < s.m_previouseTime.toNat) := by
  have hsub : (s.m_previouseTime - 60 * 60 * 1000).toNat
      = (2 ^ 64 - 3600000 + s.m_previouseTime.toNat) % 2 ^ 64 := UInt64.toNat_sub ..
  have hprev := s.m_previouseTime.toNat_lt
  have hnow := now.toNat_lt
  rw [detectClockRollover, Bool.and_eq_true, decide_eq_true_iff, decide_eq_true_iff,
    UInt64.lt_iff_toNat_lt, UInt64.lt_iff_toNat_lt, hsub]
  omega

/-- `listExpiredCb`, with and without a rollover. -/
theorem listExpiredCb_expiry (h : Ordered Q s) {now_timer : Address}
    (hfree : s.heap now_timer = none) (now : UInt64) :
    ∃ cbs t, s.listExpiredCb now now_timer = .ok (cbs, t) ∧ Ordered Q t
      ∧ Expiry s now (s.due (s.detectClockRollover now).1 now) cbs t := by
  have hclock : Ordered Q (s.detectClockRollover now).2 := h.congr rfl rfl
  obtain ⟨cbs, t, hrun, ht⟩ := listExpiredCb_spec h now now_timer
  refine ⟨cbs, t, hrun, ht, ?_⟩
  rw [listExpiredCb] at hrun
  cases hfirst : s.m_timers.head? with
  | none =>
    have hnil : s.due (s.detectClockRollover now).1 now = [] := by
      rw [due, head?_eq_none_iff.mp hfirst]
      exact ite_self _
    rw [hfirst] at hrun
    obtain ⟨rfl, rfl⟩ := Prod.mk.inj (Except.ok.inj hrun)
    rw [hnil]
    exact expiry_nothing s now rfl rfl
  | some first =>
    rw [hfirst] at hrun
    dsimp only at hrun
    split at hrun
    · next hearly =>
        -- the first timer is not due: the set is not searched
        obtain ⟨hroll, hlater⟩ := Bool.and_eq_true_iff.mp hearly
        obtain ⟨rfl, rfl⟩ := Prod.mk.inj (Except.ok.inj hrun)
        rw [Bool.not_eq_true'] at hroll
        rw [hroll, due_nil h hfirst (of_decide_eq_true hlater)]
        exact expiry_nothing s now rfl rfl
    · obtain ⟨expired, cbs', t', hcut, hexpire, hexpiry⟩ :=
        expire_expiry hclock (s.detectClockRollover now).1 now now_timer
      rw [hexpire] at hrun
      obtain ⟨rfl, rfl⟩ := Prod.mk.inj (Except.ok.inj hrun)
      cases hroll : (s.detectClockRollover now).1 with
      | true =>
        rw [hroll] at hcut
        have hall : s.m_timers = expired := hcut.trans (append_nil _)
        rw [due, if_pos rfl, hall]
        exact hexpiry.since
      | false =>
        rw [hroll] at hcut
        rw [expired_eq_due hclock hfree hcut rfl] at hexpiry
        exact hexpiry.since

/-- **Expiry is exact.** Without a rollover the timers due are those with `m_next ≤ now`; after one,
all. -/
theorem expiry_exact (h : Ordered Q s) {now_timer : Address}
    (hfree : s.heap now_timer = none) (now : UInt64) :
    ∃ cbs t, s.listExpiredCb now now_timer = .ok (cbs, t) ∧ Ordered Q t
      ∧ ((s.detectClockRollover now).1 = false →
          Expiry s now (s.m_timers.filter fun a => decide (s.next a ≤ now)) cbs t)
      ∧ (now.toNat + 60 * 60 * 1000 < s.m_previouseTime.toNat → Expiry s now s.m_timers cbs t) := by
  obtain ⟨cbs, t, hrun, ht, hexpiry⟩ := listExpiredCb_expiry h hfree now
  refine ⟨cbs, t, hrun, ht, fun hroll => ?_, fun hlt => ?_⟩
  · rw [hroll] at hexpiry
    exact hexpiry
  · rw [(detectClockRollover_iff s now).mpr ⟨by omega, Or.inr hlt⟩] at hexpiry
    exact hexpiry

/-- Two of three timers are due at 10, the time of the probe, whose address lies between theirs.
The first is recurring with the period 0. -/
theorem expiry_exact_ties :
    let s := (((TimerManager.new 0).addTimer 10 1 0 (some (.user 1)) true).addTimer 10 3 0
      (some (.user 3)) false).addTimer 10 4 1 (some (.user 4)) false
    ∃ cbs t, s.listExpiredCb 10 2 = .ok (cbs, t) ∧ Ordered (fun _ => True) t
      ∧ Expiry s 10 [1, 3] cbs t := by
  intro s
  let s₁ := (TimerManager.new 0).addTimer 10 1 0 (some (.user 1)) true
  let s₂ := s₁.addTimer 10 3 0 (some (.user 3)) false
  have h₁ : Ordered (fun _ => True) s₁ := (new_ordered _ 0).addTimer rfl trivial 10 0 true
  have h₂ : Ordered (fun _ => True) s₂ := h₁.addTimer (by decide) trivial 10 0 false
  have h₃ : Ordered (fun _ => True) s := h₂.addTimer (by decide) trivial 10 1 false
  obtain ⟨cbs, t, hrun, ht, hdue, -⟩ := expiry_exact h₃ (show s.heap 2 = none by decide) 10
  exact ⟨cbs, t, hrun, ht, hdue (by decide)⟩

end Calls

end SylarTimer
