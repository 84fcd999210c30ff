import Mathlib.Data.List.Forall2
import Mathlib.Data.UInt
import Sylar.TimerSetProofs

/-! # How long the idle fiber waits (`iomanager.cc`)

`IOManager::idle` asks `getNextTimer` for the time until the first timer and hands
it, cut to three seconds, to `epoll_wait`; a wait that a signal interrupts is
repeated with the value at hand.

* **`idle_wait_iff`** — the argument is the smaller of 3000 and the time until the
  earliest timer exactly if the comparison, made after a cast to `int`, sees a
  time that is positive as an `int`, and if the time has not changed (below 3000)
  when a wait is repeated. -/

namespace SylarIdleWait

open SylarTimer TimerManager

/-! ## The source's functions -/

def MAX_TIMEOUT : UInt64 := 3000

/-- `(int)v`. -/
def toInt (v : UInt64) : Int32 := v.toUInt32.toInt32

/-- `IOManager::stopping(timeout)`; `base` is what `Scheduler::stopping` returns. -/
def stopping (s : TimerManager) (now_ms : UInt64) (m_pendingEventCount : Nat) (base : Bool) :
    Bool × UInt64 :=
  let timeout := (s.getNextTimer now_ms).1
  (decide (timeout = ~~~0) && decide (m_pendingEventCount = 0) && base, timeout)

/-- The assignment to `next_timeout` in front of `epoll_wait`. -/
def bounded (next_timeout : UInt64) : UInt64 :=
  if next_timeout ≠ ~~~0 then
    if 3000 < (toInt next_timeout).toInt then MAX_TIMEOUT else next_timeout
  else MAX_TIMEOUT

/-- The loop around `epoll_wait`, interrupted that many times: the timeouts it passes. -/
def waitLoop : Nat → UInt64 → List Int32
  | 0, next_timeout => [toInt (bounded next_timeout)]
  | interrupts + 1, next_timeout =>
    toInt (bounded next_timeout) :: waitLoop interrupts (bounded next_timeout)

/-- One round of `idle` up to the end of its wait; `none` if it leaves the loop. -/
def idle (s : TimerManager) (now_ms : UInt64) (m_pendingEventCount : Nat) (base : Bool)
    (interrupts : Nat) : Option (List Int32) :=
  let (stop, next_timeout) := stopping s now_ms m_pendingEventCount base
  if stop then none else some (waitLoop interrupts next_timeout)

/-! ## The time to wait -/

/-- The milliseconds until a timer. -/
def remaining (s : TimerManager) (now_ms : UInt64) (a : Address) : Nat :=
  (s.next a).toNat - now_ms.toNat

/-- The smallest of 3000 and the milliseconds until each timer of the set. -/
def wanted (s : TimerManager) (now_ms : UInt64) : Nat :=
  s.m_timers.foldr (fun a n => min (remaining s now_ms a) n) 3000

theorem foldr_min_bounds {l : List Address} {f : Address → Nat} {x : Nat} (h : ∀ a ∈ l, x ≤ f a) :
    min x 3000 ≤ l.foldr (fun a n => min (f a) n) 3000
      ∧ l.foldr (fun a n => min (f a) n) 3000 ≤ 3000 := by
  induction l with
  | nil => exact ⟨Nat.min_le_right x 3000, Nat.le_refl 3000⟩
  | cons a l ih =>
    have hrest := ih fun b hb => h b (List.mem_cons_of_mem a hb)
    have ha := h a List.mem_cons_self
    rw [List.foldr_cons]
    omega

variable {Q : Option Callback → Prop} {s : TimerManager}

/-- In an ordered set the first timer is the earliest. -/
theorem next_le_of_first (h : Ordered Q s) {first a : Address} {rest : List Address}
    (hlist : s.m_timers = first :: rest) (ha : a ∈ rest) :
    (s.next first).toNat ≤ (s.next a).toNat := by
  have hsorted := h.sorted
  rw [hlist] at hsorted
  rcases key_lt.mp ((List.pairwise_cons.mp hsorted).1 a ha) with hlt | ⟨heq, -⟩
  · exact Nat.le_of_lt (UInt64.lt_iff_toNat_lt.mp hlt)
  · exact Nat.le_of_eq (congrArg UInt64.toNat heq)

/-- `getNextTimer` answers with the time to wait, before it is cut; without a timer with the
largest number. -/
theorem wanted_eq (h : Ordered Q s) (now_ms : UInt64) :
    wanted s now_ms = min (s.getNextTimer now_ms).1.toNat 3000 := by
  cases hlist : s.m_timers with
  | nil =>
    have hnone : (s.getNextTimer now_ms).1 = ~~~0 := by
      simp [getNextTimer, hlist]
    rw [wanted, hlist, hnone]
    rfl
  | cons first rest =>
    have hfirst : (s.getNextTimer now_ms).1.toNat = remaining s now_ms first := by
      simp only [getNextTimer, hlist, List.head?_cons]
      split_ifs with hle
      · have hle := UInt64.le_iff_toNat_le.mp hle
        exact (Nat.sub_eq_zero_of_le hle).symm
      · have hle := UInt64.not_le.mp hle
        exact UInt64.toNat_sub_of_le _ _ (UInt64.le_of_lt hle)
    have hbounds := foldr_min_bounds (l := rest) (f := remaining s now_ms)
      (x := remaining s now_ms first)
      fun a ha => Nat.sub_le_sub_right (next_le_of_first h hlist ha) _
    rw [wanted, hlist, List.foldr_cons, hfirst]
    omega

/-! ## The narrowing -/

/-- What the comparison with `MAX_TIMEOUT` must see: no timer, a positive `int`, or an `int` that is
large enough by itself. -/
def Fits (v : UInt64) : Prop :=
  v = ~~~0 ∨ v.toNat < 2 ^ 31 ∨ (3000 ≤ v.toNat % 2 ^ 32 ∧ v.toNat % 2 ^ 32 < 2 ^ 31)

instance (v : UInt64) : Decidable (Fits v) :=
  inferInstanceAs (Decidable (_ ∨ _ ∨ _))

theorem toInt_toInt (v : UInt64) : (toInt v).toInt = (v.toNat : Int).bmod (2 ^ 32) := by
  have hcast : (toInt v).toInt = (v.toUInt32.toNat : Int).bmod (2 ^ 32) :=
    BitVec.toInt_eq_toNat_bmod v.toUInt32.toBitVec
  rw [hcast, UInt64.toNat_toUInt32, Int.natCast_emod]
  exact Int.emod_bmod ..

/-- The argument of `epoll_wait` is the time cut to 3000 exactly if the time fits. -/
theorem toInt_bounded_iff (v : UInt64) :
    (toInt (bounded v)).toInt = (min v.toNat 3000 : Nat) ↔ Fits v := by
  have hmax : (toInt MAX_TIMEOUT).toInt = 3000 := by decide
  have hlt := v.toNat_lt
  have hcast := toInt_toInt v
  rw [Int.bmod_def] at hcast
  by_cases hnone : v = ~~~0
  · have hfits : Fits v := Or.inl hnone
    rw [bounded, if_neg (not_not.mpr hnone), hmax, hnone]
    exact iff_of_true rfl (hnone ▸ hfits)
  · rw [bounded, if_pos hnone, Fits, or_iff_right hnone]
    by_cases hlarge : 3000 < (toInt v).toInt
    · rw [if_pos hlarge, hmax]
      split at hcast <;> omega
    · rw [if_neg hlarge]
      split at hcast <;> omega

/-- A repeated wait passes the same value. -/
theorem bounded_bounded (v : UInt64) : bounded (bounded v) = bounded v := by
  have hmax : bounded MAX_TIMEOUT = MAX_TIMEOUT := by decide
  by_cases hnone : v = ~~~0
  · rw [show bounded v = MAX_TIMEOUT from if_neg (not_not.mpr hnone), hmax]
  · by_cases hlarge : 3000 < (toInt v).toInt
    · rw [show bounded v = MAX_TIMEOUT from (if_pos hnone).trans (if_pos hlarge), hmax]
    · have hv : bounded v = v := (if_pos hnone).trans (if_neg hlarge)
      rw [hv, hv]

theorem waitLoop_eq (interrupts : Nat) (v : UInt64) :
    waitLoop interrupts v = List.replicate (interrupts + 1) (toInt (bounded v)) := by
  induction interrupts generalizing v with
  | zero => rfl
  | succ n ih => rw [waitLoop, ih, bounded_bounded, List.replicate_succ (n := n + 1)]

/-! ## Main results -/

/-- Every wait of a round passes what is to be waited at that moment. -/
def WaitsRight (s : TimerManager) (ws : List Int32) (clocks : List UInt64) : Prop :=
  List.Forall₂ (fun w now_ms => w.toInt = (wanted s now_ms : Int)) ws clocks

theorem forall₂_replicate {w : Int32} {P : Int32 → UInt64 → Prop} (clocks : List UInt64) :
    List.Forall₂ P (List.replicate clocks.length w) clocks ↔ ∀ c ∈ clocks, P w c := by
  induction clocks with
  | nil => simp
  | cons c clocks ih => simp [List.replicate_succ, ih]

/-- **The wait of the idle fiber.** `now_ms` is the clock in `getNextTimer`; `later` has a reading
for each repeated wait. -/
theorem idle_wait_iff {Q : Option Callback → Prop} {s : TimerManager} (h : Ordered Q s)
    {now_ms : UInt64} {later : List UInt64} {m_pendingEventCount : Nat} {base : Bool}
    {ws : List Int32}
    (hws : idle s now_ms m_pendingEventCount base later.length = some ws) :
    WaitsRight s ws (now_ms :: later)
      ↔ Fits (s.getNextTimer now_ms).1 ∧ ∀ c ∈ later, wanted s c = wanted s now_ms := by
  have hloop : ws = List.replicate (now_ms :: later).length
      (toInt (bounded (s.getNextTimer now_ms).1)) := by
    obtain ⟨-, hloop⟩ := Option.ite_none_left_eq_some.mp hws
    rw [← Option.some.inj hloop, waitLoop_eq]
    rfl
  have hfirst := toInt_bounded_iff (s.getNextTimer now_ms).1
  rw [← wanted_eq h now_ms] at hfirst
  rw [WaitsRight, hloop, forall₂_replicate, List.forall_mem_cons, hfirst]
  refine and_congr_right fun hfits => forall₂_congr fun c _ => ?_
  rw [hfirst.mpr hfits]
  omega

/-- A manager with one timer, added at time 0. -/
def oneTimer (ms : UInt64) : TimerManager :=
  (TimerManager.new 0).addTimer 0 0 ms (some (.user 0)) false

private theorem oneTimer_ordered (ms : UInt64) : Ordered (fun _ => True) (oneTimer ms) :=
  (new_ordered _ 0).addTimer rfl trivial 0 ms false

/-- A timer in ten seconds and a wait that a signal interrupts after five. -/
theorem idle_wait_iff_interrupted : idle (oneTimer 10000) 0 0 false 1 = some [3000, 3000]
      ∧ WaitsRight (oneTimer 10000) [3000, 3000] [0, 5000] := by
  have hws : idle (oneTimer 10000) 0 0 false [5000].length = some [3000, 3000] := by decide
  refine ⟨hws, (idle_wait_iff (oneTimer_ordered 10000) hws).mpr ⟨by decide, ?_⟩⟩
  exact List.forall_mem_singleton.mpr (by decide)

/-- **A timer 2³¹ ms away**: `epoll_wait` waits for ever.  And a timer in one second, with a wait
interrupted after 900 ms: the second wait is again for one second. -/
theorem far_timer_blocks : idle (oneTimer (2 ^ 31)) 0 0 false 0 = some [-2147483648]
      ∧ wanted (oneTimer (2 ^ 31)) 0 = 3000
      ∧ idle (oneTimer 1000) 0 0 false 1 = some [1000, 1000]
      ∧ wanted (oneTimer 1000) 900 = 100 := by
  decide

end SylarIdleWait
