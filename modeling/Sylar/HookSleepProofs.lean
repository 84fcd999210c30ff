import Sylar.TimerSetProofs

/-! # The hooked sleeps (`hook.cc`)

With the hook on, `sleep`, `usleep` and `nanosleep` add a timer that schedules
the fiber again, and yield.  The duration becomes milliseconds in the types of
the arguments: `seconds * 1000` is an `unsigned int`, and the sum of
`nanosleep` is stored in an `int`, which then becomes a `uint64_t`.

* **`hooked_sleep_iff`** — the duration and the deadline are exact, and the
  deadline is not too early, EXACTLY when the milliseconds fit these types. -/

namespace SylarHookSleep

open SylarTimer

/-- A call of one of the three functions. -/
inductive Sleep where
  | sleep (seconds : UInt32)
  | usleep (usec : UInt32)
  | nanosleep (tv_sec tv_nsec : Int64)
  deriving DecidableEq, Repr

/-- `int timeout_ms` of `nanosleep`. -/
def timeout_ms (tv_sec tv_nsec : Int64) : Int32 :=
  (tv_sec * 1000 + tv_nsec / 1000 / 1000).toInt32

/-- The `uint64_t ms` that `addTimer` gets. -/
def Sleep.ms : Sleep → UInt64
  | .sleep seconds => (seconds * 1000).toUInt64
  | .usleep usec => (usec / 1000).toUInt64
  | .nanosleep tv_sec tv_nsec => (timeout_ms tv_sec tv_nsec).toInt64.toUInt64

/-- The hooked call up to `YieldToHold`: a timer at the address `a` that schedules
the fiber. -/
def Sleep.run (s : TimerManager) (now : UInt64) (a : Address) (fiber : Nat) (c : Sleep) :
    TimerManager :=
  s.addTimer now a c.ms (some (.user fiber)) false

/-! ## What is asked for -/

/-- A `timespec` of at most 2⁴⁰ seconds; the other arguments are all valid. -/
def Sleep.Valid : Sleep → Prop
  | .nanosleep tv_sec tv_nsec =>
    (0 ≤ tv_sec.toInt ∧ tv_sec.toInt ≤ 2 ^ 40) ∧ 0 ≤ tv_nsec.toInt ∧ tv_nsec.toInt < 10 ^ 9
  | _ => True

/-- The duration in nanoseconds. -/
def Sleep.nanos : Sleep → Nat
  | .sleep seconds => seconds.toNat * 10 ^ 9
  | .usleep usec => usec.toNat * 1000
  | .nanosleep tv_sec tv_nsec => (tv_sec.toInt * 10 ^ 9 + tv_nsec.toInt).toNat

/-- The duration in whole milliseconds. -/
def Sleep.requested (c : Sleep) : Nat := c.nanos / 10 ^ 6

/-- The timer is not due too early, and neither the duration nor the deadline was wrapped around or
narrowed. -/
structure NotCutShort (now : UInt64) (c : Sleep) (timer : Timer) : Prop where
  late : now.toNat + c.requested ≤ timer.m_next.toNat
  period : timer.m_ms.toNat = c.requested
  deadline : timer.m_next.toNat = now.toNat + timer.m_ms.toNat

/-- The milliseconds fit the type they are computed in. -/
def Sleep.Fits (c : Sleep) : Prop :=
  match c with
  | .sleep _ => c.requested < 2 ^ 32
  | .usleep _ => True
  | .nanosleep _ _ => c.requested < 2 ^ 31

instance (c : Sleep) : Decidable c.Fits :=
  match c with
  | .sleep _ => inferInstanceAs (Decidable (_ < 2 ^ 32))
  | .usleep _ => inferInstanceAs (Decidable True)
  | .nanosleep _ _ => inferInstanceAs (Decidable (_ < 2 ^ 31))

/-! ## The conversions -/

private theorem requested_sleep (seconds : UInt32) :
    (Sleep.sleep seconds).requested = seconds.toNat * 1000 := by
  show seconds.toNat * 10 ^ 9 / 10 ^ 6 = _
  omega

theorem requested_usleep (usec : UInt32) : (Sleep.usleep usec).requested = usec.toNat / 1000 := by
  show usec.toNat * 1000 / 10 ^ 6 = _
  omega

/-- A `uint64_t` made of a value that is not negative is that value, and only
then. -/
theorem toNat_toUInt64_iff {x : Int64} {n : Nat} (hn : n < 2 ^ 63) :
    x.toUInt64.toNat = n ↔ x.toInt = n := by
  have hx : x.toInt = (x.toUInt64.toNat : Int).bmod (2 ^ 64) :=
    BitVec.toInt_eq_toNat_bmod x.toBitVec
  have hlt := x.toUInt64.toNat_lt
  rw [hx, Int.bmod_def]
  split <;> omega

variable {tv_sec tv_nsec : Int64} {c : Sleep}

/-- The sum of `nanosleep`, before it is stored. -/
theorem toInt_timeout (h : (Sleep.nanosleep tv_sec tv_nsec).Valid) :
    (tv_sec * 1000 + tv_nsec / 1000 / 1000).toInt = (Sleep.nanosleep tv_sec tv_nsec).requested := by
  obtain ⟨⟨hsec, hsec'⟩, hnsec, hnsec'⟩ := h
  have hthousand : (1000 : Int64).toInt = 1000 := rfl
  have hproduct : (tv_sec * 1000).toInt = tv_sec.toInt * 1000 := by
    rw [Int64.toInt_mul, hthousand]
    exact Int.bmod_eq_of_le_mul_two (by omega) (by omega)
  have hmicros : (tv_nsec / 1000).toInt = tv_nsec.toInt / 1000 := by
    rw [Int64.toInt_div, hthousand, Int.tdiv_eq_ediv_of_nonneg hnsec]
    exact Int.bmod_eq_of_le_mul_two (by omega) (by omega)
  have hmillis : (tv_nsec / 1000 / 1000).toInt = tv_nsec.toInt / 1000 / 1000 := by
    rw [Int64.toInt_div, hthousand, hmicros, Int.tdiv_eq_ediv_of_nonneg (by omega)]
    exact Int.bmod_eq_of_le_mul_two (by omega) (by omega)
  rw [Int64.toInt_add, hproduct, hmillis, Int.bmod_eq_of_le_mul_two (by omega) (by omega)]
  show _ = (((tv_sec.toInt * 10 ^ 9 + tv_nsec.toInt).toNat / 10 ^ 6 : Nat) : Int)
  omega

/-- Stored in an `int`, the sum of `nanosleep` is what it was exactly if it is below
2³¹. -/
theorem ms_nanosleep_iff (h : (Sleep.nanosleep tv_sec tv_nsec).Valid) :
    (Sleep.nanosleep tv_sec tv_nsec).ms.toNat = (Sleep.nanosleep tv_sec tv_nsec).requested
      ↔ (Sleep.nanosleep tv_sec tv_nsec).requested < 2 ^ 31 := by
  have hsum := toInt_timeout h
  have hbound : (Sleep.nanosleep tv_sec tv_nsec).requested < 2 ^ 63 := by
    have hlt := (tv_sec * 1000 + tv_nsec / 1000 / 1000).toInt_lt
    omega
  rw [Sleep.ms, toNat_toUInt64_iff hbound, Int32.toInt_toInt64, timeout_ms,
    Int64.toInt_toInt32, hsum, Int.bmod_def]
  split <;> omega

/-- The milliseconds are the duration exactly if they fit. -/
theorem ms_iff (hc : c.Valid) : c.ms.toNat = c.requested ↔ c.Fits := by
  cases c with
  | sleep seconds =>
    show ((seconds * 1000).toUInt64).toNat = _ ↔ _ < 2 ^ 32
    rw [requested_sleep, UInt32.toNat_toUInt64, UInt32.toNat_mul]
    show seconds.toNat * 1000 % 2 ^ 32 = _ ↔ _
    omega
  | usleep usec =>
    refine iff_of_true ?_ trivial
    rw [requested_usleep, Sleep.ms, UInt32.toNat_toUInt64, UInt32.toNat_div]
    rfl
  | nanosleep tv_sec tv_nsec => exact ms_nanosleep_iff hc

theorem Sleep.Fits.requested_lt (h : c.Fits) : c.requested < 2 ^ 32 := by
  cases c with
  | sleep seconds => exact h
  | usleep usec =>
    have hlt := usec.toNat_lt
    rw [requested_usleep]
    omega
  | nanosleep tv_sec tv_nsec => exact Nat.lt_trans h (by decide)

/-- **The hooked sleeps** are not cut short, and nothing is wrapped around or narrowed, EXACTLY when
the milliseconds fit the type they are computed in. -/
theorem hooked_sleep_iff {c : Sleep} (hc : c.Valid) {now : UInt64}
    (hnow : now.toNat < 2 ^ 60) (s : TimerManager) (a : Address) (fiber : Nat) :
    (∃ timer, (c.run s now a fiber).heap a = some timer ∧ NotCutShort now c timer) ↔ c.Fits := by
  have hheap : (c.run s now a fiber).heap a
      = some ⟨false, c.ms, now + c.ms, some (.user fiber)⟩ := heap_put_self
  constructor
  · rintro ⟨timer, htimer, h⟩
    rw [hheap] at htimer
    cases htimer
    exact (ms_iff hc).mp h.period
  · intro hfits
    have hms := (ms_iff hc).mpr hfits
    have hlt := hfits.requested_lt
    have hnext : (now + c.ms).toNat = now.toNat + c.ms.toNat := by
      rw [UInt64.toNat_add]
      exact Nat.mod_eq_of_lt (by omega)
    refine ⟨_, hheap, ?_, hms, hnext⟩
    show _ ≤ (now + c.ms).toNat
    omega

/-- The longest sleeps that are right. -/
theorem hooked_sleep_iff_longest :
    (∃ timer, ((Sleep.sleep 4294967).run (TimerManager.new 0) 1000 1 7).heap 1 = some timer
        ∧ NotCutShort 1000 (.sleep 4294967) timer)
      ∧ ∃ timer, ((Sleep.nanosleep 2147483 647999999).run (TimerManager.new 0) 1000 1 7).heap 1
          = some timer
        ∧ NotCutShort 1000 (.nanosleep 2147483 647999999) timer := by
  have hnow : (1000 : UInt64).toNat < 2 ^ 60 := by decide
  constructor
  · exact (hooked_sleep_iff (c := .sleep 4294967) trivial hnow _ 1 7).mpr (by decide)
  · exact (hooked_sleep_iff (c := .nanosleep 2147483 647999999)
      ⟨⟨by decide, by decide⟩, by decide, by decide⟩ hnow _ 1 7).mpr (by decide)

/-- One second more: the first timer is due after 704 ms, and the second one was
due before the call. -/
theorem sleep_wraps : ∃ first second,
      ((Sleep.sleep 4294968).run (TimerManager.new 0) 1000000000000 1 7).heap 1 = some first
      ∧ first.m_next = 1000000000704
      ∧ first.m_next.toNat < 1000000000000 + (Sleep.sleep 4294968).requested
      ∧ ((Sleep.nanosleep 2147484 0).run (TimerManager.new 0) 1000000000000 1 7).heap 1
        = some second
      ∧ second.m_next = 997852516704
      ∧ second.m_next.toNat < 1000000000000 + (Sleep.nanosleep 2147484 0).requested := by
  refine ⟨_, _, rfl, ?_, ?_, rfl, ?_, ?_⟩ <;> decide

end SylarHookSleep
