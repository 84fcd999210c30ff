import Mathlib.Data.List.Nodup
import Mathlib.Data.Prod.Lex
import Mathlib.Logic.Function.Basic
import Sylar.OrderedSetProofs
import Sylar.StepSystemProofs

/-! # The timers of a `TimerManager` (`timer.cc`)

The set `m_timers` orders pointers by the time `m_next` their timers hold, and
by address among equal times.  `cancel`, `refresh`, `reset` and the loop of
`listExpiredCb` change that time or drop the callback; each takes the timer
out of the set before and, if it stays armed, puts it back.  Every call is one
step here, and the clock is read anew in each, with any result.

* **`cancel_spec`**, **`refresh_spec`**, **`reset_spec`**, **`listExpiredCb_spec`**
  — what the calls do to an ordered set.
* **`timer_set_ordered`** — in every reachable state the set is strictly
  ordered and holds exactly the timers with a callback; no call misses one. -/

namespace SylarTimer

open StepSystem List

/-! ## The code -/

abbrev Address := Nat

/-- A callback that is not empty: one of the user, or `OnTimer` bound to a
condition and a callback. -/
inductive Callback where
  | user (cb : Nat)
  | OnTimer (weak_cond : Nat) (cb : Option Nat)
  deriving DecidableEq, Repr

/-- `Timer`. -/
structure Timer where
  m_recurring : Bool
  m_ms : UInt64
  m_next : UInt64
  m_cb : Option Callback
  deriving DecidableEq, Repr

/-- `m_next = sylar::GetCurrentMs() + m_ms`. -/
def Timer.refreshed (timer : Timer) (now : UInt64) : Timer :=
  { timer with m_next := now + timer.m_ms }

/-- The timer as `reset` leaves it. -/
def Timer.rescheduled (timer : Timer) (now ms : UInt64) (from_now : Bool) : Timer :=
  let start := if from_now then now else timer.m_next - timer.m_ms
  { timer with m_ms := ms, m_next := start + ms }

/-- The manager with the timers alive, by addresses, and the number of calls of
`onTimerInsertedAtFront`. -/
structure TimerManager where
  heap : Address → Option Timer
  m_timers : List Address
  m_tickled : Bool
  m_previouseTime : UInt64
  insertedAtFront : Nat

/-- `erase(end())`, and a call through a pointer to no timer. -/
inductive Fault where
  | eraseEnd
  | dangling
  deriving DecidableEq, Repr

/-- `m_next` of the timer at an address. -/
def nextAt (heap : Address → Option Timer) (a : Address) : UInt64 :=
  ((heap a).map Timer.m_next).getD 0

/-- `Timer::Comparator`; `none` is a null pointer. -/
def Comparator (heap : Address → Option Timer) : Option Address → Option Address → Bool
  | none, none => false
  | none, some _ => true
  | some _, none => false
  | some lhs, some rhs =>
    if nextAt heap lhs < nextAt heap rhs then true
    else if nextAt heap rhs < nextAt heap lhs then false
    else decide (lhs < rhs)

namespace TimerManager

/-- `TimerManager::TimerManager()`. -/
def new (now_ms : UInt64) : TimerManager := ⟨fun _ => none, [], false, now_ms, 0⟩

def next (s : TimerManager) (a : Address) : UInt64 := nextAt s.heap a

/-- The order of `m_timers`. -/
def before (s : TimerManager) (a b : Address) : Bool := Comparator s.heap (some a) (some b)

/-- The timer at an address is written. -/
def put (s : TimerManager) (a : Address) (timer : Timer) : TimerManager :=
  { s with heap := Function.update s.heap a (some timer) }

/-- `m_timers.insert(val)`. -/
def insert (s : TimerManager) (val : Address) : TimerManager :=
  { s with m_timers := OrderedSet.insert s.before val s.m_timers }

/-- `m_timers.erase(m_timers.find(val))`, if it is found. -/
def remove (s : TimerManager) (val : Address) : Option TimerManager :=
  (OrderedSet.remove s.before val s.m_timers).map fun m_timers => { s with m_timers }

/-- `addTimer(val, lock)`. -/
def addTimerVal (s : TimerManager) (val : Address) : TimerManager :=
  let s := s.insert val
  let at_front := decide (s.m_timers.head? = some val) && !s.m_tickled
  { s with
    m_tickled := s.m_tickled || at_front
    insertedAtFront := s.insertedAtFront + at_front.toNat }

/-- `addTimer(ms, cb, recurring)`, with the new timer at address `a`. -/
def addTimer (s : TimerManager) (now : UInt64) (a : Address) (ms : UInt64)
    (cb : Option Callback) (recurring : Bool) : TimerManager :=
  (s.put a ⟨recurring, ms, now + ms, cb⟩).addTimerVal a

/-- `addConditionTimer(ms, cb, weak_cond, recurring)`. -/
def addConditionTimer (s : TimerManager) (now : UInt64) (a : Address) (ms : UInt64)
    (cb : Option Nat) (weak_cond : Nat) (recurring : Bool) : TimerManager :=
  s.addTimer now a ms (some (.OnTimer weak_cond cb)) recurring

/-- `Timer::cancel`. -/
def cancel (s : TimerManager) (a : Address) : Except Fault (Bool × TimerManager) :=
  match s.heap a with
  | none => .error .dangling
  | some timer =>
    if timer.m_cb.isSome then
      match (s.put a { timer with m_cb := none }).remove a with
      | none => .error .eraseEnd
      | some s => .ok (true, s)
    else .ok (false, s)

/-- `Timer::refresh`. -/
def refresh (s : TimerManager) (now : UInt64) (a : Address) :
    Except Fault (Bool × TimerManager) :=
  match s.heap a with
  | none => .error .dangling
  | some timer =>
    if timer.m_cb.isNone then .ok (false, s)
    else
      match s.remove a with
      | none => .ok (false, s)
      | some s => .ok (true, (s.put a (timer.refreshed now)).insert a)

/-- `Timer::reset`. -/
def reset (s : TimerManager) (now : UInt64) (a : Address) (ms : UInt64) (from_now : Bool) :
    Except Fault (Bool × TimerManager) :=
  match s.heap a with
  | none => .error .dangling
  | some timer =>
    if ms = timer.m_ms ∧ from_now = false then .ok (true, s)
    else if timer.m_cb.isNone then .ok (false, s)
    else
      match s.remove a with
      | none => .ok (false, s)
      | some s => .ok (true, (s.put a (timer.rescheduled now ms from_now)).addTimerVal a)

/-- `getNextTimer`. -/
def getNextTimer (s : TimerManager) (now_ms : UInt64) : UInt64 × TimerManager :=
  let s := { s with m_tickled := false }
  match s.m_timers.head? with
  | none => (~~~0, s)
  | some a => (if s.next a ≤ now_ms then 0 else s.next a - now_ms, s)

/-- `detectClockRollover`. -/
def detectClockRollover (s : TimerManager) (now_ms : UInt64) : Bool × TimerManager :=
  (decide (now_ms < s.m_previouseTime)
      && decide (now_ms < s.m_previouseTime - 60 * 60 * 1000),
    { s with m_previouseTime := now_ms })

/-- The loop body of `listExpiredCb`: a recurring timer is armed again, the others lose their
callback. -/
def rearmOne (s : TimerManager) (now_ms : UInt64) (a : Address) (timer : Timer) :
    TimerManager :=
  if timer.m_recurring then (s.put a (timer.refreshed now_ms)).insert a
  else s.put a { timer with m_cb := none }

/-- The loop of `listExpiredCb` over `expired`. -/
def rearm (now_ms : UInt64) : List Address → List (Option Callback) → TimerManager →
    Except Fault (List (Option Callback) × TimerManager)
  | [], cbs, s => .ok (cbs, s)
  | a :: expired, cbs, s =>
    match s.heap a with
    | none => .error .dangling
    | some timer => rearm now_ms expired (cbs ++ [timer.m_cb]) (s.rearmOne now_ms a timer)

/-- What `listExpiredCb` leaves in the set; `now_timer` is the address of the timer it
makes for the search. -/
def unexpired (s : TimerManager) (rollover : Bool) (now_ms : UInt64) (now_timer : Address) :
    List Address :=
  if rollover then []
  else
    (OrderedSet.lowerBound (s.put now_timer ⟨false, 0, now_ms, none⟩).before now_timer
      s.m_timers).dropWhile fun a => s.next a == now_ms

/-- `listExpiredCb` from the search on. -/
def expire (s : TimerManager) (rollover : Bool) (now_ms : UInt64) (now_timer : Address) :
    Except Fault (List (Option Callback) × TimerManager) :=
  let rest := s.unexpired rollover now_ms now_timer
  let expired := s.m_timers.take (s.m_timers.length - rest.length)
  rearm now_ms expired [] { s with m_timers := rest }

/-- `listExpiredCb`. -/
def listExpiredCb (s : TimerManager) (now_ms : UInt64) (now_timer : Address) :
    Except Fault (List (Option Callback) × TimerManager) :=
  match s.m_timers.head? with
  | none => .ok ([], s)
  | some first =>
    let (rollover, s) := s.detectClockRollover now_ms
    if !rollover && decide (now_ms < s.next first) then .ok ([], s)
    else s.expire rollover now_ms now_timer

end TimerManager

open TimerManager

/-- The calls, with the clock and the address of a new timer, and the end of a timer nobody points
to. -/
inductive Op where
  | addTimer (now : UInt64) (a : Address) (ms : UInt64) (cb : Option Callback)
      (recurring : Bool)
  | addConditionTimer (now : UInt64) (a : Address) (ms : UInt64) (cb : Option Nat)
      (weak_cond : Nat) (recurring : Bool)
  | cancel (a : Address)
  | refresh (now : UInt64) (a : Address)
  | reset (now : UInt64) (a : Address) (ms : UInt64) (from_now : Bool)
  | getNextTimer (now : UInt64)
  | listExpiredCb (now : UInt64) (now_timer : Address)
  | drop (a : Address)
  deriving DecidableEq, Repr

/-- An operation on the manager. -/
def Op.run (s : TimerManager) : Op → Except Fault TimerManager
  | .addTimer now a ms cb recurring => .ok (s.addTimer now a ms cb recurring)
  | .addConditionTimer now a ms cb weak_cond recurring =>
    .ok (s.addConditionTimer now a ms cb weak_cond recurring)
  | .cancel a => (s.cancel a).map Prod.snd
  | .refresh now a => (s.refresh now a).map Prod.snd
  | .reset now a ms from_now => (s.reset now a ms from_now).map Prod.snd
  | .getNextTimer now => .ok (s.getNextTimer now).2
  | .listExpiredCb now now_timer => (s.listExpiredCb now now_timer).map Prod.snd
  | .drop a => .ok { s with heap := Function.update s.heap a none }

/-- New timers get a free address, calls go through pointers to timers, and a timer in the set does
not end. -/
def Op.Legal (s : TimerManager) : Op → Prop
  | .addTimer _ a _ _ _ | .addConditionTimer _ a _ _ _ _ => s.heap a = none
  | .cancel a | .refresh _ a | .reset _ a _ _ => (s.heap a).isSome
  | .getNextTimer _ => True
  | .listExpiredCb _ now_timer => s.heap now_timer = none
  | .drop a => a ∉ s.m_timers

/-- The callbacks of new timers meet `Q`. -/
def Op.Adds (Q : Option Callback → Prop) : Op → Prop
  | .addTimer _ _ _ cb _ => Q cb
  | .addConditionTimer _ _ _ cb weak_cond _ => Q (some (.OnTimer weak_cond cb))
  | _ => True

def step (s : TimerManager) (op : Op) : Option TimerManager := (op.run s).toOption

/-! ## The order -/

/-- The key of the order: the time, then the address. -/
def key (heap : Address → Option Timer) (a : Address) : Nat ×ₗ Nat :=
  toLex ((nextAt heap a).toNat, a)

private theorem key_inj (heap : Address → Option Timer) : Function.Injective (key heap) :=
  fun _ _ h => (Prod.mk.inj (toLex.injective h)).2

theorem key_lt {heap : Address → Option Timer} {a b : Address} : key heap a < key heap b
      ↔ nextAt heap a < nextAt heap b ∨ nextAt heap a = nextAt heap b ∧ a < b := by
  rw [key, key, Prod.Lex.toLex_lt_toLex, UInt64.lt_iff_toNat_lt, UInt64.toNat_inj]

/-- The comparator compares these keys. -/
theorem orderedBy (s : TimerManager) : OrderedSet.OrderedBy s.before (key s.heap) where
  inj := key_inj s.heap
  lt_iff a b := by
    rw [key_lt, before, Comparator]
    by_cases hlt : nextAt s.heap a < nextAt s.heap b
    · rw [if_pos hlt]
      exact iff_of_true rfl (Or.inl hlt)
    · rw [if_neg hlt]
      by_cases hgt : nextAt s.heap b < nextAt s.heap a
      · rw [if_pos hgt]
        refine iff_of_false Bool.false_ne_true ?_
        rintro (h | ⟨h, -⟩)
        · exact hlt h
        · exact absurd (h ▸ hgt) (UInt64.lt_irrefl _)
      · rw [if_neg hgt, decide_eq_true_iff]
        have heq : nextAt s.heap a = nextAt s.heap b :=
          UInt64.le_antisymm (UInt64.not_lt.mp hgt) (UInt64.not_lt.mp hlt)
        exact ⟨fun h => Or.inr ⟨heq, h⟩, fun h => (h.resolve_left hlt).2⟩

/-- There is a timer at `a`, with a callback that meets `Q`. -/
def Held (Q : Option Callback → Prop) (s : TimerManager) (a : Address) : Prop :=
  ∃ timer, s.heap a = some timer ∧ Q timer.m_cb

/-- The timer at `a` has a callback. -/
def Armed (s : TimerManager) (a : Address) : Prop := Held (fun cb => cb.isSome = true) s a

/-- The set is ordered and, apart from the timers in `out`, holds all that have a callback; what it
holds meets `Q`. -/
structure OrderedBut (Q : Option Callback → Prop) (out : List Address) (s : TimerManager) :
    Prop where
  sorted : OrderedSet.Sorted (key s.heap) s.m_timers
  armed : ∀ a, a ∉ out → Armed s a → a ∈ s.m_timers
  held : ∀ a ∈ s.m_timers, Held Q s a
  outside : ∀ a ∈ out, a ∉ s.m_timers
  nodup : out.Nodup

/-- The set is ordered and holds all timers that have a callback. -/
def Ordered (Q : Option Callback → Prop) (s : TimerManager) : Prop := OrderedBut Q [] s

section Put

variable {Q : Option Callback → Prop} {s : TimerManager} {a b : Address} {timer : Timer}

theorem heap_put_self : (s.put a timer).heap a = some timer := Function.update_self ..

theorem heap_put_of_ne (h : b ≠ a) : (s.put a timer).heap b = s.heap b := Function.update_of_ne h ..

theorem held_put_self : Held Q (s.put a timer) a ↔ Q timer.m_cb := by
  rw [Held, heap_put_self]
  exact ⟨fun ⟨_, h, hcb⟩ => Option.some.inj h ▸ hcb, fun h => ⟨timer, rfl, h⟩⟩

theorem held_put_of_ne (h : b ≠ a) : Held Q (s.put a timer) b ↔ Held Q s b := by
  rw [Held, Held, heap_put_of_ne h]

theorem not_held (h : s.heap a = none) : ¬ Held Q s a := by
  rintro ⟨timer, htimer, -⟩
  rw [h] at htimer
  cases htimer

theorem key_put_of_ne (h : b ≠ a) : key (s.put a timer).heap b = key s.heap b := by
  rw [key, key, nextAt, nextAt, heap_put_of_ne h]

/-- The order does not depend on the callbacks. -/
theorem before_put_cb (h : s.heap a = some timer) (cb : Option Callback) :
    (s.put a { timer with m_cb := cb }).before = s.before := by
  have hnext : nextAt (s.put a { timer with m_cb := cb }).heap = nextAt s.heap := by
    funext b
    by_cases hb : b = a
    · subst hb
      rw [nextAt, nextAt, heap_put_self, h]
      rfl
    · rw [nextAt, nextAt, heap_put_of_ne hb]
  funext b c
  rw [before, before, Comparator, Comparator, hnext]

end Put

/-! ## Taking timers out and putting them back -/

variable {t : TimerManager} {now ms : UInt64} {from_now : Bool}

section Moves

variable {Q : Option Callback → Prop} {s : TimerManager} {out : List Address} {a : Address}
  {timer : Timer}

theorem OrderedBut.congr (h : OrderedBut Q out s) (hheap : t.heap = s.heap)
    (htimers : t.m_timers = s.m_timers) : OrderedBut Q out t := by
  refine ⟨?_, fun a ha => ?_, fun a ha => ?_, fun a ha => ?_, h.nodup⟩
  · rw [hheap, htimers]
    exact h.sorted
  · rw [Armed, Held, hheap, htimers]
    exact h.armed a ha
  · rw [htimers] at ha
    rw [Held, hheap]
    exact h.held a ha
  · rw [htimers]
    exact h.outside a ha

/-- Taking out a timer that is in the set. -/
theorem OrderedBut.remove (h : OrderedBut Q out s) (ha : a ∈ s.m_timers) :
    ∃ m_timers, OrderedSet.remove s.before a s.m_timers = some m_timers
      ∧ OrderedBut Q (a :: out) { s with m_timers }
      ∧ ∀ x, x ∈ m_timers ↔ x ∈ s.m_timers ∧ x ≠ a := by
  obtain ⟨l, hrem, hsorted, hmem⟩ := OrderedSet.remove_of_mem (orderedBy s) h.sorted ha
  refine ⟨l, hrem, ⟨hsorted, fun b hb harmed => ?_, fun b hb => ?_, ?_, ?_⟩, hmem⟩
  · obtain ⟨hba, hout⟩ := not_or.mp (mt mem_cons.mpr hb)
    exact (hmem b).mpr ⟨h.armed b hout harmed, hba⟩
  · exact h.held b ((hmem b).mp hb).1
  · intro b hb hl
    rcases mem_cons.mp hb with rfl | hb
    · exact ((hmem b).mp hl).2 rfl
    · exact h.outside b hb ((hmem b).mp hl).1
  · exact nodup_cons.mpr ⟨fun hout => h.outside a hout ha, h.nodup⟩

/-- Putting back a timer, with any time. -/
theorem OrderedBut.put_insert (h : OrderedBut Q (a :: out) s) (hcb : Q timer.m_cb) :
    OrderedBut Q out ((s.put a timer).insert a) := by
  have ha : a ∉ s.m_timers := h.outside a mem_cons_self
  have hmem : ∀ b, b ∈ ((s.put a timer).insert a).m_timers ↔ b = a ∨ b ∈ s.m_timers :=
    fun b => OrderedSet.mem_insert (orderedBy (s.put a timer))
  obtain ⟨haout, hnodup⟩ := nodup_cons.mp h.nodup
  refine ⟨?_, fun b hb harmed => ?_, fun b hb => ?_, fun b hb => ?_, hnodup⟩
  · refine OrderedSet.sorted_insert (orderedBy (s.put a timer)) a
      (h.sorted.congr fun b hb => key_put_of_ne ?_)
    rintro rfl
    exact ha hb
  · rw [hmem]
    by_cases hba : b = a
    · exact Or.inl hba
    · exact Or.inr (h.armed b (mt mem_cons.mp (not_or.mpr ⟨hba, hb⟩))
        ((held_put_of_ne hba).mp harmed))
  · show Held Q (s.put a timer) b
    by_cases hba : b = a
    · subst hba
      exact held_put_self.mpr hcb
    · exact (held_put_of_ne hba).mpr (h.held b (((hmem b).mp hb).resolve_left hba))
  · rw [hmem]
    rintro (rfl | hb')
    · exact haout hb
    · exact h.outside b (mem_cons_of_mem _ hb) hb'

/-- Dropping the callback of a timer that is out of the set. -/
theorem OrderedBut.put_disarmed (h : OrderedBut Q (a :: out) s) (hcb : timer.m_cb = none) :
    OrderedBut Q out (s.put a timer) := by
  have hne : ∀ b ∈ s.m_timers, b ≠ a := by
    rintro b hb rfl
    exact h.outside b mem_cons_self hb
  refine ⟨h.sorted.congr fun b hb => key_put_of_ne (hne b hb), fun b hb harmed => ?_,
    fun b hb => (held_put_of_ne (hne b hb)).mpr (h.held b hb),
    fun b hb => h.outside b (mem_cons_of_mem _ hb), (nodup_cons.mp h.nodup).2⟩
  by_cases hba : b = a
  · subst hba
    rw [Armed, held_put_self, hcb] at harmed
    exact absurd harmed Bool.false_ne_true
  · exact h.armed b (mt mem_cons.mp (not_or.mpr ⟨hba, hb⟩)) ((held_put_of_ne hba).mp harmed)

theorem OrderedBut.addTimerVal (h : OrderedBut Q (a :: out) s) (hcb : Q timer.m_cb) :
    OrderedBut Q out ((s.put a timer).addTimerVal a) :=
  (h.put_insert hcb).congr rfl rfl

/-- An address without a timer is not in the set. -/
theorem Ordered.not_mem (h : Ordered Q s) (ha : s.heap a = none) : a ∉ s.m_timers :=
  fun hmem => not_held ha (h.held a hmem)

theorem Ordered.apart (h : Ordered Q s) (ha : a ∉ s.m_timers) : OrderedBut Q [a] s where
  sorted := h.sorted
  armed b _ := h.armed b not_mem_nil
  held := h.held
  outside b hb := by
    rw [mem_singleton.mp hb]
    exact ha
  nodup := nodup_singleton a

theorem Ordered.mem (h : Ordered Q s) (ha : s.heap a = some timer)
    (hcb : timer.m_cb.isSome = true) : a ∈ s.m_timers :=
  h.armed a not_mem_nil ⟨timer, ha, hcb⟩

theorem Ordered.meets (h : Ordered Q s) (ha : s.heap a = some timer)
    (hcb : timer.m_cb.isSome = true) : Q timer.m_cb := by
  obtain ⟨timer', htimer', hq⟩ := h.held a (h.mem ha hcb)
  rw [ha] at htimer'
  cases htimer'
  exact hq

end Moves

/-! ## The calls -/

section Calls

variable {Q : Option Callback → Prop} {s : TimerManager} {a : Address} {timer : Timer}

/-- **`addTimer`** at a free address. -/
theorem Ordered.addTimer (h : Ordered Q s) (ha : s.heap a = none) {cb : Option Callback}
    (hcb : Q cb) (now ms : UInt64) (recurring : Bool) :
    Ordered Q (s.addTimer now a ms cb recurring) :=
  (h.apart (h.not_mem ha)).addTimerVal hcb

/-- **`cancel`** of a timer with a callback. -/
theorem cancel_spec (h : Ordered Q s) (ha : s.heap a = some timer)
    (hcb : timer.m_cb.isSome = true) :
    ∃ t, s.cancel a = .ok (true, t) ∧ Ordered Q t
      ∧ t = { s.put a { timer with m_cb := none } with m_timers := t.m_timers }
      ∧ ∀ x ∈ t.m_timers, x ∈ s.m_timers ∧ x ≠ a := by
  obtain ⟨l, hrem, hout, hmem⟩ := h.remove (h.mem ha hcb)
  have hdis : Ordered Q ({ s with m_timers := l }.put a { timer with m_cb := none }) :=
    hout.put_disarmed rfl
  refine ⟨_, ?_, hdis, rfl, fun x hx => (hmem x).mp hx⟩
  -- the callback is gone before the search, but the order does not see it
  have hrem' : (s.put a { timer with m_cb := none }).remove a
      = some ({ s with m_timers := l }.put a { timer with m_cb := none }) := by
    rw [TimerManager.remove, before_put_cb ha]
    exact congrArg (Option.map _) hrem
  rw [cancel, ha]
  dsimp only
  rw [if_pos hcb, hrem']

private theorem not_isNone (hcb : timer.m_cb.isSome = true) : ¬ timer.m_cb.isNone = true := by
  rw [Option.isNone_iff_eq_none]
  exact Option.isSome_iff_ne_none.mp hcb

/-- **`refresh`** of a timer with a callback. -/
theorem refresh_spec (h : Ordered Q s) (ha : s.heap a = some timer)
    (hcb : timer.m_cb.isSome = true) (now : UInt64) :
    ∃ m_timers, s.refresh now a
        = .ok (true, ({ s with m_timers }.put a (timer.refreshed now)).insert a)
      ∧ Ordered Q (({ s with m_timers }.put a (timer.refreshed now)).insert a)
      ∧ ∀ x, x ∈ m_timers ↔ x ∈ s.m_timers ∧ x ≠ a := by
  obtain ⟨l, hrem, hout, hmem⟩ := h.remove (h.mem ha hcb)
  have hq := h.meets ha hcb
  refine ⟨l, ?_, hout.put_insert hq, hmem⟩
  rw [refresh, ha]
  dsimp only
  rw [if_neg (not_isNone hcb), TimerManager.remove, hrem]
  rfl

/-- **`reset`** of a timer with a callback to another period. -/
theorem reset_spec (h : Ordered Q s) (ha : s.heap a = some timer)
    (hcb : timer.m_cb.isSome = true) (now ms : UInt64) (from_now : Bool)
    (hne : ¬ (ms = timer.m_ms ∧ from_now = false)) :
    ∃ m_timers, s.reset now a ms from_now = .ok (true,
          ({ s with m_timers }.put a (timer.rescheduled now ms from_now)).addTimerVal a)
      ∧ Ordered Q (({ s with m_timers }.put a (timer.rescheduled now ms from_now)).addTimerVal a)
      ∧ ∀ x, x ∈ m_timers ↔ x ∈ s.m_timers ∧ x ≠ a := by
  obtain ⟨l, hrem, hout, hmem⟩ := h.remove (h.mem ha hcb)
  have hq := h.meets ha hcb
  refine ⟨l, ?_, hout.addTimerVal hq, hmem⟩
  rw [reset, ha]
  dsimp only
  rw [if_neg hne, if_neg (not_isNone hcb), TimerManager.remove, hrem]
  rfl

/-- LOOP RULE for the expired timers. -/
theorem rearm_rule {P : List Address → TimerManager → Prop}
    (hstep : ∀ {a expired s}, P (a :: expired) s →
      ∃ timer, s.heap a = some timer ∧ P expired (s.rearmOne now a timer)) :
    ∀ (expired : List Address) (cbs : List (Option Callback)) {s : TimerManager},
      P expired s → ∃ cbs' t, rearm now expired cbs s = .ok (cbs', t) ∧ P [] t := by
  intro expired
  induction expired with
  | nil => exact fun cbs s h => ⟨cbs, s, rfl, h⟩
  | cons a expired ih =>
    intro cbs s h
    obtain ⟨timer, htimer, hnext⟩ := hstep h
    rw [rearm, htimer]
    exact ih _ hnext

/-- Armed again or not, an expired timer leaves the set ordered. -/
theorem OrderedBut.rearmOne {expired : List Address} (h : OrderedBut Q (a :: expired) s)
    (hcb : Q timer.m_cb) (now : UInt64) :
    OrderedBut Q expired (s.rearmOne now a timer) := by
  rw [TimerManager.rearmOne]
  split
  · exact h.put_insert hcb
  · exact h.put_disarmed rfl

theorem held_rearmOne {b : Address} (hb : b ≠ a) :
    Held Q (s.rearmOne now a timer) b ↔ Held Q s b := by
  rw [TimerManager.rearmOne]
  split
  · exact held_put_of_ne hb
  · exact held_put_of_ne hb

/-- The set is cut in two where the search ends. -/
theorem unexpired_suffix (s : TimerManager) (rollover : Bool) (now : UInt64) (now_timer : Address) :
    s.m_timers.take (s.m_timers.length - (s.unexpired rollover now now_timer).length)
        ++ s.unexpired rollover now now_timer = s.m_timers := by
  have hsuffix : s.unexpired rollover now now_timer <:+ s.m_timers := by
    rw [unexpired]
    split
    · exact nil_suffix
    · exact (dropWhile_suffix _).trans (dropWhile_suffix _)
  obtain ⟨expired, happend⟩ := hsuffix
  generalize s.unexpired rollover now now_timer = rest at happend
  rw [← happend, length_append, Nat.add_sub_cancel, take_left]

/-- The search: the expired timers are taken out of the set. -/
theorem expire_cut (h : Ordered Q s) (rollover : Bool) (now : UInt64) (now_timer : Address) :
    ∃ expired rest, s.m_timers = expired ++ rest ∧ rest = s.unexpired rollover now now_timer
      ∧ s.expire rollover now now_timer = rearm now expired [] { s with m_timers := rest }
      ∧ OrderedBut Q expired { s with m_timers := rest } ∧ ∀ a ∈ expired, Held Q s a := by
  have hcut := unexpired_suffix s rollover now now_timer
  refine ⟨_, _, hcut.symm, rfl, rfl, ?_⟩
  generalize s.unexpired rollover now now_timer = rest at hcut ⊢
  generalize s.m_timers.take (s.m_timers.length - rest.length) = expired at hcut ⊢
  have hsorted := h.sorted
  have harmed := h.armed
  have hheld := h.held
  rw [← hcut] at hsorted harmed hheld
  obtain ⟨-, hrest, -⟩ := pairwise_append.mp hsorted
  obtain ⟨hnodup, -, hdisjoint⟩ := nodup_append.mp hsorted.nodup
  refine ⟨⟨hrest, fun a ha hcb => ?_, fun a ha => hheld a (mem_append_right _ ha),
    fun a ha hmem => hdisjoint a ha a hmem rfl, hnodup⟩,
    fun a ha => hheld a (mem_append_left _ ha)⟩
  exact (mem_append.mp (harmed a not_mem_nil hcb)).resolve_left ha

theorem expire_spec (h : Ordered Q s) (rollover : Bool) (now : UInt64) (now_timer : Address) :
    ∃ cbs t, s.expire rollover now now_timer = .ok (cbs, t) ∧ Ordered Q t := by
  obtain ⟨expired, rest, -, -, hexpire, hout, hheld⟩ := expire_cut h rollover now now_timer
  have hstep : ∀ {a : Address} {expired : List Address} {s : TimerManager},
      OrderedBut Q (a :: expired) s ∧ (∀ b ∈ a :: expired, Held Q s b) →
      ∃ timer, s.heap a = some timer ∧ OrderedBut Q expired (s.rearmOne now a timer)
        ∧ ∀ b ∈ expired, Held Q (s.rearmOne now a timer) b := by
    rintro a expired s ⟨hs, hheld⟩
    obtain ⟨timer, htimer, hcb⟩ := hheld a mem_cons_self
    refine ⟨timer, htimer, hs.rearmOne hcb now, fun b hb => ?_⟩
    refine (held_rearmOne ?_).mpr (hheld b (mem_cons_of_mem _ hb))
    rintro rfl
    exact (nodup_cons.mp hs.nodup).1 hb
  obtain ⟨cbs, t, hrun, ht, -⟩ := rearm_rule
    (P := fun expired s => OrderedBut Q expired s ∧ ∀ a ∈ expired, Held Q s a) hstep expired []
    ⟨hout, hheld⟩
  exact ⟨cbs, t, hexpire.trans hrun, ht⟩

/-- `listExpiredCb` finds nothing to do, or takes the expired timers out. -/
theorem listExpiredCb_cases (s : TimerManager) (now : UInt64) (now_timer : Address) :
    s.listExpiredCb now now_timer = .ok ([], s)
      ∨ s.listExpiredCb now now_timer = .ok ([], (s.detectClockRollover now).2)
      ∨ s.listExpiredCb now now_timer
        = (s.detectClockRollover now).2.expire (s.detectClockRollover now).1 now now_timer := by
  rw [listExpiredCb]
  cases s.m_timers.head? with
  | none => exact Or.inl rfl
  | some first =>
    dsimp only
    split
    · exact Or.inr (Or.inl rfl)
    · exact Or.inr (Or.inr rfl)

/-- **`listExpiredCb`** meets no fault and keeps the set ordered. -/
theorem listExpiredCb_spec (h : Ordered Q s) (now : UInt64) (now_timer : Address) :
    ∃ cbs t, s.listExpiredCb now now_timer = .ok (cbs, t) ∧ Ordered Q t := by
  have hclock : Ordered Q (s.detectClockRollover now).2 := h.congr rfl rfl
  rcases listExpiredCb_cases s now now_timer with hrun | hrun | hrun
  · exact ⟨[], s, hrun, h⟩
  · exact ⟨[], _, hrun, hclock⟩
  · rw [hrun]
    exact expire_spec hclock _ now now_timer

theorem cancel_disarmed (ha : s.heap a = some timer) (hcb : ¬ timer.m_cb.isSome = true) :
    s.cancel a = .ok (false, s) := by
  rw [cancel, ha]
  exact if_neg hcb

theorem refresh_disarmed (ha : s.heap a = some timer) (hcb : ¬ timer.m_cb.isSome = true)
    (now : UInt64) : s.refresh now a = .ok (false, s) := by
  rw [refresh, ha]
  exact if_pos (by simpa using hcb)

theorem reset_same (ha : s.heap a = some timer) (hsame : ms = timer.m_ms ∧ from_now = false)
    (now : UInt64) : s.reset now a ms from_now = .ok (true, s) := by
  rw [reset, ha]
  exact if_pos hsame

theorem reset_disarmed (ha : s.heap a = some timer) (hne : ¬ (ms = timer.m_ms ∧ from_now = false))
    (hcb : ¬ timer.m_cb.isSome = true) (now : UInt64) :
    s.reset now a ms from_now = .ok (false, s) := by
  rw [reset, ha]
  dsimp only
  rw [if_neg hne]
  exact if_pos (by simpa using hcb)

end Calls

/-- `getNextTimer` clears the flag, and does nothing else. -/
theorem getNextTimer_snd (s : TimerManager) (now : UInt64) :
    (s.getNextTimer now).2 = { s with m_tickled := false } := by
  rw [TimerManager.getNextTimer]
  dsimp only
  split
  · rfl
  · rfl

/-! ## Runs -/

/-- One call that is legal meets no fault and keeps the set ordered. -/
theorem Op.run_spec {Q : Option Callback → Prop} {s : TimerManager} {op : Op}
    (h : Ordered Q s) (hop : op.Legal s) (hadds : op.Adds Q) :
    ∃ t, op.run s = .ok t ∧ Ordered Q t := by
  cases op with
  | addTimer now a ms cb recurring => exact ⟨_, rfl, h.addTimer hop hadds now ms recurring⟩
  | addConditionTimer now a ms cb weak_cond recurring =>
    exact ⟨_, rfl, h.addTimer hop hadds now ms recurring⟩
  | cancel a =>
    obtain ⟨timer, ha⟩ := Option.isSome_iff_exists.mp hop
    by_cases hcb : timer.m_cb.isSome = true
    · obtain ⟨t, hrun, ht, -⟩ := cancel_spec h ha hcb
      exact ⟨t, by rw [run, hrun]; rfl, ht⟩
    · exact ⟨s, by rw [run, cancel_disarmed ha hcb]; rfl, h⟩
  | refresh now a =>
    obtain ⟨timer, ha⟩ := Option.isSome_iff_exists.mp hop
    by_cases hcb : timer.m_cb.isSome = true
    · obtain ⟨l, hrun, ht, -⟩ := refresh_spec h ha hcb now
      exact ⟨_, by rw [run, hrun]; rfl, ht⟩
    · exact ⟨s, by rw [run, refresh_disarmed ha hcb]; rfl, h⟩
  | reset now a ms from_now =>
    obtain ⟨timer, ha⟩ := Option.isSome_iff_exists.mp hop
    by_cases hsame : ms = timer.m_ms ∧ from_now = false
    · exact ⟨s, by rw [run, reset_same ha hsame]; rfl, h⟩
    · by_cases hcb : timer.m_cb.isSome = true
      · obtain ⟨l, hrun, ht, -⟩ := reset_spec h ha hcb now ms from_now hsame
        exact ⟨_, by rw [run, hrun]; rfl, ht⟩
      · exact ⟨s, by rw [run, reset_disarmed ha hsame hcb]; rfl, h⟩
  | getNextTimer now =>
    refine ⟨_, rfl, ?_⟩
    rw [getNextTimer_snd]
    exact h.congr rfl rfl
  | listExpiredCb now now_timer =>
    obtain ⟨cbs, t, hrun, ht⟩ := listExpiredCb_spec h now now_timer
    exact ⟨t, by rw [run, hrun]; rfl, ht⟩
  | drop a =>
    refine ⟨_, rfl, ?_⟩
    have hne : ∀ b ∈ s.m_timers, b ≠ a := by
      rintro b hb rfl
      exact hop hb
    have hheap : ∀ b, b ≠ a →
        ({ s with heap := Function.update s.heap a none } : TimerManager).heap b
          = s.heap b := fun b hb => Function.update_of_ne hb ..
    refine ⟨h.sorted.congr fun b hb => ?_, fun b _ harmed => ?_, fun b hb => ?_,
      fun b hb => absurd hb not_mem_nil, nodup_nil⟩
    · rw [key, key, nextAt, nextAt, hheap b (hne b hb)]
    · by_cases hb : b = a
      · subst hb
        exact absurd harmed (not_held (Function.update_self ..))
      · rw [Armed, Held, hheap b hb] at harmed
        exact h.armed b not_mem_nil harmed
    · rw [Held, hheap b (hne b hb)]
      exact h.held b hb

theorem new_ordered (Q : Option Callback → Prop) (now : UInt64) :
    Ordered Q (TimerManager.new now) where
  sorted := List.Pairwise.nil
  armed _ _ h := absurd h (not_held rfl)
  held _ h := absurd h not_mem_nil
  outside _ h := absurd h not_mem_nil
  nodup := nodup_nil

/-- A run keeps the set ordered. -/
theorem Ordered.reaches {Q : Option Callback → Prop} {C : TimerManager → Op → Prop}
    (hC : ∀ {s op}, C s op → op.Legal s ∧ op.Adds Q) {s : TimerManager} (hs : Ordered Q s)
    (h : Reaches step C s t) : Ordered Q t :=
  h.inv hs fun ha hop hstep => by
    obtain ⟨t, hrun, ht⟩ := Op.run_spec ha (hC hop).1 (hC hop).2
    rw [step, hrun] at hstep
    cases hstep
    exact ht

private theorem reaches_ordered {Q : Option Callback → Prop} {s : TimerManager}
    (h : Reaches step (fun s op => op.Legal s ∧ op.Adds Q) (TimerManager.new now) s) :
    Ordered Q s :=
  (new_ordered Q now).reaches id h

/-- The callbacks of new timers are not empty. -/
def Op.NonEmpty (op : Op) : Prop := op.Adds fun cb => cb.isSome = true

/-- **The timer set.**  In every state that calls reach, whatever the clock said: the
set is strictly increasing in time and address, has no timer twice, and has
exactly those with a callback.  No call erases `end()`, and `cancel`, `refresh`
and `reset` find every timer with a callback. -/
theorem timer_set_ordered {now : UInt64} {s : TimerManager}
    (h : Reaches step (fun s op => op.Legal s ∧ op.NonEmpty) (TimerManager.new now) s) :
    (s.m_timers.Pairwise fun a b => s.next a < s.next b ∨ s.next a = s.next b ∧ a < b)
      ∧ s.m_timers.Nodup
      ∧ (∀ a, a ∈ s.m_timers ↔ Armed s a)
      ∧ (∀ op : Op, op.Legal s → op.NonEmpty → ∃ t, op.run s = .ok t)
      ∧ ∀ a, Armed s a → (∃ t, s.cancel a = .ok (true, t))
        ∧ (∀ now, ∃ t, s.refresh now a = .ok (true, t))
        ∧ ∀ now ms from_now, ∃ t, s.reset now a ms from_now = .ok (true, t) := by
  have hs := reaches_ordered h
  refine ⟨hs.sorted.imp key_lt.mp, hs.sorted.nodup,
    fun a => ⟨hs.held a, hs.armed a not_mem_nil⟩, fun op hop hcb => ?_, ?_⟩
  · obtain ⟨t, hrun, -⟩ := Op.run_spec hs hop hcb
    exact ⟨t, hrun⟩
  · rintro a ⟨timer, ha, hcb⟩
    refine ⟨?_, fun now => ?_, fun now ms from_now => ?_⟩
    · obtain ⟨t, hrun, -⟩ := cancel_spec hs ha hcb
      exact ⟨t, hrun⟩
    · obtain ⟨l, hrun, -⟩ := refresh_spec hs ha hcb now
      exact ⟨_, hrun⟩
    · by_cases hsame : ms = timer.m_ms ∧ from_now = false
      · exact ⟨s, reset_same ha hsame now⟩
      · obtain ⟨l, hrun, -⟩ := reset_spec hs ha hcb now ms from_now hsame
        exact ⟨_, hrun⟩

/-- Two timers for the same time, one of them recurring; the clock goes back by two
hours and both expire. -/
def rolledOver : List Op :=
  [.addTimer 8000000 3 5 (some (.user 0)) true, .addTimer 8000000 1 5 (some (.user 1)) false,
    .listExpiredCb 800000 7]

theorem timer_set_ordered_rolledOver : ∃ s, exec step (TimerManager.new 8000000) rolledOver = some s
      ∧ s.m_timers = [3] ∧ s.next 3 = 800005 ∧ ¬ Armed s 1
      ∧ ∃ t, s.cancel 3 = .ok (true, t) := by
  have hrun : exec step (TimerManager.new 8000000) rolledOver = some _ := rfl
  have hlegal : Along step (fun s op => op.Legal s ∧ op.NonEmpty) (TimerManager.new 8000000)
      rolledOver := by
    refine ⟨⟨rfl, rfl⟩, fun t ht => ?_⟩
    cases ht
    refine ⟨⟨rfl, rfl⟩, fun t ht => ?_⟩
    cases ht
    exact ⟨⟨rfl, trivial⟩, fun _ _ => trivial⟩
  have hs := timer_set_ordered (reaches_of_exec hlegal hrun)
  refine ⟨_, hrun, rfl, rfl, ?_, ?_⟩
  · rw [← hs.2.2.1]
    decide
  · exact (hs.2.2.2.2 3 ((hs.2.2.1 3).mp mem_cons_self)).1

end SylarTimer
