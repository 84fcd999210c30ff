import Mathlib.Data.List.Nodup
import Sylar.IoEventProofs

/-! # What becomes of a registration (`iomanager.cc`)

A successful `addEvent` puts a callback or the calling fiber into a slot of an
`FdContext`.  From there `cancelEvent`, `cancelAll` and the handling of a report
hand it to the scheduler that was recorded, and `delEvent` drops it.

Every successful `addEvent` gets a number here.  What is tracked about it is read
off from outside: which slot it went to, whether a `delEvent` that returned `true`
found it there, and whether another call has cleared the bit of its slot.

* **`Tracks.trigger`** — `triggerEvent` hands over what the slot holds.
* **`track_tracks`** — what one call does to the registrations.
* **`delivered_exactly_once`** — in every run each registration is stored, or has
  been scheduled once, or has been removed. -/

namespace SylarEventDelivery

open StepSystem SylarScheduler SylarIoEvent IOManager List

/-! ## Registrations -/

/-- What a successful `addEvent` leaves: `Scheduler::GetThis()` and the callback, or the
calling fiber. -/
structure Registration where
  fd : Nat
  event : Event
  scheduler : Option Nat
  task : Task
  deriving DecidableEq, Repr

/-- The `EventContext` of a registration. -/
def Registration.context (r : Registration) : EventContext :=
  match r.task with
  | .cb cb => ⟨r.scheduler, none, some cb⟩
  | .fiber f => ⟨r.scheduler, some f, none⟩

/-- What its scheduler is handed. -/
def Registration.handed (r : Registration) : Option Scheduled :=
  r.scheduler.map fun scheduler => ⟨scheduler, r.task⟩

def registration (caller : Caller) (fd : Nat) (event : Event) (cb : Option Nat) :
    Registration :=
  ⟨fd, event, caller.scheduler,
    match cb with
    | some cb => .cb cb
    | none => .fiber caller.fiber⟩

/-- The manager with its numbered registrations: where each stored one is, which have left their
slots for a scheduler, and which `delEvent` has removed. -/
structure Tracked where
  io : IOManager
  registrations : List Registration
  stored : Nat → Event → Option Nat
  delivered : List Nat
  removed : List Nat

def Tracked.new : Tracked := ⟨IOManager.init, [], fun _ _ => none, [], []⟩

/-- The bit of an event of a descriptor. -/
def has (io : IOManager) (fd : Nat) (event : Event) : Bool :=
  (io.m_fdContexts[fd]?).any fun fd_ctx => fd_ctx.events.has event

/-- The events of a descriptor whose bits were cleared. -/
def cleared (io io' : IOManager) (fd : Nat) : List Event :=
  [.READ, .WRITE].filter fun event => has io fd event && !has io' fd event

namespace Tracked

/-- The slots of a descriptor are empty now. -/
def empty (s : Tracked) (fd : Nat) (events : List Event) : Nat → Event → Option Nat :=
  fun g event => if g = fd ∧ event ∈ events then none else s.stored g event

/-- `addEvent` has returned 0. -/
def register (s : Tracked) (io : IOManager) (r : Registration) : Tracked :=
  { s with
    io
    registrations := s.registrations ++ [r]
    stored := fun g event =>
      if g = r.fd ∧ event = r.event then some s.registrations.length else s.stored g event }

/-- `delEvent` has returned `true`. -/
def remove (s : Tracked) (io : IOManager) (fd : Nat) (event : Event) : Tracked :=
  { s with
    io
    stored := s.empty fd [event]
    removed := s.removed ++ (s.stored fd event).toList }

/-- The bits of these events have been cleared by another call. -/
def deliver (s : Tracked) (io : IOManager) (fd : Nat) (events : List Event) : Tracked :=
  { s with
    io
    stored := s.empty fd events
    delivered := s.delivered ++ events.filterMap (s.stored fd) }

end Tracked

/-- The descriptor that a call is about. -/
def fdOf : Op → Nat
  | .call (.addEvent _ _ fd _ _) | .call (.delEvent _ fd _) | .call (.cancelEvent _ fd _)
  | .call (.cancelAll _ fd) => fd
  | .report _ event => event.fd

/-- One call, or one report; a fault ends the run. -/
def track (s : Tracked) (op : Op) : Option Tracked :=
  match op with
  | .call (.addEvent caller ok fd event cb) =>
    match s.io.addEvent caller ok fd event cb with
    | .error _ => none
    | .ok (rt, io) =>
        some (if rt = 0 then s.register io (registration caller fd event cb)
          else { s with io })
  | .call (.delEvent ok fd event) =>
    match s.io.delEvent ok fd event with
    | .error _ => none
    | .ok (rt, io) => some (if rt then s.remove io fd event else { s with io })
  | _ =>
    match op.run s.io with
    | .error _ => none
    | .ok io => some (s.deliver io (fdOf op) (cleared s.io io (fdOf op)))

/-! ## The invariant -/

/-- The slot of an event. -/
def slot (fd_ctx : FdContext) : Event → EventContext
  | .READ => fd_ctx.read
  | .WRITE => fd_ctx.write
  | .NONE => .empty

/-- A slot holds the registration that is stored there, or nothing. -/
def Holds (s : Tracked) (fd : Nat) (fd_ctx : FdContext) (event : Event) : Prop :=
  match s.stored fd event with
  | none => fd_ctx.events.has event = false ∧ slot fd_ctx event = .empty
  | some id => fd_ctx.events.has event = true
    ∧ ∃ r, s.registrations[id]? = some r ∧ r.fd = fd ∧ r.event = event
      ∧ slot fd_ctx event = r.context

/-- Slots and schedulers have what was registered, and nothing is in two places. -/
structure Tracks (s : Tracked) : Prop where
  size : 32 ≤ s.io.m_fdContexts.length
  slots : ∀ fd fd_ctx, s.io.m_fdContexts[fd]? = some fd_ctx → ∀ event, Holds s fd fd_ctx event
  outside : ∀ fd event, s.io.m_fdContexts[fd]? = none → s.stored fd event = none
  scheduled : s.io.scheduled.map some
    = s.delivered.map fun id => (s.registrations[id]?).bind Registration.handed
  nodup : (s.delivered ++ s.removed).Nodup
  apart : ∀ fd event id, s.stored fd event = some id → id ∉ s.delivered ++ s.removed
  known : ∀ id ∈ s.delivered ++ s.removed, id < s.registrations.length
  all : ∀ id < s.registrations.length,
    (∃ fd event, s.stored fd event = some id) ∨ id ∈ s.delivered ++ s.removed

theorem new_tracks : Tracks Tracked.new where
  size := Nat.le_of_eq rfl
  slots fd fd_ctx hfd event := by
    have hnew : fd_ctx = newContext fd := by
      rcases getElem?_extend (s := ⟨[], 0, fun _ => none, []⟩) (n := 32) hfd with h | ⟨-, h⟩
      · rw [getElem?_nil] at h
        cases h
      · exact h
    rw [hnew]
    cases event <;> exact ⟨rfl, rfl⟩
  outside _ _ _ := rfl
  scheduled := rfl
  nodup := nodup_nil
  apart _ _ _ h := nomatch h
  known _ h := absurd h not_mem_nil
  all _ h := absurd h (Nat.not_lt_zero _)

variable {e : Event} {r : Registration} {t : Tracked} {m : Mask} {rt : Bool} {ctx : EventContext}

/-- A sequence that returns. -/
theorem of_bind {α β : Type} {x : Except Fault α} {k : α → Except Fault β} {b : β}
    (h : x >>= k = .ok b) : ∃ a, x = .ok a ∧ k a = .ok b := by
  cases x with
  | error fault => cases h
  | ok a => exact ⟨a, rfl, h⟩

section Slots

variable {s : Tracked} {fd : Nat} {fd_ctx : FdContext} {event : Event}

/-- A bit that is set belongs to a stored registration. -/
theorem Tracks.stored_of_has (h : Tracks s) (hfd : s.io.m_fdContexts[fd]? = some fd_ctx)
    (hev : fd_ctx.events.has event = true) :
    ∃ id r, s.stored fd event = some id ∧ s.registrations[id]? = some r ∧ r.fd = fd
      ∧ r.event = event ∧ slot fd_ctx event = r.context := by
  have hslot := h.slots fd fd_ctx hfd event
  rw [Holds] at hslot
  cases hid : s.stored fd event with
  | none =>
    rw [hid] at hslot
    rw [hslot.1] at hev
    exact absurd hev Bool.false_ne_true
  | some id =>
    rw [hid] at hslot
    obtain ⟨-, r, hr, hrfd, hrev, hctx⟩ := hslot
    exact ⟨id, r, rfl, hr, hrfd, hrev, hctx⟩

/-- A stored registration is at the slot it was made for. -/
theorem Tracks.of_stored (h : Tracks s) {id : Nat} (hid : s.stored fd event = some id) :
    ∃ r fd_ctx, s.registrations[id]? = some r ∧ r.fd = fd ∧ r.event = event
      ∧ s.io.m_fdContexts[fd]? = some fd_ctx ∧ fd_ctx.events.has event = true
      ∧ slot fd_ctx event = r.context := by
  cases hfd : s.io.m_fdContexts[fd]? with
  | none =>
    rw [h.outside fd event hfd] at hid
    cases hid
  | some fd_ctx =>
    have hslot := h.slots fd fd_ctx hfd event
    rw [Holds, hid] at hslot
    obtain ⟨hev, r, hr, hrfd, hrev, hctx⟩ := hslot
    exact ⟨r, fd_ctx, hr, hrfd, hrev, rfl, hev, hctx⟩

theorem getContext_eq (h : event ≠ .NONE) : fd_ctx.getContext event = .ok (slot fd_ctx event) := by
  cases event with
  | NONE => exact absurd rfl h
  | READ => rfl
  | WRITE => rfl

theorem slot_remove (m : Mask) : slot { fd_ctx with events := m } event = slot fd_ctx event := by
  cases event <;> rfl

private theorem slot_clear_self : slot (fd_ctx.clear event) event = .empty := by
  cases event <;> rfl

private theorem has_clear_self : (fd_ctx.clear event).events.has event = false := by
  cases event <;> rfl

private theorem slot_clear_of_ne (h : e ≠ event) : slot (fd_ctx.clear event) e = slot fd_ctx e := by
  cases event <;> cases e <;> first | rfl | exact absurd rfl h

private theorem has_clear_of_ne (h : e ≠ event) :
    (fd_ctx.clear event).events.has e = fd_ctx.events.has e := by
  cases event <;> cases e <;> first | rfl | exact absurd rfl h

/-- `triggerEvent` on a slot that holds a registration hands it over and leaves
the slot empty. -/
theorem triggerEvent_of_context {fd_ctx' : FdContext} {tasks : List Scheduled}
    (hev : fd_ctx.events.has event = true) (hctx : slot fd_ctx event = r.context)
    (hrun : fd_ctx.triggerEvent event = .ok (fd_ctx', tasks)) :
    fd_ctx' = fd_ctx.clear event ∧ ∃ task, r.handed = some task ∧ tasks = [task] := by
  have hne : event ≠ .NONE := by
    rintro rfl
    cases hev
  rw [FdContext.triggerEvent, if_pos hev] at hrun
  dsimp only at hrun
  rw [getContext_eq hne, slot_remove, hctx] at hrun
  obtain ⟨rfd, revent, scheduler, task⟩ := r
  cases scheduler with
  | none => cases task <;> cases hrun
  | some scheduler =>
    cases task with
    | cb | fiber =>
      cases hrun
      exact ⟨rfl, _, rfl, rfl⟩

end Slots

/-! ## Emptying a slot -/

section Vacate

variable {s : Tracked} {fd : Nat} {fd_ctx : FdContext} {event : Event} {id : Nat}

/-- One slot is written, and the others hold what they held. -/
theorem Tracks.written {c : FdContext} (h : Tracks s) (hfd : s.io.m_fdContexts[fd]? = some fd_ctx)
    (htable : t.io.m_fdContexts = s.io.m_fdContexts.set fd c)
    (hregs : ∀ {id : Nat} {r}, s.registrations[id]? = some r → t.registrations[id]? = some r)
    (hother : ∀ g e, ¬ (g = fd ∧ e = event) → t.stored g e = s.stored g e)
    (hkeep : ∀ e ≠ event, c.events.has e = fd_ctx.events.has e ∧ slot c e = slot fd_ctx e)
    (hself : Holds t fd c event) :
    32 ≤ t.io.m_fdContexts.length
      ∧ (∀ g c, t.io.m_fdContexts[g]? = some c → ∀ e, Holds t g c e)
      ∧ ∀ g e, t.io.m_fdContexts[g]? = none → t.stored g e = none := by
  have hholds : ∀ {g e} {c₀ c₁ : FdContext}, ¬ (g = fd ∧ e = event) →
      c₁.events.has e = c₀.events.has e ∧ slot c₁ e = slot c₀ e →
      Holds s g c₀ e → Holds t g c₁ e := by
    intro g e c₀ c₁ hne hsame hc
    rw [Holds] at hc ⊢
    rw [hother g e hne, hsame.1, hsame.2]
    cases hid : s.stored g e with
    | none =>
      rw [hid] at hc
      exact hc
    | some id =>
      rw [hid] at hc
      obtain ⟨hset, r, hr, hrest⟩ := hc
      exact ⟨hset, r, hregs hr, hrest⟩
  refine ⟨?_, fun g c' hg e => ?_, fun g e hg => ?_⟩
  · rw [htable, length_set]
    exact h.size
  · rw [htable] at hg
    rcases getElem?_moved hg with ⟨rfl, rfl⟩ | ⟨hne, hg⟩
    · by_cases he : e = event
      · exact he ▸ hself
      · exact hholds (fun heq => he heq.2) (hkeep e he) (h.slots g fd_ctx hfd e)
    · exact hholds (fun heq => hne heq.1) ⟨rfl, rfl⟩ (h.slots g c' hg e)
  · rw [htable, getElem?_eq_none_iff, length_set, ← getElem?_eq_none_iff] at hg
    rw [hother g e, h.outside g e hg]
    rintro ⟨rfl, -⟩
    rw [hfd] at hg
    cases hg

/-- A slot is emptied: its registration is now delivered or removed. -/
theorem Tracks.vacated (h : Tracks s) (hfd : s.io.m_fdContexts[fd]? = some fd_ctx)
    (hid : s.stored fd event = some id)
    (htable : t.io.m_fdContexts = s.io.m_fdContexts.set fd (fd_ctx.clear event))
    (hregs : t.registrations = s.registrations) (hstored : t.stored = s.empty fd [event])
    (hperm : (t.delivered ++ t.removed).Perm (id :: (s.delivered ++ s.removed)))
    (hsched : t.io.scheduled.map some
      = t.delivered.map fun id => (t.registrations[id]?).bind Registration.handed) : Tracks t := by
  obtain ⟨r, -, hr, hrfd, hrev, -⟩ := h.of_stored hid
  have hself : t.stored fd event = none := by
    rw [hstored]
    exact if_pos ⟨rfl, mem_singleton.mpr rfl⟩
  have hother : ∀ g e, ¬ (g = fd ∧ e = event) → t.stored g e = s.stored g e := by
    intro g e hne
    rw [hstored]
    exact if_neg fun ⟨hg, he⟩ => hne ⟨hg, mem_singleton.mp he⟩
  obtain ⟨hsize, hslots, houtside⟩ := h.written hfd htable (fun hr => hregs ▸ hr) hother
    (fun e he => ⟨has_clear_of_ne he, slot_clear_of_ne he⟩) (by
      rw [Holds, hself]
      exact ⟨has_clear_self, slot_clear_self⟩)
  refine ⟨hsize, hslots, houtside, hsched, ?_, fun g e id' hid' => ?_, fun id' hmem => ?_,
    fun id' hlen => ?_⟩
  · rw [hperm.nodup_iff]
    exact nodup_cons.mpr ⟨h.apart fd event id hid, h.nodup⟩
  · have hne : ¬ (g = fd ∧ e = event) := by
      rintro ⟨rfl, rfl⟩
      rw [hself] at hid'
      cases hid'
    rw [hother g e hne] at hid'
    rw [hperm.mem_iff, mem_cons, not_or]
    refine ⟨?_, h.apart g e id' hid'⟩
    rintro rfl
    obtain ⟨r', -, hr', hrfd', hrev', -⟩ := h.of_stored hid'
    rw [hr] at hr'
    cases hr'
    exact hne ⟨hrfd'.symm.trans hrfd, hrev'.symm.trans hrev⟩
  · rw [hregs]
    rcases mem_cons.mp (hperm.mem_iff.mp hmem) with rfl | hmem
    · exact (List.getElem?_eq_some_iff.mp hr).1
    · exact h.known id' hmem
  · rw [hregs] at hlen
    rw [hperm.mem_iff, mem_cons]
    rcases h.all id' hlen with ⟨g, e, hid'⟩ | hmem
    · by_cases heq : g = fd ∧ e = event
      · obtain ⟨rfl, rfl⟩ := heq
        rw [hid] at hid'
        exact Or.inr (Or.inl (Option.some.inj hid').symm)
      · exact Or.inl ⟨g, e, (hother g e heq).trans hid'⟩
    · exact Or.inr (Or.inr hmem)

private theorem has_eq (hfd : s.io.m_fdContexts[fd]? = some fd_ctx) :
    has s.io fd event = fd_ctx.events.has event := by
  rw [has, hfd, Option.any_some]

/-- **`triggerEvent` with its decrement**: the registration is delivered. -/
theorem Tracks.trigger {io : IOManager} (h : Tracks s) (hrun : s.io.trigger fd event = .ok io) :
    Tracks (s.deliver io fd [event]) ∧ has s.io fd event = true
      ∧ ∀ e, has io fd e = (has s.io fd e && !decide (e = event)) := by
  rw [IOManager.trigger] at hrun
  cases hfd : s.io.m_fdContexts[fd]? with
  | none =>
    rw [hfd] at hrun
    cases hrun
  | some fd_ctx =>
    rw [hfd] at hrun
    dsimp only at hrun
    by_cases hev : fd_ctx.events.has event = true
    · obtain ⟨id, r, hid, hr, -, -, hctx⟩ := h.stored_of_has hfd hev
      obtain ⟨⟨fd_ctx', tasks⟩, htrigger, hrun⟩ := of_bind hrun
      obtain ⟨rfl, task, htask, rfl⟩ := triggerEvent_of_context hev hctx htrigger
      cases hrun
      have hdelivered : [event].filterMap (s.stored fd) = [id] := by
        rw [filterMap_cons_some hid, filterMap_nil]
      refine ⟨h.vacated hfd hid rfl rfl rfl ?_ ?_, (has_eq hfd).trans hev, fun e => ?_⟩
      · rw [Tracked.deliver, hdelivered, append_assoc]
        exact perm_middle
      · rw [Tracked.deliver, hdelivered]
        dsimp only
        rw [map_append, h.scheduled, map_append, map_singleton, map_singleton, hr]
        exact congrArg _ (congrArg (fun x => [x]) htask.symm)
      · obtain ⟨hlt, -⟩ := List.getElem?_eq_some_iff.mp hfd
        rw [has_eq hfd, has]
        show ((s.io.m_fdContexts.set fd (fd_ctx.clear event))[fd]?).any _ = _
        rw [getElem?_set_self hlt, Option.any_some]
        by_cases he : e = event
        · subst he
          rw [has_clear_self, decide_eq_true rfl, Bool.not_true, Bool.and_false]
        · rw [has_clear_of_ne he, decide_eq_false he, Bool.not_false, Bool.and_true]
    · rw [FdContext.triggerEvent, if_neg hev] at hrun
      cases hrun

theorem deliver_nil (s : Tracked) (io : IOManager) (fd : Nat) :
    s.deliver io fd [] = { s with io } := by
  have hstored : s.empty fd [] = s.stored := by
    funext g e
    exact if_neg fun h => not_mem_nil h.2
  rw [Tracked.deliver, hstored, filterMap_nil, append_nil]

theorem deliver_deliver {io io' : IOManager} {a b : List Event} (hdisj : ∀ e ∈ b, e ∉ a) :
    (s.deliver io fd a).deliver io' fd b = s.deliver io' fd (a ++ b) := by
  have hstored : (s.deliver io fd a).empty fd b = s.empty fd (a ++ b) := by
    funext g e
    show (if g = fd ∧ e ∈ b then none else if g = fd ∧ e ∈ a then none else s.stored g e)
      = if g = fd ∧ e ∈ a ++ b then none else s.stored g e
    by_cases hg : g = fd
    · by_cases ha : e ∈ a
      · simp [hg, ha]
      · simp [hg, ha]
    · simp [hg]
  have hids : b.filterMap ((s.deliver io fd a).stored fd) = b.filterMap (s.stored fd) := by
    refine filterMap_congr fun e he => ?_
    exact if_neg fun h => hdisj e he h.2
  rw [Tracked.deliver, hstored, hids]
  show Tracked.mk io' _ _ ((s.delivered ++ _) ++ _) _ = _
  rw [append_assoc, ← filterMap_append]
  rfl

theorem Tracks.triggerIf {io : IOManager} {set : Bool} (h : Tracks s)
    (hrun : s.io.triggerIf fd event set = .ok io) :
    Tracks (s.deliver io fd (if set then [event] else [])) ∧ (set = true → has s.io fd event = true)
      ∧ ∀ e, has io fd e = (has s.io fd e && !(set && decide (e = event))) := by
  cases set with
  | true =>
    obtain ⟨htracks, hev, hhas⟩ := h.trigger hrun
    exact ⟨htracks, fun _ => hev, hhas⟩
  | false =>
    cases hrun
    refine ⟨?_, fun hset => absurd hset Bool.false_ne_true, fun e => ?_⟩
    · rw [if_neg Bool.false_ne_true, deliver_nil]
      exact h
    · rw [Bool.false_and, Bool.not_false, Bool.and_true]

/-- Several events of a descriptor: exactly the bits that are cleared are
delivered. -/
theorem Tracks.triggerAll {io : IOManager} (h : Tracks s) (hrun : s.io.triggerAll fd m = .ok io) :
    Tracks (s.deliver io fd (cleared s.io io fd)) := by
  rw [IOManager.triggerAll] at hrun
  obtain ⟨io₁, hread, hrun⟩ := of_bind hrun
  obtain ⟨h₁, hset₁, hhas₁⟩ := h.triggerIf hread
  obtain ⟨h₂, hset₂, hhas₂⟩ := h₁.triggerIf hrun
  change (m.write = true → has io₁ fd .WRITE = true) at hset₂
  change (∀ e, has io fd e = (has io₁ fd e && _)) at hhas₂
  have hdisj : ∀ e ∈ (if m.write then [Event.WRITE] else []),
      e ∉ (if m.read then [Event.READ] else []) := by
    cases m.read <;> cases m.write <;> decide
  have hcleared : cleared s.io io fd
      = (if m.read then [Event.READ] else []) ++ (if m.write then [Event.WRITE] else []) := by
    rw [hhas₁] at hset₂
    rw [cleared, filter_cons, filter_cons, filter_nil, hhas₂, hhas₂, hhas₁, hhas₁]
    revert hset₁ hset₂
    cases m.read <;> cases m.write <;> cases has s.io fd .READ <;> cases has s.io fd .WRITE <;> simp
  rw [hcleared, ← deliver_deliver hdisj]
  exact h₂

end Vacate

/-! ## The calls -/

variable {caller : Caller} {cb : Option Nat} {op : Op}

section Calls

variable {s : Tracked} {io : IOManager} {fd : Nat} {event : Event} {ok : Bool}

/-- What the kernel watches does not matter here. -/
theorem Tracks.told (h : Tracks s) (interest : Nat → Option Mask) :
    Tracks { s with io := { s.io with interest } } :=
  ⟨h.size, h.slots, h.outside, h.scheduled, h.nodup, h.apart, h.known, h.all⟩

/-- A call that changes no bit delivers nothing. -/
theorem cleared_self (io : IOManager) (fd : Nat) : cleared io io fd = [] := by
  refine filter_eq_nil_iff.mpr fun e _ => ?_
  rw [Bool.and_not_self]
  exact Bool.false_ne_true

theorem Tracks.unchanged (h : Tracks s) (fd : Nat) :
    Tracks (s.deliver s.io fd (cleared s.io s.io fd)) := by
  rw [cleared_self, deliver_nil]
  exact h

/-- **`cancelEvent`** -/
theorem Tracks.cancelEvent (h : Tracks s) (hrun : s.io.cancelEvent ok fd event = .ok (rt, io)) :
    Tracks (s.deliver io fd (cleared s.io io fd)) := by
  rw [IOManager.cancelEvent] at hrun
  cases hunwatch : s.io.unwatch ok fd event with
  | none =>
    rw [hunwatch] at hrun
    cases hrun
    exact h.unchanged fd
  | some found =>
    obtain ⟨fd_ctx, interest⟩ := found
    rw [hunwatch] at hrun
    obtain ⟨io', htrigger, hrun⟩ := of_bind hrun
    cases hrun
    obtain ⟨htracks, hev, hhas⟩ := (h.told interest).trigger htrigger
    have hcleared : cleared s.io io fd = [event] := by
      change has s.io fd event = true at hev
      change ∀ e, has io fd e = (has s.io fd e && _) at hhas
      rw [cleared, filter_cons, filter_cons, filter_nil, hhas, hhas]
      cases event with
      | NONE =>
        have hnone : has s.io fd .NONE = false := by
          rw [has]
          cases s.io.m_fdContexts[fd]? <;> rfl
        rw [hnone] at hev
        exact absurd hev Bool.false_ne_true
      | READ => simp [hev]
      | WRITE => simp [hev]
    rw [hcleared]
    exact htracks

/-- **`cancelAll`** -/
theorem Tracks.cancelAll (h : Tracks s) (hrun : s.io.cancelAll ok fd = .ok (rt, io)) :
    Tracks (s.deliver io fd (cleared s.io io fd)) := by
  rw [IOManager.cancelAll] at hrun
  split at hrun
  · cases hrun
    exact h.unchanged fd
  · next fd_ctx hfd =>
    split at hrun
    · cases hrun
      exact h.unchanged fd
    · split at hrun
      · cases hrun
        exact h.unchanged fd
      · next interest hctl =>
        obtain ⟨io', htrigger, hrun⟩ := of_bind hrun
        split at hrun
        · cases hrun
          exact (h.told interest).triggerAll htrigger
        · cases hrun

/-- **A report** -/
theorem Tracks.handle {event : Reported} (h : Tracks s) (hrun : s.io.handle ok event = .ok io) :
    Tracks (s.deliver io event.fd (cleared s.io io event.fd)) := by
  rw [IOManager.handle] at hrun
  split at hrun
  · cases hrun
  · next fd_ctx hfd =>
    dsimp only at hrun
    split at hrun
    · cases hrun
      exact h.unchanged event.fd
    · split at hrun
      · cases hrun
        exact h.unchanged event.fd
      · next interest hctl => exact (h.told interest).triggerAll hrun

/-- **`delEvent`** removes the registration, or does nothing. -/
theorem Tracks.delEvent (h : Tracks s) (hrun : s.io.delEvent ok fd event = .ok (rt, io)) :
    Tracks (if rt then s.remove io fd event else { s with io }) := by
  rw [IOManager.delEvent] at hrun
  cases hunwatch : s.io.unwatch ok fd event with
  | none =>
    rw [hunwatch] at hrun
    cases hrun
    exact h
  | some found =>
    obtain ⟨fd_ctx, interest⟩ := found
    rw [hunwatch] at hrun
    rw [IOManager.unwatch] at hunwatch
    split at hunwatch
    · cases hunwatch
    · next fd_ctx' hfd =>
      split at hunwatch
      · next hev =>
        obtain ⟨interest', -, heq⟩ := Option.map_eq_some_iff.mp hunwatch
        obtain ⟨rfl, rfl⟩ := Prod.mk.inj heq
        obtain ⟨id, r, hid, -⟩ := h.stored_of_has hfd hev
        have hne : event ≠ .NONE := by
          rintro rfl
          cases hev
        dsimp only at hrun
        rw [getContext_eq hne] at hrun
        cases hrun
        rw [if_pos rfl]
        refine h.vacated hfd hid rfl rfl rfl ?_ h.scheduled
        rw [Tracked.remove, hid]
        dsimp only [Option.toList]
        rw [← append_assoc]
        exact perm_append_singleton id _
      · cases hunwatch

/-- The table as `addEvent` finds it. -/
theorem Tracks.grown (h : Tracks s) (fd : Nat) : ∃ n, (if fd < s.io.m_fdContexts.length then s.io
        else s.io.contextResize (fd * 3 / 2)) = s.io.extend n
      ∧ Tracks { s with io := s.io.extend n } := by
  have hextend : ∀ n, Tracks { s with io := s.io.extend n } := by
    intro n
    refine ⟨?_, fun g fd_ctx hg e => ?_, fun g e hg => ?_, h.scheduled, h.nodup, h.apart,
      h.known, h.all⟩
    · show 32 ≤ (s.io.extend n).m_fdContexts.length
      rw [length_extend]
      exact Nat.le_trans h.size (Nat.le_add_right _ _)
    · rcases getElem?_extend hg with hold | ⟨hnone, rfl⟩
      · exact h.slots g fd_ctx hold e
      · rw [Holds]
        dsimp only
        rw [h.outside g e hnone]
        cases e <;> exact ⟨rfl, rfl⟩
    · refine h.outside g e ?_
      change (s.io.extend n).m_fdContexts[g]? = none at hg
      rw [getElem?_eq_none_iff, length_extend] at hg
      exact getElem?_eq_none_iff.mpr (Nat.le_trans (Nat.le_add_right _ _) hg)
  by_cases hlt : fd < s.io.m_fdContexts.length
  · exact ⟨0, by rw [if_pos hlt, extend_zero], hextend 0⟩
  · have hsize := h.size
    exact ⟨_, by rw [if_neg hlt, contextResize_eq_extend (by omega)], hextend _⟩

theorem slot_put_self {fd_ctx : FdContext} (hne : event ≠ .NONE) :
    slot (fd_ctx.putContext event ctx) event = ctx := by
  cases event with
  | NONE => exact absurd rfl hne
  | READ => rfl
  | WRITE => rfl

private theorem slot_put_of_ne {fd_ctx : FdContext} (h : e ≠ event) :
    slot (fd_ctx.putContext event ctx) e = slot fd_ctx e := by
  cases event <;> cases e <;> first | rfl | exact absurd rfl h

theorem has_add_self (hne : event ≠ .NONE) : (m.add event).has event = true := by
  cases event with
  | NONE => exact absurd rfl hne
  | READ => rfl
  | WRITE => rfl

private theorem has_add_of_ne (h : e ≠ event) : (m.add event).has e = m.has e := by
  cases event <;> cases e <;> first | rfl | exact absurd rfl h

/-- **A registration** goes into an empty slot. -/
theorem Tracks.register {fd_ctx : FdContext} (h : Tracks s)
    (hfd : s.io.m_fdContexts[r.fd]? = some fd_ctx) (hne : r.event ≠ .NONE)
    (hunset : s.stored r.fd r.event = none) (htable : io.m_fdContexts = s.io.m_fdContexts.set r.fd
      ({ fd_ctx with events := fd_ctx.events.add r.event }.putContext r.event r.context))
    (hsched : io.scheduled = s.io.scheduled) : Tracks (s.register io r) := by
  have hself : (s.register io r).stored r.fd r.event = some s.registrations.length :=
    if_pos ⟨rfl, rfl⟩
  have hother : ∀ g e, ¬ (g = r.fd ∧ e = r.event) →
      (s.register io r).stored g e = s.stored g e := fun g e hge => if_neg hge
  have hold : ∀ {id : Nat} {r' : Registration}, s.registrations[id]? = some r' →
      (s.registrations ++ [r])[id]? = some r' := by
    intro id r' hr'
    rw [getElem?_append_left (List.getElem?_eq_some_iff.mp hr').1, hr']
  obtain ⟨hsize, hslots, houtside⟩ := h.written (t := s.register io r) hfd htable hold hother
    (fun e he => ⟨by rw [putContext_events, has_add_of_ne he],
      by rw [slot_put_of_ne he, slot_remove]⟩) (by
      rw [Holds, hself, putContext_events]
      exact ⟨has_add_self hne, r, getElem?_concat_length, rfl, rfl, slot_put_self hne⟩)
  refine ⟨hsize, hslots, houtside, ?_, h.nodup, fun g e id hid => ?_, fun id hmem => ?_,
    fun id hlen => ?_⟩
  · show io.scheduled.map some = s.delivered.map fun id => _
    rw [hsched, h.scheduled]
    refine map_congr_left fun id hmem => ?_
    have hlen := h.known id (mem_append_left _ hmem)
    show _ = ((s.registrations ++ [r])[id]?).bind _
    rw [getElem?_append_left hlen]
  · show id ∉ s.delivered ++ s.removed
    by_cases hge : g = r.fd ∧ e = r.event
    · obtain ⟨rfl, rfl⟩ := hge
      rw [hself] at hid
      cases hid
      exact fun hmem => absurd (h.known _ hmem) (Nat.lt_irrefl _)
    · rw [hother g e hge] at hid
      exact h.apart g e id hid
  · show id < (s.registrations ++ [r]).length
    rw [length_append]
    exact Nat.lt_of_lt_of_le (h.known id hmem) (Nat.le_add_right _ _)
  · change id < (s.registrations ++ [r]).length at hlen
    rw [length_append, length_singleton] at hlen
    rcases Nat.lt_or_eq_of_le (Nat.le_of_lt_succ hlen) with hlt' | rfl
    · rcases h.all id hlt' with ⟨g, e, hid⟩ | hmem
      · left
        refine ⟨g, e, ?_⟩
        rw [hother g e ?_]
        · exact hid
        · rintro ⟨rfl, rfl⟩
          rw [hunset] at hid
          cases hid
      · exact Or.inr hmem
    · exact Or.inl ⟨r.fd, r.event, hself⟩

theorem fill_eq_context (h : fill caller cb = .ok ctx) (fd : Nat) (event : Event) :
    ctx = (registration caller fd event cb).context := by
  cases cb with
  | some cb => exact (Except.ok.inj h).symm
  | none =>
    rw [fill] at h
    split at h
    · exact (Except.ok.inj h).symm
    · cases h

/-- **`addEvent`** registers in an empty slot, or fails and stores nothing. -/
theorem Tracks.addEvent {rt : Int} (h : Tracks s)
    (hrun : s.io.addEvent caller ok fd event cb = .ok (rt, io)) :
    Tracks (if rt = 0 then s.register io (registration caller fd event cb) else { s with io })
      ∧ (rt = 0 → s.stored fd event = none) := by
  obtain ⟨n, hgrown, hext⟩ := h.grown fd
  rw [IOManager.addEvent, hgrown] at hrun
  dsimp only at hrun
  split at hrun
  · cases hrun
  · next fd_ctx hfd =>
    split at hrun
    · cases hrun
    · next hev =>
      have hunset : s.stored fd event = none := by
        by_contra hstored
        obtain ⟨id, hid⟩ := Option.ne_none_iff_exists'.mp hstored
        obtain ⟨-, fd_ctx', -, -, -, hfd', hset, -⟩ := hext.of_stored hid
        rw [show (s.io.extend n).m_fdContexts[fd]? = some fd_ctx from hfd] at hfd'
        cases hfd'
        exact hev hset
      split at hrun
      · cases hrun
        exact ⟨hext, fun _ => hunset⟩
      · next interest hctl =>
        have hne : event ≠ .NONE := by
          rintro rfl
          cases hrun
        rw [getContext_eq hne] at hrun
        change (if _ then _ else _) = Except.ok (rt, io) at hrun
        split at hrun
        · obtain ⟨ctx, hfill, hrun⟩ := of_bind hrun
          cases hrun
          rw [if_pos rfl, fill_eq_context hfill fd event]
          exact ⟨hext.register (r := registration caller fd event cb) hfd hne hunset rfl rfl,
            fun _ => hunset⟩
        · cases hrun

end Calls

/-! ## Runs -/

theorem of_map_snd {α : Type} {x : Except Fault (α × IOManager)} {io : IOManager}
    (h : x.map Prod.snd = .ok io) : ∃ rt, x = .ok (rt, io) := by
  cases x with
  | error fault => cases h
  | ok result =>
    cases h
    exact ⟨result.1, rfl⟩

/-- **One step** keeps track of the registrations. -/
theorem track_tracks {s : Tracked} (h : Tracks s) (hstep : track s op = some t) : Tracks t := by
  unfold track at hstep
  split at hstep
  · split at hstep
    · cases hstep
    · next hrun =>
      cases hstep
      exact (h.addEvent hrun).1
  · split at hstep
    · cases hstep
    · next hrun =>
      cases hstep
      exact h.delEvent hrun
  · split at hstep
    · cases hstep
    · next hadd hdel _ io hrun =>
      cases hstep
      rcases op with (⟨caller, ok, fd, event, cb⟩ | ⟨ok, fd, event⟩ | ⟨ok, fd, event⟩
        | ⟨ok, fd⟩) | ⟨ok, event⟩
      · exact absurd rfl (hadd caller ok fd event cb)
      · exact absurd rfl (hdel ok fd event)
      · obtain ⟨rt, hcancel⟩ := of_map_snd hrun
        exact h.cancelEvent hcancel
      · obtain ⟨rt, hcancel⟩ := of_map_snd hrun
        exact h.cancelAll hcancel
      · exact h.handle hrun

/-- What has been registered, delivered or removed stays so. -/
structure Grows (s t : Tracked) : Prop where
  registrations : s.registrations <+: t.registrations
  delivered : s.delivered <+: t.delivered
  removed : s.removed <+: t.removed

theorem track_grows {s : Tracked} (hstep : track s op = some t) : Grows s t := by
  unfold track at hstep
  split at hstep
  · split at hstep
    · cases hstep
    · cases hstep
      split
      · exact ⟨prefix_append _ _, prefix_rfl, prefix_rfl⟩
      · exact ⟨prefix_rfl, prefix_rfl, prefix_rfl⟩
  · split at hstep
    · cases hstep
    · cases hstep
      split
      · exact ⟨prefix_rfl, prefix_rfl, prefix_append _ _⟩
      · exact ⟨prefix_rfl, prefix_rfl, prefix_rfl⟩
  · split at hstep
    · cases hstep
    · cases hstep
      exact ⟨prefix_rfl, prefix_append _ _, prefix_rfl⟩

private theorem reaches_tracks {s : Tracked}
    (h : Reaches track (fun _ _ => True) Tracked.new s) : Tracks s :=
  h.inv new_tracks fun ha _ hstep => track_tracks ha hstep

theorem reaches_grows {s : Tracked} (h : Reaches track (fun _ _ => True) s t) : Grows s t :=
  h.inv ⟨prefix_rfl, prefix_rfl, prefix_rfl⟩ fun ha _ hstep =>
    have hb := track_grows hstep
    ⟨ha.registrations.trans hb.registrations, ha.delivered.trans hb.delivered,
      ha.removed.trans hb.removed⟩

/-- The registration is in the slot it was made for. -/
def Stored (s : Tracked) (id : Nat) (r : Registration) : Prop :=
  s.stored r.fd r.event = some id
    ∧ ∃ fd_ctx, s.io.m_fdContexts[r.fd]? = some fd_ctx
      ∧ fd_ctx.events.has r.event = true ∧ slot fd_ctx r.event = r.context

theorem Tracks.stored_iff {s : Tracked} {id : Nat} (h : Tracks s)
    (hr : s.registrations[id]? = some r) :
    Stored s id r ↔ ∃ fd event, s.stored fd event = some id := by
  refine ⟨fun hs => ⟨r.fd, r.event, hs.1⟩, fun ⟨fd, event, hid⟩ => ?_⟩
  obtain ⟨r', fd_ctx, hr', rfl, rfl, hfd, hev, hctx⟩ := h.of_stored hid
  rw [hr] at hr'
  cases hr'
  exact ⟨hid, fd_ctx, hfd, hev, hctx⟩

/-- **Exactly one delivery.**  In every run each registration is in its slot, or has left it
and was handed over once, or was removed by a `delEvent` and is never handed over; what
the schedulers were handed is the delivered registrations, in order, each with its task
on the scheduler recorded.  Every bit that is set is that of a stored registration, and
`addEvent` does not succeed on the slot of one. -/
theorem delivered_exactly_once {s : Tracked} (h : Reaches track (fun _ _ => True) Tracked.new s) :
    (∀ id r, s.registrations[id]? = some r →
        (Stored s id r ∧ s.delivered.count id = 0 ∧ id ∉ s.removed)
          ∨ (¬ Stored s id r ∧ s.delivered.count id = 1 ∧ id ∉ s.removed)
          ∨ (¬ Stored s id r ∧ s.delivered.count id = 0 ∧ id ∈ s.removed))
      ∧ s.io.scheduled.map some
        = s.delivered.map (fun id => (s.registrations[id]?).bind Registration.handed)
      ∧ (∀ fd fd_ctx event, s.io.m_fdContexts[fd]? = some fd_ctx → fd_ctx.events.has event = true →
        ∃ id r, s.registrations[id]? = some r ∧ r.fd = fd ∧ r.event = event ∧ Stored s id r)
      ∧ (∀ caller ok fd event cb io, s.io.addEvent caller ok fd event cb = .ok (0, io) →
        ∀ id r, Stored s id r → ¬ (r.fd = fd ∧ r.event = event))
      ∧ ∀ t, Reaches track (fun _ _ => True) s t →
        s.registrations <+: t.registrations ∧ ∀ id ∈ s.removed, t.delivered.count id = 0 := by
  have hs := reaches_tracks h
  obtain ⟨hdelivered, hremoved, hdisjoint⟩ := nodup_append.mp hs.nodup
  refine ⟨fun id r hr => ?_, hs.scheduled, fun fd fd_ctx event hfd hev => ?_,
    fun caller ok fd event cb io hadd id r hid => ?_, fun t ht => ?_⟩
  · rw [hs.stored_iff hr]
    by_cases hstored : ∃ fd event, s.stored fd event = some id
    · obtain ⟨fd, event, hid⟩ := hstored
      have hnot := hs.apart fd event id hid
      rw [mem_append, not_or] at hnot
      exact Or.inl ⟨⟨fd, event, hid⟩, count_eq_zero.mpr hnot.1, hnot.2⟩
    · have hmem := (hs.all id (List.getElem?_eq_some_iff.mp hr).1).resolve_left hstored
      rcases mem_append.mp hmem with hmem | hmem
      · refine Or.inr (Or.inl ⟨hstored, count_eq_one_of_mem hdelivered hmem, ?_⟩)
        exact fun hrem => hdisjoint id hmem id hrem rfl
      · refine Or.inr (Or.inr ⟨hstored, count_eq_zero.mpr ?_, hmem⟩)
        exact fun hdel => hdisjoint id hdel id hmem rfl
  · obtain ⟨id, r, hid, hr, rfl, rfl, -⟩ := hs.stored_of_has hfd hev
    exact ⟨id, r, hr, rfl, rfl, (hs.stored_iff hr).mpr ⟨_, _, hid⟩⟩
  · rintro ⟨rfl, rfl⟩
    have hnone := (hs.addEvent hadd).2 rfl
    rw [hid.1] at hnone
    cases hnone
  · have hgrows := reaches_grows ht
    obtain ⟨-, -, hapart⟩ := nodup_append.mp (reaches_tracks (h.trans ht)).nodup
    refine ⟨hgrows.registrations, fun id hmem => count_eq_zero.mpr fun hdel => ?_⟩
    exact hapart id hdel id (hgrows.removed.subset hmem) rfl

/-- A callback and a fiber wait on descriptor 5, an error delivers both, and a third
registration is removed. -/
def errorRun : List Op :=
  [.call (.addEvent ⟨some 0, 3, .EXEC⟩ true 5 .READ (some 7)),
    .call (.addEvent ⟨some 1, 4, .EXEC⟩ true 5 .WRITE none),
    .report true ⟨5, ⟨true, false⟩, true⟩,
    .call (.addEvent ⟨some 0, 3, .EXEC⟩ true 5 .READ (some 8)),
    .call (.delEvent true 5 .READ)]

theorem delivered_exactly_once_error : ∃ s, exec track Tracked.new errorRun = some s
      ∧ s.io.scheduled = [⟨0, .cb 7⟩, ⟨1, .fiber 4⟩]
      ∧ s.delivered.count 0 = 1 ∧ s.delivered.count 1 = 1
      ∧ 2 ∈ s.removed ∧ s.delivered.count 2 = 0 := by
  have hrun : exec track Tracked.new errorRun = some _ := rfl
  have halong : Along track (fun _ _ => True) Tracked.new errorRun :=
    along_of_forall fun _ _ _ => trivial
  have hs := delivered_exactly_once (reaches_of_exec halong hrun)
  have hremoved := (hs.2.2.2.2 _ Reaches.refl).2 2 mem_cons_self
  exact ⟨_, hrun, rfl, rfl, rfl, mem_cons_self, hremoved⟩

end SylarEventDelivery
