import Sylar.IoEventProofs

/-! # Entries of an `epoll_wait` batch handled late (`IOManager::idle`)

A worker records the batch that `epoll_wait` returned and handles its
entries one by one, each under the lock of its descriptor; meanwhile other
threads add, delete and cancel events on the same descriptors.  The loop
tests that SOME reported event is still registered and then triggers ALL
reported ones.

* **`trigger_registered_iff`** — the assertion of `triggerEvent` holds EXACTLY when no entry is half
  stale when it is handled. -/

namespace SylarIoEvent

open StepSystem IOManager

/-- An entry of a batch: the tickle pipe, or a descriptor. -/
inductive Entry where
  | tickle
  | ready (event : Reported)
  deriving DecidableEq, Repr

/-- The registrations, and what each worker has still to handle. -/
structure Loop where
  io : IOManager
  batches : Nat → List Entry

/-- The steps of the loop. -/
inductive LoopStep where
  | call (c : Call)
  | wait (w : Nat) (batch : List Entry)
  | handle (w : Nat) (ok : Bool)

def Loop.init : Loop := ⟨IOManager.init, fun _ => []⟩

/-- One step of the loop. -/
def Loop.run (s : Loop) : LoopStep → Except Fault Loop
  | .call c => (c.run s.io).map fun io => { s with io := io }
  | .wait w batch => .ok { s with batches := Function.update s.batches w batch }
  | .handle w ok =>
    match s.batches w with
    | [] => .ok s
    | .tickle :: rest =>
        .ok { s with batches := Function.update s.batches w rest }
    | .ready event :: rest => (s.io.handle ok event).map fun io =>
        ⟨io, Function.update s.batches w rest⟩

def Loop.step (s : Loop) (l : LoopStep) : Option Loop := (s.run l).toOption

/-- Calls are allowed ones, and a worker that has handled its batch gets entries for what the kernel
then watches. -/
def Loop.Legal (s : Loop) : LoopStep → Prop
  | .call c => c.Allowed s.io
  | .wait w batch => s.batches w = []
    ∧ ∀ event, .ready event ∈ batch → Reportable s.io event
  | .handle _ _ => True

/-- An entry is in order when it is handled, unless `epoll_ctl` fails. -/
def Loop.InOrder (s : Loop) : LoopStep → Prop
  | .handle w ok => ∀ event rest fd_ctx, s.batches w = .ready event :: rest →
    s.io.m_fdContexts[event.fd]? = some fd_ctx → ok = true → Matches fd_ctx event
  | _ => True

/-- The registrations agree, and the contexts of recorded entries are in the
table. -/
structure Loop.Sound (s : Loop) : Prop where
  consistent : Consistent s.io
  recorded : ∀ w event, .ready event ∈ s.batches w →
    event.fd < s.io.m_fdContexts.length

theorem Loop.init_sound : Loop.init.Sound :=
  ⟨init_consistent, fun _ _ h => absurd h List.not_mem_nil⟩

variable {w : Nat} {event : Reported} {rest : List Entry} {l : LoopStep}

section Step

variable {s : Loop}

/-- The context of the entry at the head of a batch. -/
theorem Loop.Sound.context (hs : s.Sound) (hw : s.batches w = .ready event :: rest) :
    ∃ fd_ctx, s.io.m_fdContexts[event.fd]? = some fd_ctx := by
  have hmem : .ready event ∈ s.batches w := by
    rw [hw]
    exact List.mem_cons_self
  exact ⟨_, List.getElem?_eq_getElem (hs.recorded w event hmem)⟩

/-- The recorded entries stay in the table. -/
theorem sound_of_kept {io : IOManager} {batches : Nat → List Entry} (hio : Kept s.io io)
    (hold : ∀ w event, .ready event ∈ batches w → event.fd < s.io.m_fdContexts.length) :
    Loop.Sound ⟨io, batches⟩ :=
  ⟨hio.consistent, fun w event h => Nat.lt_of_lt_of_le (hold w event h) hio.size⟩

theorem mem_update {v : Nat} (hrest : ∀ e, e ∈ rest → e ∈ s.batches w)
    (h : .ready event ∈ Function.update s.batches w rest v) : .ready event ∈ s.batches v := by
  by_cases hv : v = w
  · subst hv
    rw [Function.update_self] at h
    exact hrest _ h
  · rwa [Function.update_of_ne hv] at h

/-- One step that the code survives keeps the invariant. -/
theorem Loop.step_sound {t : Loop} (hs : s.Sound) (hl : s.Legal l) (h : s.step l = some t) :
    t.Sound := by
  cases l with
  | call c =>
    obtain ⟨io, hrun, hio, -⟩ := Call.run_spec hs.consistent hl
    rw [Loop.step, Loop.run, hrun] at h
    cases h
    exact sound_of_kept hio hs.recorded
  | wait w batch =>
    cases h
    refine ⟨hs.consistent, fun v event hmem => ?_⟩
    dsimp only at hmem
    by_cases hv : v = w
    · subst hv
      rw [Function.update_self] at hmem
      obtain ⟨fd_ctx, hfd, -⟩ := (hl.2 event hmem).matches hs.consistent
      exact (List.getElem?_eq_some_iff.mp hfd).1
    · rw [Function.update_of_ne hv] at hmem
      exact hs.recorded v event hmem
  | handle w ok =>
    rw [Loop.step, Loop.run] at h
    cases hw : s.batches w with
    | nil =>
      rw [hw] at h
      cases h
      exact hs
    | cons entry rest =>
      rw [hw] at h
      have hrest : ∀ e, e ∈ rest → e ∈ s.batches w := by
        intro e he
        rw [hw]
        exact List.mem_cons_of_mem _ he
      cases entry with
      | tickle =>
        cases h
        exact ⟨hs.consistent, fun v event hmem =>
          hs.recorded v event (mem_update hrest hmem)⟩
      | ready event =>
        obtain ⟨fd_ctx, hfd⟩ := hs.context hw
        by_cases hmatch : ok = true → Matches fd_ctx event
        · obtain ⟨io, hrun, hio, -⟩ := handle_spec hs.consistent hfd hmatch
          dsimp only at h
          rw [hrun] at h
          cases h
          exact sound_of_kept hio fun v event hmem =>
            hs.recorded v event (mem_update hrest hmem)
        · -- a half stale entry stops the program
          obtain ⟨rfl, hstale⟩ := Classical.not_imp.mp hmatch
          dsimp only at h
          rw [handle_stale hs.consistent hfd hstale] at h
          exact nomatch h

/-- A step calls `triggerEvent` for registered events only, exactly if the
entry it handles is in order. -/
theorem Loop.inOrder_iff (hs : s.Sound) (hl : s.Legal l) :
    s.InOrder l ↔ s.run l ≠ .error (.assertion .triggerEvent) := by
  cases l with
  | call c =>
    obtain ⟨io, hrun, -⟩ := Call.run_spec hs.consistent hl
    refine ⟨fun _ h => ?_, fun _ => trivial⟩
    rw [Loop.run, hrun] at h
    exact nomatch h
  | wait w batch => exact ⟨fun _ h => (nomatch h), fun _ => trivial⟩
  | handle w ok =>
    rw [Loop.run]
    cases hw : s.batches w with
    | nil =>
      refine ⟨fun _ h => (nomatch h), fun _ event rest fd_ctx h => ?_⟩
      rw [hw] at h
      exact nomatch h
    | cons entry rest =>
      cases entry with
      | tickle =>
        refine ⟨fun _ h => (nomatch h), fun _ event rest fd_ctx h => ?_⟩
        rw [hw] at h
        exact nomatch h
      | ready event =>
        obtain ⟨fd_ctx, hfd⟩ := hs.context hw
        constructor
        · intro hin h
          obtain ⟨io, hrun, -⟩ := handle_spec hs.consistent hfd (hin event rest fd_ctx hw hfd)
          dsimp only at h
          rw [hrun] at h
          exact nomatch h
        · rintro hrun event' rest' fd_ctx' hw' hfd' rfl
          rw [hw] at hw'
          obtain ⟨hevent, -⟩ := List.cons.inj hw'
          obtain rfl := Entry.ready.inj hevent
          by_contra hmatch
          refine hrun ?_
          dsimp only
          rw [handle_stale hs.consistent hfd' hmatch]
          rfl

end Step

/-- **Stale entries.**  Along every run, in any interleaving: every entry is in order when it
is handled if and only if at each step `triggerEvent` is called for registered events only
and the counter is the number of registered events. -/
theorem trigger_registered_iff {schedule : List LoopStep}
    (h : Along Loop.step Loop.Legal Loop.init schedule) :
    Along Loop.step Loop.InOrder Loop.init schedule ↔ ∀ before l, before ++ [l] <+: schedule →
          ∀ s, exec Loop.step Loop.init before = some s →
            s.run l ≠ .error (.assertion .triggerEvent)
              ∧ s.io.m_pendingEventCount = s.io.registered := by
  have reached {before : List LoopStep} {l : LoopStep} {s : Loop}
      (hpre : before ++ [l] <+: schedule)
      (hs : exec Loop.step Loop.init before = some s) : s.Sound ∧ s.Legal l :=
    ⟨(h.reaches hpre hs).inv Loop.init_sound Loop.step_sound, along_iff.mp h before l hpre s hs⟩
  rw [along_iff]
  constructor
  · intro hin before l hpre s hs
    obtain ⟨hsound, hlegal⟩ := reached hpre hs
    exact ⟨(Loop.inOrder_iff hsound hlegal).mp (hin before l hpre s hs), hsound.consistent.pending⟩
  · intro hrun before l hpre s hs
    obtain ⟨hsound, hlegal⟩ := reached hpre hs
    exact (Loop.inOrder_iff hsound hlegal).mpr (hrun before l hpre s hs).1

/-- A descriptor registered for both events; both are reported and handled before anything changes.
-/
theorem trigger_registered_iff_both : ∃ s, exec Loop.step Loop.init
        [.call (.addEvent ⟨some 0, 0, .EXEC⟩ true 5 .READ (some 7)),
          .call (.addEvent ⟨some 0, 0, .EXEC⟩ true 5 .WRITE (some 8)),
          .wait 0 [.ready ⟨5, ⟨true, true⟩, false⟩]] = some s
      ∧ s.run (.handle 0 true) ≠ .error (.assertion .triggerEvent)
      ∧ s.io.m_pendingEventCount = 2 ∧ s.io.m_pendingEventCount = s.io.registered := by
  have hrun : exec Loop.step Loop.init
      [.call (.addEvent ⟨some 0, 0, .EXEC⟩ true 5 .READ (some 7)),
        .call (.addEvent ⟨some 0, 0, .EXEC⟩ true 5 .WRITE (some 8)),
        .wait 0 [.ready ⟨5, ⟨true, true⟩, false⟩]] = some _ := rfl
  have hboth : Along Loop.step (fun s l => s.Legal l ∧ s.InOrder l) Loop.init
      [.call (.addEvent ⟨some 0, 0, .EXEC⟩ true 5 .READ (some 7)),
        .call (.addEvent ⟨some 0, 0, .EXEC⟩ true 5 .WRITE (some 8)),
        .wait 0 [.ready ⟨5, ⟨true, true⟩, false⟩], .handle 0 true] := by
    refine ⟨⟨⟨rfl, nofun, Event.noConfusion, ?_⟩, trivial⟩, fun t ht => ?_⟩
    · rintro fd_ctx hfd
      cases hfd
      rfl
    cases ht
    refine ⟨⟨⟨rfl, nofun, Event.noConfusion, ?_⟩, trivial⟩, fun t ht => ?_⟩
    · rintro fd_ctx hfd
      cases hfd
      rfl
    cases ht
    refine ⟨⟨⟨rfl, fun event hmem => ?_⟩, trivial⟩, fun t ht => ?_⟩
    · obtain rfl := Entry.ready.inj (List.mem_singleton.mp hmem)
      exact ⟨⟨true, true⟩, rfl, id, id⟩
    cases ht
    refine ⟨⟨trivial, ?_⟩, fun _ _ => trivial⟩
    rintro event rest fd_ctx hbatch hfd -
    obtain rfl := Entry.ready.inj (List.cons.inj hbatch).1
    cases hfd
    exact Or.inr ⟨id, id⟩
  obtain ⟨hsafe, hcount⟩ := (trigger_registered_iff (hboth.mono And.left)).mp
    (hboth.mono And.right) _ (.handle 0 true) List.prefix_rfl _ hrun
  exact ⟨_, hrun, hsafe, rfl, hcount⟩

/-- Both events of a descriptor are reported, and `WRITE` is cancelled before the entry is handled:
the loop triggers both, and the assertion fails for `WRITE`. -/
theorem half_stale_entry : ∃ s, exec Loop.step Loop.init
        [.call (.addEvent ⟨some 0, 0, .EXEC⟩ true 5 .READ (some 7)),
          .call (.addEvent ⟨some 0, 0, .EXEC⟩ true 5 .WRITE (some 8)),
          .wait 0 [.ready ⟨5, ⟨true, true⟩, false⟩],
          .call (.cancelEvent true 5 .WRITE)] = some s
      ∧ s.run (.handle 0 true) = .error (.assertion .triggerEvent) :=
  ⟨_, rfl, rfl⟩

end SylarIoEvent
