import Mathlib.Data.List.Basic
import Sylar.StepSystemProofs

/-! # The send queue (`async_socket_stream.cc`)

`enqueue` pushes a context under the lock and, if the queue was empty, notifies
`m_sem` after the lock is released.  `doWrite` waits for `m_sem`, takes the whole
queue and sends it; `innerClose` notifies once more and clears the queue.  The lock
sections, `notify`, the return from `wait` and `doSend` are steps here, of any number
of threads and one writer at a time.

* **`Covered`** — what stands behind a queue that is not empty: a notification, or
  someone who is about to give one, or the writer.
* **`step_inv`** — one step keeps that, and the order of the contexts.
* **`queue_served`** — no run leaves a context in the queue that nobody will come for. -/

namespace SylarSendQueue

open StepSystem

/-! ## The code -/

/-- Where a call of `innerClose` stands. -/
inductive Close where
  | disconnectCb
  | close
  | notify
  | clear
  deriving DecidableEq, Repr

/-- Where a thread stands, in `enqueue` or `innerClose`; `notify` is after the unlock. -/
inductive Pc (α : Type) where
  | push (ctx : α)
  | notify
  | innerClose (c : Close)
  | done
  deriving DecidableEq, Repr

/-- Where the writer stands in `doWrite`: `swap` is after the return from `wait`, `out`
after the loop. -/
inductive Writer (α : Type) where
  | none
  | test
  | wait
  | swap
  | send (ctxs : List α)
  | innerClose (c : Close)
  | out
  deriving DecidableEq, Repr

/-- The queue, the count of `m_sem`, `isConnected()`, the threads and the writer; what was enqueued,
and on what `doSend` was called. -/
structure State (α : Type) where
  m_queue : List α
  m_sem : Nat
  connected : Bool
  threads : List (Pc α)
  writer : Writer α
  enqueued : List α
  sent : List α
  deriving DecidableEq, Repr

/-- What a call of `doSend` or of a callback does; a callback that fails counts as one
that returns. -/
inductive Outcome where
  | ok
  | fails
  | throws
  deriving DecidableEq, Repr

/-- How a call of `innerClose` goes on. -/
inductive Exit where
  | next (c : Close)
  | returned
  | thrown
  deriving DecidableEq, Repr

section Code

variable {α : Type}

def init : State α := ⟨[], 0, false, [], .none, [], []⟩

/-- `innerClose`, without the contexts that wait for a response. -/
def State.innerClose (s : State α) (out : Outcome) : Close → State α × Exit
  | .disconnectCb => (s, if s.connected ∧ out = .throws then .thrown else .next .close)
  | .close => ({ s with connected := false }, .next .notify)
  | .notify => ({ s with m_sem := s.m_sem + 1 }, .next .clear)
  | .clear => ({ s with m_queue := [] }, .returned)

/-- The next section of a caller. -/
def advance (s : State α) (out : Outcome) : Pc α → Option (State α × Pc α)
  | .push ctx =>
    some ({ s with m_queue := s.m_queue ++ [ctx], enqueued := s.enqueued ++ [ctx] },
      if s.m_queue.isEmpty then .notify else .done)
  | .notify => some ({ s with m_sem := s.m_sem + 1 }, .done)
  | .innerClose c =>
    match s.innerClose out c with
    | (s, .next c) => some (s, .innerClose c)
    | (s, .returned) | (s, .thrown) => some (s, .done)
  | .done => none

def doWrite (s : State α) (out : Outcome) : Option (State α) :=
  match s.writer with
  | .none => none
  | .test => some { s with writer := if s.connected then .wait else .out }
  | .wait => if 0 < s.m_sem then some { s with m_sem := s.m_sem - 1, writer := .swap } else none
  | .swap => some { s with m_queue := [], writer := .send s.m_queue }
  | .send [] => some { s with writer := .test }
  | .send (ctx :: ctxs) =>
    some { s with
      sent := s.sent ++ [ctx]
      writer := match out with
        | .ok => .send ctxs
        | .fails => .innerClose .disconnectCb
        | .throws => .out }
  | .innerClose c =>
    match s.innerClose out c with
    | (s, .next c) => some { s with writer := .innerClose c }
    | (s, .returned) => some { s with writer := .test }
    | (s, .thrown) => some { s with writer := .out }
  | .out => some { s with m_queue := [], writer := .none }

/-- Calls begin, the writer starts, the socket is connected or closed, or a thread or the writer
moves. -/
inductive Label (α : Type) where
  | enqueue (ctx : α)
  | innerClose
  | startWrite
  | connect
  | close
  | move (i : Nat) (out : Outcome)
  | write (out : Outcome)
  deriving DecidableEq, Repr

/-- A new caller, or the next section of a thread. -/
def step (s : State α) : Label α → Option (State α)
  | .enqueue ctx => some { s with threads := s.threads ++ [.push ctx] }
  | .innerClose => some { s with threads := s.threads ++ [.innerClose .disconnectCb] }
  | .startWrite =>
    match s.writer with
    | .none => some { s with writer := .test }
    | _ => none
  | .connect => some { s with connected := true }
  | .close => some { s with connected := false }
  | .move i out =>
    match s.threads[i]? with
    | none => none
    | some pc =>
        (advance s out pc).map fun (s, pc') => { s with threads := s.threads.set i pc' }
  | .write out => doWrite s out

end Code

/-! ## The invariant -/

section Invariant

variable {α : Type} {s u : State α}

/-- The contexts that the writer has taken and not sent yet. -/
def Writer.ctxs : Writer α → List α
  | .send ctxs => ctxs
  | _ => []

/-- A context in the queue is noticed: `m_sem` is positive, an enqueuer is about to notify, or the
writer to take the queue or to clear it. -/
def Covered (s : State α) : Prop :=
  s.m_queue ≠ [] → 0 < s.m_sem ∨ .notify ∈ s.threads ∨ s.writer = .swap ∨ s.writer = .out

/-- The invariant: no lost signal, and the order. -/
structure Inv (s : State α) : Prop where
  covered : Covered s
  order : (s.sent ++ s.writer.ctxs ++ s.m_queue).Sublist s.enqueued

theorem init_inv : Inv (init : State α) := ⟨fun h => absurd rfl h, List.Sublist.refl []⟩

private theorem covered_of_nil (h : s.m_queue = []) : Covered s := fun hne => absurd h hne

/-- What covers the queue stays. -/
theorem Covered.mono (h : Covered s) (hqueue : u.m_queue = s.m_queue ∨ u.m_queue = [])
    (hsem : s.m_sem ≤ u.m_sem) (hnotify : .notify ∈ s.threads → .notify ∈ u.threads)
    (hwriter : s.writer = .swap ∨ s.writer = .out → u.writer = .swap ∨ u.writer = .out) :
    Covered u := by
  rcases hqueue with hqueue | hqueue
  · intro hne
    rw [hqueue] at hne
    rcases h hne with hpos | hmem | hw
    · exact Or.inl (Nat.lt_of_lt_of_le hpos hsem)
    · exact Or.inr (Or.inl (hnotify hmem))
    · exact Or.inr (Or.inr (hwriter hw))
  · exact covered_of_nil hqueue

/-- A queue that is cleared, or not touched, keeps the order. -/
theorem order_mono {a b q r : List α} (h : (a ++ q).Sublist b) (hr : r = q ∨ r = []) :
    (a ++ r).Sublist b := by
  rcases hr with rfl | rfl
  · exact h
  · exact ((List.Sublist.refl a).append (List.nil_sublist q)).trans h

/-- What a step of `innerClose` can do. -/
structure Closes (s u : State α) : Prop where
  queue : u.m_queue = s.m_queue ∨ u.m_queue = []
  sem : s.m_sem ≤ u.m_sem
  threads : u.threads = s.threads
  writer : u.writer = s.writer
  enqueued : u.enqueued = s.enqueued
  sent : u.sent = s.sent

theorem closes_innerClose (s : State α) (out : Outcome) (c : Close) :
    Closes s (s.innerClose out c).1 := by
  cases c with
  | disconnectCb => exact ⟨Or.inl rfl, Nat.le_refl _, rfl, rfl, rfl, rfl⟩
  | close => exact ⟨Or.inl rfl, Nat.le_refl _, rfl, rfl, rfl, rfl⟩
  | notify => exact ⟨Or.inl rfl, Nat.le_succ _, rfl, rfl, rfl, rfl⟩
  | clear => exact ⟨Or.inr rfl, Nat.le_refl _, rfl, rfl, rfl, rfl⟩

theorem Inv.closes (h : Inv s) (hu : Closes s u) : Inv u := by
  refine ⟨h.covered.mono hu.queue hu.sem (fun hmem => ?_) (fun hw => ?_), ?_⟩
  · rw [hu.threads]
    exact hmem
  · rw [hu.writer]
    exact hw
  · rw [hu.sent, hu.writer, hu.enqueued]
    exact order_mono h.order hu.queue

/-- A thread that was not about to notify moves. -/
theorem Inv.thread_moves {i : Nat} {pc pc' : Pc α} (h : Inv s)
    (hi : s.threads[i]? = some pc) (hne : pc ≠ .notify) :
    Inv { s with threads := s.threads.set i pc' } := by
  refine ⟨h.covered.mono (Or.inl rfl) (Nat.le_refl _) (fun hmem => ?_) id, h.order⟩
  obtain ⟨pc₀, hpc₀, rfl⟩ := exists_moved (P := (· = .notify)) (b := pc') hi ⟨_, hmem, rfl⟩
    fun heq => absurd heq hne
  exact hpc₀

/-- The writer moves, and takes nothing from the queue. -/
theorem Inv.writer_moves {sent : List α} {w : Writer α} (h : Inv s)
    (hswap : s.writer ≠ .swap) (hout : s.writer ≠ .out)
    (hctxs : (sent ++ w.ctxs).Sublist (s.sent ++ s.writer.ctxs)) :
    Inv { s with sent := sent, writer := w } := by
  refine ⟨h.covered.mono (Or.inl rfl) (Nat.le_refl _) id (fun hw => ?_), ?_⟩
  · rcases hw with hw | hw
    · exact absurd hw hswap
    · exact absurd hw hout
  · exact (hctxs.append (List.Sublist.refl s.m_queue)).trans h.order

/-- One step of `enqueue` or `innerClose`. -/
theorem advance_inv {i : Nat} {pc pc' : Pc α} {out : Outcome} (h : Inv s)
    (hi : s.threads[i]? = some pc) (hstep : advance s out pc = some (u, pc')) :
    Inv { u with threads := u.threads.set i pc' } := by
  cases pc with
  | push ctx =>
    cases hstep
    refine ⟨fun _ => ?_, ?_⟩
    · cases hqueue : s.m_queue with
      | nil => exact Or.inr (Or.inl (moved_mem hi))
      | cons hd tl =>
        -- The queue was covered before.
        have hmoved : Inv { s with threads := s.threads.set i .done } :=
          h.thread_moves hi fun heq => nomatch heq
        refine hmoved.covered ?_
        show s.m_queue ≠ []
        rw [hqueue]
        exact List.cons_ne_nil hd tl
    · show (s.sent ++ s.writer.ctxs ++ (s.m_queue ++ [ctx])).Sublist (s.enqueued ++ [ctx])
      rw [← List.append_assoc]
      exact h.order.append (List.Sublist.refl [ctx])
  | notify =>
    cases hstep
    exact ⟨fun _ => Or.inl (Nat.succ_pos _), h.order⟩
  | innerClose c =>
    have hu := closes_innerClose s out c
    have hi' : (s.innerClose out c).1.threads[i]? = some (.innerClose c) := by
      rw [hu.threads]
      exact hi
    have hmoved : ∀ pc', Inv { (s.innerClose out c).1 with
        threads := (s.innerClose out c).1.threads.set i pc' } :=
      fun pc' => (h.closes hu).thread_moves hi' fun heq => nomatch heq
    rw [advance] at hstep
    split at hstep <;> rename_i heq <;> rw [heq] at hmoved <;> cases hstep <;> exact hmoved _
  | done => exact nomatch hstep

/-- One step of the writer. -/
theorem doWrite_inv {out : Outcome} (h : Inv s) (hstep : doWrite s out = some u) : Inv u := by
  have horder := h.order
  cases hw : s.writer with
  | none =>
    rw [doWrite, hw] at hstep
    exact nomatch hstep
  | test =>
    rw [doWrite, hw] at hstep
    cases hstep
    refine h.writer_moves (by rw [hw]; nofun) (by rw [hw]; nofun) ?_
    rw [hw]
    cases s.connected <;> exact List.Sublist.refl _
  | wait =>
    rw [doWrite, hw] at hstep
    rw [hw] at horder
    dsimp only at hstep
    split at hstep
    · cases hstep
      exact ⟨fun _ => Or.inr (Or.inr (Or.inl rfl)), horder⟩
    · exact nomatch hstep
  | swap =>
    -- What was in the queue is with the writer now.
    rw [doWrite, hw] at hstep
    cases hstep
    refine ⟨covered_of_nil rfl, ?_⟩
    rw [hw] at horder
    show (s.sent ++ s.m_queue ++ []).Sublist s.enqueued
    rw [List.append_nil]
    change (s.sent ++ [] ++ s.m_queue).Sublist s.enqueued at horder
    rwa [List.append_nil] at horder
  | send ctxs =>
    have hmoves : ∀ {sent w}, (sent ++ Writer.ctxs w).Sublist (s.sent ++ ctxs) →
        Inv { s with sent := sent, writer := w } := by
      intro sent w hctxs
      refine h.writer_moves (by rw [hw]; nofun) (by rw [hw]; nofun) ?_
      rw [hw]
      exact hctxs
    cases ctxs with
    | nil =>
      rw [doWrite, hw] at hstep
      cases hstep
      exact hmoves (List.Sublist.refl _)
    | cons ctx ctxs =>
      rw [doWrite, hw] at hstep
      cases hstep
      refine hmoves ?_
      rw [List.append_assoc]
      refine (List.Sublist.refl s.sent).append ?_
      cases out with
      | ok => exact List.Sublist.refl _
      | fails => exact (List.nil_sublist ctxs).cons_cons ctx
      | throws => exact (List.nil_sublist ctxs).cons_cons ctx
  | innerClose c =>
    have hu := closes_innerClose s out c
    have hmoves : ∀ {w : Writer α}, w.ctxs = [] →
        Inv { (s.innerClose out c).1 with writer := w } := by
      intro w hctxs
      refine (h.closes hu).writer_moves ?_ ?_ ?_
      · rw [hu.writer, hw]
        nofun
      · rw [hu.writer, hw]
        nofun
      · rw [hctxs, hu.writer, hw]
        exact List.Sublist.refl _
    rw [doWrite, hw] at hstep
    dsimp only at hstep
    split at hstep <;> rename_i heq <;> rw [heq] at hmoves <;> cases hstep <;> exact hmoves rfl
  | out =>
    rw [doWrite, hw] at hstep
    cases hstep
    refine ⟨covered_of_nil rfl, ?_⟩
    rw [hw] at horder
    exact order_mono horder (Or.inr rfl)

/-- **STEP LEMMA.** -/
theorem step_inv {l : Label α} (h : Inv s) (hstep : step s l = some u) : Inv u := by
  have hspawn : ∀ pc, Inv { s with threads := s.threads ++ [pc] } := fun pc =>
    ⟨h.covered.mono (Or.inl rfl) (Nat.le_refl _) (List.mem_append_left _) id, h.order⟩
  cases l with
  | enqueue ctx =>
    cases hstep
    exact hspawn _
  | innerClose =>
    cases hstep
    exact hspawn _
  | startWrite =>
    rw [step] at hstep
    split at hstep
    · rename_i hw
      cases hstep
      refine h.writer_moves (by rw [hw]; nofun) (by rw [hw]; nofun) ?_
      rw [hw]
      exact List.Sublist.refl _
    · exact nomatch hstep
  | connect =>
    cases hstep
    exact ⟨h.covered, h.order⟩
  | close =>
    cases hstep
    exact ⟨h.covered, h.order⟩
  | move i out =>
    rw [step] at hstep
    split at hstep
    · exact nomatch hstep
    · rename_i pc hi
      obtain ⟨⟨v, pc'⟩, hadv, heq⟩ := Option.map_eq_some_iff.mp hstep
      cases heq
      exact advance_inv h hi hadv
  | write out => exact doWrite_inv h hstep

end Invariant

/-! ## Every run -/

section Runs

variable {α : Type} [DecidableEq α]

/-- **THE QUEUE IS SERVED.**  In every state of every run, a queue that is not empty has a
notification in `m_sem`, an enqueuer about to give one, or a writer about to take it or to
clear it; and `doSend` was called on enqueued contexts in the order of the queue. -/
theorem queue_served {s : State α} (h : Reaches step (fun _ _ => True) init s) : (s.m_queue ≠ [] →
      0 < s.m_sem ∨ .notify ∈ s.threads ∨ s.writer = .swap ∨ s.writer = .out)
    ∧ s.sent.Sublist s.enqueued ∧ ∀ ctx, s.sent.count ctx ≤ s.enqueued.count ctx := by
  have hinv : Inv s := h.inv init_inv fun hinv _ hstep => step_inv hinv hstep
  have hsent : s.sent.Sublist s.enqueued := by
    have horder := hinv.order
    rw [List.append_assoc] at horder
    exact (List.sublist_append_left _ _).trans horder
  exact ⟨hinv.covered, hsent, fun ctx => hsent.count_le ctx⟩

end Runs

/-- Two contexts are enqueued when the writer returns from `wait`; the first cannot be sent, and a
third comes after the close. -/
def failed : List (Label Nat) :=
  [.connect, .startWrite, .write .ok, .innerClose, .move 0 .ok, .connect, .move 0 .ok,
   .connect, .move 0 .ok, .write .ok, .enqueue 4, .enqueue 5, .move 1 .ok, .move 2 .ok,
   .write .ok, .write .fails, .write .ok, .write .ok, .write .ok, .write .ok, .enqueue 6,
   .move 3 .ok]

theorem queue_served_failed :
    ∃ s, exec step init failed = some s ∧ s.enqueued = [4, 5, 6] ∧ s.sent = [4] ∧ s.m_queue ≠ []
      ∧ (0 < s.m_sem ∨ .notify ∈ s.threads ∨ s.writer = .swap ∨ s.writer = .out) := by
  have hrun : exec step init failed = some _ := rfl
  have halong : Along step (fun _ _ => True) init failed := along_of_forall fun _ _ _ => trivial
  have hserved := queue_served (reaches_of_exec halong hrun)
  exact ⟨_, hrun, rfl, rfl, List.cons_ne_nil _ _, hserved.1 (List.cons_ne_nil _ _)⟩

end SylarSendQueue
