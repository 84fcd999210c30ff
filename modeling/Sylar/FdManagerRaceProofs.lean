import Mathlib.Algebra.Ring.Int.Defs
import Mathlib.Data.List.Infix
import Sylar.StepSystemProofs

/-! # Concurrent look-ups of descriptor contexts (`fdmanager.cc`)

`FdManager::get(fd, true)` looks under a read lock and, if there is no context,
creates one under a write lock that it takes anew.  Between the two another call
may create a context for the same descriptor; the creation does not look again.
Contexts are named by pointers here, what they hold is in `FdManagerProofs`.

* **`step_good`** — one step of a call that overwrites no context.
* **`contexts_stable_iff`** — when the calls agree on the context of a descriptor until it is
  deleted. -/

namespace SylarFdManagerRace

open StepSystem List

/-! ## The code -/

/-- An `FdCtx::ptr` that is not null. -/
abbrev Ptr := Nat

/-- `m_datas.resize(size)`. -/
def resize (m_datas : List (Option Ptr)) (size : Nat) : List (Option Ptr) :=
  m_datas.take size ++ List.replicate (size - m_datas.length) none

/-- `(int)m_datas.size()`. -/
def intSize (m_datas : List (Option Ptr)) : Int32 := Int32.ofNat m_datas.length

/-- A descriptor as an index, which is a `size_t`. -/
def index (fd : Int32) : Nat := (fd.toInt % 2 ^ 64).toNat

/-- `fd * 1.5` as a size. -/
def grownSize (fd : Int32) : Nat := (fd.toInt * 3 / 2).toNat

/-- How the first half of `get` ends. -/
inductive Lookup where
  | returns (ctx : Option Ptr)
  | creates
  | outOfRange
  deriving DecidableEq, Repr

/-- `get` under the read lock. -/
def lookup (m_datas : List (Option Ptr)) (fd : Int32) (auto_create : Bool) : Lookup :=
  if fd = -1 then .returns none
  else if intSize m_datas ≤ fd then
    if auto_create = false then .returns none else .creates
  else
    match m_datas[index fd]? with
    | none => .outOfRange
    | some slot => if slot.isSome || !auto_create then .returns slot else .creates

/-- `m_datas[fd] = ctx`; nothing if that is out of range. -/
def assign (m_datas : List (Option Ptr)) (fd : Int32) (ctx : Option Ptr) :
    Option (List (Option Ptr)) :=
  if index fd < m_datas.length then some (m_datas.set (index fd) ctx) else none

/-- `get` under the write lock, with a new context. -/
def create (m_datas : List (Option Ptr)) (fd : Int32) (ctx : Ptr) :
    Option (List (Option Ptr)) :=
  assign (if intSize m_datas ≤ fd then resize m_datas (grownSize fd) else m_datas) fd
    (some ctx)

def del (m_datas : List (Option Ptr)) (fd : Int32) : Option (List (Option Ptr)) :=
  if intSize m_datas ≤ fd then some m_datas else assign m_datas fd none

/-- The calls. -/
inductive Call where
  | get (fd : Int32) (auto_create : Bool)
  | del (fd : Int32)
  deriving DecidableEq, Repr

def Call.fd : Call → Int32
  | .get fd _ | .del fd => fd

/-- Where a call stands: before its first lock, before the write lock of `get`, or
at its end. -/
inductive Pc where
  | start (call : Call)
  | create (fd : Int32)
  | done
  deriving DecidableEq, Repr

/-- A `get` returns, a `del` is done, or a call goes out of range. -/
inductive Event where
  | got (fd : Int32) (ctx : Option Ptr)
  | deleted (fd : Int32)
  | outOfRange (fd : Int32)
  deriving DecidableEq, Repr

/-- The manager, the calls and what has happened so far; contexts from `fresh` on are
new. -/
structure State where
  m_datas : List (Option Ptr)
  fresh : Ptr
  callers : List Pc
  log : List Event
  deriving DecidableEq, Repr

/-- `FdManager::FdManager()` and calls that are about to start. -/
def init (calls : List Call) : State :=
  ⟨List.replicate 64 none, 0, calls.map .start, []⟩

/-- The call ends. -/
def State.finish (s : State) (i : Nat) (e : Event) : State :=
  { s with callers := s.callers.set i .done, log := s.log ++ [e] }

/-- The next step of call `i`. -/
def step (s : State) (i : Nat) : Option State :=
  match s.callers[i]? with
  | some (.start (.get fd auto_create)) =>
    match lookup s.m_datas fd auto_create with
    | .returns ctx => some (s.finish i (.got fd ctx))
    | .creates => some { s with callers := s.callers.set i (.create fd) }
    | .outOfRange => some (s.finish i (.outOfRange fd))
  | some (.create fd) =>
    match create s.m_datas fd s.fresh with
    | none => some (s.finish i (.outOfRange fd))
    | some m_datas =>
        some (State.finish { s with m_datas, fresh := s.fresh + 1 } i
          (.got fd (some s.fresh)))
  | some (.start (.del fd)) =>
    match del s.m_datas fd with
    | none => some (s.finish i (.outOfRange fd))
    | some m_datas => some (State.finish { s with m_datas } i (.deleted fd))
  | _ => none

/-! ## What is asked -/

/-- A call has returned `c` for `fd` and it has not been deleted since. -/
def Since (log : List Event) (fd : Int32) (c : Ptr) : Prop :=
  ∃ before after, log = before ++ .got fd (some c) :: after ∧ .deleted fd ∉ after

/-- Once a call has returned a context for a descriptor, every `get` up to the next `del` returns
the same. -/
def Stable (log : List Event) : Prop :=
  ∀ before fd c between r after,
    log = before ++ .got fd (some c) :: (between ++ .got fd r :: after) →
    .deleted fd ∉ between → r = some c

/-- The contexts are stable, and no call has gone out of range. -/
structure Steady (log : List Event) : Prop where
  stable : Stable log
  inRange : ∀ fd, .outOfRange fd ∉ log

/-- The context in the place of `fd`. -/
def held (m_datas : List (Option Ptr)) (fd : Int32) : Option Ptr := m_datas[index fd]?.join

/-- The descriptor is not negative, or the `-1` that `get` looks for; a creation finds its place
empty. -/
def Pc.Fine (m_datas : List (Option Ptr)) : Pc → Prop
  | .start (.get fd _) => fd = -1 ∨ 0 ≤ fd.toInt
  | .start (.del fd) => 0 ≤ fd.toInt
  | .create fd => held m_datas fd = none
  | .done => True

instance (m_datas : List (Option Ptr)) : ∀ pc, Decidable (Pc.Fine m_datas pc)
  | .start (.get fd _) => inferInstanceAs (Decidable (fd = -1 ∨ 0 ≤ fd.toInt))
  | .start (.del fd) => inferInstanceAs (Decidable (0 ≤ fd.toInt))
  | .create fd => inferInstanceAs (Decidable (held m_datas fd = none))
  | .done => isTrue trivial

def Fine (s : State) (i : Nat) : Prop := ∀ pc ∈ s.callers[i]?, pc.Fine s.m_datas

instance (s : State) (i : Nat) : Decidable (Fine s i) :=
  inferInstanceAs (Decidable (∀ pc ∈ s.callers[i]?, pc.Fine s.m_datas))

section Logs

variable {log : List Event} {e : Event} {fd : Int32} {c : Ptr}

theorem since_snoc :
    Since (log ++ [e]) fd c ↔ e = .got fd (some c) ∨ Since log fd c ∧ e ≠ .deleted fd := by
  constructor
  · rintro ⟨before, after, hlog, hdel⟩
    rcases eq_nil_or_concat after with rfl | ⟨after, x, rfl⟩
    · exact Or.inl (cons.inj (append_inj' hlog rfl).2).1
    · rw [concat_eq_append, ← cons_append, ← append_assoc] at hlog
      obtain ⟨rfl, hx⟩ := append_inj' hlog rfl
      obtain rfl := (cons.inj hx).1
      rw [concat_eq_append, mem_append, not_or] at hdel
      refine Or.inr ⟨⟨before, after, rfl, hdel.1⟩, ?_⟩
      rintro rfl
      exact hdel.2 mem_cons_self
  · rintro (rfl | ⟨⟨before, after, rfl, hdel⟩, hne⟩)
    · exact ⟨log, [], rfl, not_mem_nil⟩
    · refine ⟨before, after ++ [e], by rw [append_assoc, cons_append], ?_⟩
      rw [mem_append, mem_singleton, not_or]
      exact ⟨hdel, hne.symm⟩

/-- One more event is stable if a `get` among them returns what was returned. -/
theorem stable_snoc :
    Stable (log ++ [e]) ↔ Stable log ∧ ∀ fd r c, e = .got fd r → Since log fd c → r = some c := by
  constructor
  · intro h
    refine ⟨fun before fd c between r after hlog => ?_, ?_⟩
    · refine h before fd c between r (after ++ [e]) ?_
      rw [hlog]
      simp
    · rintro fd r c rfl ⟨before, after, rfl, hdel⟩
      refine h before fd c after r [] ?_ hdel
      simp
  · rintro ⟨hlog, he⟩ before fd c between r after heq hdel
    rcases eq_nil_or_concat after with rfl | ⟨after, x, rfl⟩
    · rw [← cons_append, ← append_assoc] at heq
      obtain ⟨rfl, hx⟩ := append_inj' heq rfl
      exact he fd r c (cons.inj hx).1 ⟨before, between, rfl, hdel⟩
    · refine hlog before fd c between r after ?_ hdel
      have heq' : log ++ [e]
          = (before ++ .got fd (some c) :: (between ++ .got fd r :: after)) ++ [x] := by
        rw [heq]
        simp
      exact (append_inj' heq' rfl).1

theorem Steady.of_prefix {l l' : List Event} (h : l <+: l') (hl : Steady l') : Steady l := by
  obtain ⟨rest, rfl⟩ := h
  refine ⟨fun before fd c between r after hlog => ?_, fun fd hmem => ?_⟩
  · refine hl.stable before fd c between r (after ++ rest) ?_
    rw [hlog]
    simp
  · exact hl.inRange fd (mem_append_left _ hmem)

end Logs

/-! ## The vector -/

section Vector

variable {m_datas : List (Option Ptr)} {fd g : Int32}

/-- A vector with the constructor's places at least, whose size is an `int`. -/
structure Sized (m_datas : List (Option Ptr)) : Prop where
  least : 64 ≤ m_datas.length
  most : m_datas.length < 2 ^ 31

theorem Sized.set (h : Sized m_datas) (i : Nat) (slot : Option Ptr) :
    Sized (m_datas.set i slot) := by
  refine ⟨?_, ?_⟩
  · rw [length_set]
    exact h.least
  · rw [length_set]
    exact h.most

private theorem intSize_le (h : Sized m_datas) :
    intSize m_datas ≤ fd ↔ (m_datas.length : Int) ≤ fd.toInt := by
  rw [intSize, Int32.le_iff_toInt_le, Int32.toInt_ofNat_of_lt h.most]

private theorem index_of_nonneg (h : 0 ≤ fd.toInt) : (index fd : Int) = fd.toInt := by
  have hlt := fd.toInt_lt
  rw [index]
  omega

/-- A negative descriptor is an index beyond every vector. -/
theorem index_of_neg (h : fd.toInt < 0) : 2 ^ 31 ≤ index fd := by
  have hle := fd.le_toInt
  rw [index]
  omega

theorem index_inj (h : index g = index fd) : g = fd := by
  have hg := g.toInt_lt
  have hg' := g.le_toInt
  have hfd := fd.toInt_lt
  have hfd' := fd.le_toInt
  rw [index, index] at h
  refine Int32.toInt_inj.mp ?_
  omega

private theorem held_set_self (h : index fd < m_datas.length) (slot : Option Ptr) :
    held (m_datas.set (index fd) slot) fd = slot := by
  rw [held, getElem?_set_self h]
  rfl

private theorem held_set_of_ne (h : g ≠ fd) (slot : Option Ptr) :
    held (m_datas.set (index fd) slot) g = held m_datas g := by
  rw [held, held, getElem?_set_ne fun heq => h (index_inj heq.symm)]

private theorem held_eq_none (h : m_datas.length ≤ index fd) : held m_datas fd = none := by
  rw [held, getElem?_eq_none h]
  rfl

private theorem length_resize (m_datas : List (Option Ptr)) (size : Nat) :
    (resize m_datas size).length = size := by
  rw [resize, length_append, length_take, length_replicate]
  omega

/-- A vector that grows keeps what it holds. -/
theorem held_resize {size : Nat} (h : m_datas.length ≤ size) :
    held (resize m_datas size) g = held m_datas g := by
  rw [held, held, resize, take_of_length_le h, getElem?_append]
  split
  · rfl
  · next hout =>
    rw [getElem?_eq_none (Nat.not_lt.mp hout), getElem?_replicate]
    split
    · rfl
    · rfl

/-- `get` under the read lock returns what is held, or goes on to create. -/
theorem lookup_spec (h : Sized m_datas) (hfd : fd = -1 ∨ 0 ≤ fd.toInt) (auto_create : Bool) :
    lookup m_datas fd auto_create = .returns (held m_datas fd)
      ∨ lookup m_datas fd auto_create = .creates ∧ 0 ≤ fd.toInt := by
  have hmost := h.most
  rw [lookup]
  by_cases hne : fd = -1
  · subst hne
    have hneg : 2 ^ 31 ≤ index (-1) := index_of_neg (by decide)
    left
    rw [if_pos rfl, held_eq_none (by omega)]
  · have hnonneg := hfd.resolve_left hne
    have hindex := index_of_nonneg hnonneg
    rw [if_neg hne]
    by_cases hout : intSize m_datas ≤ fd
    · rw [if_pos hout]
      rw [intSize_le h] at hout
      cases auto_create with
      | false =>
        left
        rw [if_pos rfl, held_eq_none (by omega)]
      | true => exact Or.inr ⟨if_neg (by decide), hnonneg⟩
    · rw [if_neg hout]
      rw [intSize_le h] at hout
      have hin : index fd < m_datas.length := by omega
      rw [held, getElem?_eq_getElem hin]
      dsimp only
      split
      · exact Or.inl rfl
      · exact Or.inr ⟨rfl, hnonneg⟩

/-- A negative descriptor takes `get` out of range. -/
theorem lookup_of_neg (h : Sized m_datas) (hfd : fd.toInt < 0) (hne : fd ≠ -1)
    (auto_create : Bool) : lookup m_datas fd auto_create = .outOfRange := by
  have hindex := index_of_neg hfd
  have hmost := h.most
  have hout : ¬ intSize m_datas ≤ fd := by
    rw [intSize_le h]
    omega
  rw [lookup, if_neg hne, if_neg hout, getElem?_eq_none (by omega)]

/-- A slot is stored in its place, and nothing else changes. -/
theorem assign_spec (h : Sized m_datas) (hin : index fd < m_datas.length) (slot : Option Ptr) :
    ∃ m_datas', assign m_datas fd slot = some m_datas' ∧ Sized m_datas'
      ∧ held m_datas' fd = slot ∧ ∀ g, g ≠ fd → held m_datas' g = held m_datas g :=
  ⟨_, if_pos hin, h.set _ _, held_set_self hin _, fun _ hg => held_set_of_ne hg _⟩

/-- `get` under the write lock puts the new context into its place. -/
theorem create_spec (h : Sized m_datas) (hfd : 0 ≤ fd.toInt)
    (hbound : fd.toInt * 3 / 2 < 2 ^ 31) (ctx : Ptr) :
    ∃ m_datas', create m_datas fd ctx = some m_datas' ∧ Sized m_datas'
      ∧ held m_datas' fd = some ctx ∧ ∀ g, g ≠ fd → held m_datas' g = held m_datas g := by
  have hindex := index_of_nonneg hfd
  have hleast := h.least
  have hmost := h.most
  rw [create]
  by_cases hout : intSize m_datas ≤ fd
  · rw [if_pos hout]
    rw [intSize_le h] at hout
    have hgrow : m_datas.length ≤ grownSize fd := by
      rw [grownSize]
      omega
    have hin : index fd < (resize m_datas (grownSize fd)).length := by
      rw [length_resize, grownSize]
      omega
    have hsized : Sized (resize m_datas (grownSize fd)) := by
      refine ⟨?_, ?_⟩
      · rw [length_resize]
        omega
      · rw [length_resize, grownSize]
        omega
    obtain ⟨m_datas', hassign, hsized', hself, hother⟩ := assign_spec hsized hin (some ctx)
    exact ⟨m_datas', hassign, hsized', hself, fun g hg =>
      (hother g hg).trans (held_resize hgrow)⟩
  · rw [if_neg hout]
    rw [intSize_le h] at hout
    exact assign_spec h (by omega) _

/-- `del` empties the place. -/
theorem del_spec (h : Sized m_datas) (hfd : 0 ≤ fd.toInt) :
    ∃ m_datas', del m_datas fd = some m_datas' ∧ Sized m_datas'
      ∧ held m_datas' fd = none ∧ ∀ g, g ≠ fd → held m_datas' g = held m_datas g := by
  have hindex := index_of_nonneg hfd
  rw [del]
  by_cases hout : intSize m_datas ≤ fd
  · rw [if_pos hout]
    rw [intSize_le h] at hout
    exact ⟨m_datas, rfl, h, held_eq_none (by omega), fun g _ => rfl⟩
  · rw [if_neg hout]
    rw [intSize_le h] at hout
    exact assign_spec h (by omega) _

theorem del_of_neg (h : Sized m_datas) (hfd : fd.toInt < 0) : del m_datas fd = none := by
  have hindex := index_of_neg hfd
  have hmost := h.most
  have hout : ¬ intSize m_datas ≤ fd := by
    rw [intSize_le h]
    omega
  rw [del, if_neg hout, assign, if_neg (by omega)]

end Vector

/-! ## Steps -/

/-- One and a half times the descriptor is an `int`. -/
def Bounded (fd : Int32) : Prop := fd.toInt * 3 / 2 < 2 ^ 31

instance (fd : Int32) : Decidable (Bounded fd) :=
  inferInstanceAs (Decidable (fd.toInt * 3 / 2 < 2 ^ 31))

/-- The calls are on bounded descriptors, and only a descriptor that is not negative
gets to the creation. -/
def Pc.Sane : Pc → Prop
  | .start call => Bounded call.fd
  | .create fd => 0 ≤ fd.toInt ∧ Bounded fd
  | .done => True

private theorem sane_done : Pc.done.Sane := trivial

/-- What has been returned is what the vector holds. -/
structure Good (s : State) : Prop where
  sized : Sized s.m_datas
  callers : ∀ pc ∈ s.callers, pc.Sane
  fresh : ∀ fd c, held s.m_datas fd = some c → c < s.fresh
  since : ∀ fd c, Since s.log fd c ↔ held s.m_datas fd = some c
  steady : Steady s.log

section Steps

variable {s t : State} {i : Nat} {fd : Int32}

theorem Good.moved (h : Good s) {pc : Pc} (hpc : pc.Sane) :
    Good { s with callers := s.callers.set i pc } :=
  ⟨h.sized, forall_moved h.callers hpc, h.fresh, h.since, h.steady⟩

/-- One more event, with the vector behind it. -/
theorem Good.logged {m_datas : List (Option Ptr)} {fresh : Nat} {e : Event} (h : Good s)
    (hsized : Sized m_datas) (hrange : ∀ g, e ≠ .outOfRange g)
    (hfresh : ∀ g c, held m_datas g = some c → c < fresh)
    (hheld : ∀ g c, e = .got g (some c) ∨ held s.m_datas g = some c ∧ e ≠ .deleted g
      ↔ held m_datas g = some c)
    (hsame : ∀ g r c, e = .got g r → held s.m_datas g = some c → r = some c) :
    Good (State.finish { s with m_datas, fresh } i e) := by
  refine ⟨hsized, forall_moved h.callers sane_done, hfresh, fun g c => ?_, ?_, fun g hmem => ?_⟩
  · show Since (s.log ++ [e]) g c ↔ held m_datas g = some c
    rw [since_snoc, h.since, hheld]
  · refine stable_snoc.mpr ⟨h.steady.stable, fun g r c heq hsince => ?_⟩
    exact hsame g r c heq ((h.since g c).mp hsince)
  · rcases mem_append.mp hmem with hmem | hmem
    · exact h.steady.inRange g hmem
    · exact hrange g (mem_singleton.mp hmem).symm

/-- A `get` that returns what is held. -/
theorem Good.got (h : Good s) : Good (s.finish i (.got fd (held s.m_datas fd))) := by
  refine h.logged h.sized (fun _ => Event.noConfusion) h.fresh (fun g c => ?_) ?_
  · constructor
    · rintro (heq | ⟨hheld, -⟩)
      · obtain ⟨rfl, hheld⟩ := Event.got.inj heq
        exact hheld
      · exact hheld
    · intro hheld
      exact Or.inr ⟨hheld, Event.noConfusion⟩
  · intro g r c heq hheld
    obtain ⟨rfl, rfl⟩ := Event.got.inj heq
    exact hheld

/-- A creation in an empty place. -/
theorem Good.created {m_datas : List (Option Ptr)} (h : Good s) (hsized : Sized m_datas)
    (hempty : held s.m_datas fd = none) (hself : held m_datas fd = some s.fresh)
    (hother : ∀ g, g ≠ fd → held m_datas g = held s.m_datas g) :
    Good (State.finish { s with m_datas, fresh := s.fresh + 1 } i (.got fd (some s.fresh))) := by
  refine h.logged hsized (fun _ => Event.noConfusion) (fun g c hheld => ?_) (fun g c => ?_) ?_
  · by_cases hg : g = fd
    · rw [hg, hself] at hheld
      cases hheld
      exact Nat.lt_succ_self _
    · rw [hother g hg] at hheld
      exact Nat.lt_succ_of_lt (h.fresh g c hheld)
  · by_cases hg : g = fd
    · rw [hg, hempty, hself]
      simp [eq_comm]
    · rw [hother g hg]
      simp [Ne.symm hg]
  · intro g r c heq hheld
    obtain ⟨rfl, -⟩ := Event.got.inj heq
    exact absurd (hheld.symm.trans hempty) (Option.some_ne_none c)

theorem Good.deleted {m_datas : List (Option Ptr)} (h : Good s) (hsized : Sized m_datas)
    (hself : held m_datas fd = none)
    (hother : ∀ g, g ≠ fd → held m_datas g = held s.m_datas g) :
    Good (State.finish { s with m_datas } i (.deleted fd)) := by
  refine h.logged hsized (fun _ => Event.noConfusion) (fun g c hheld => ?_) (fun g c => ?_)
    (fun _ _ _ heq => Event.noConfusion heq)
  · by_cases hg : g = fd
    · rw [hg, hself] at hheld
      exact absurd hheld.symm (Option.some_ne_none c)
    · rw [hother g hg] at hheld
      exact h.fresh g c hheld
  · by_cases hg : g = fd
    · rw [hg, hself]
      simp
    · rw [hother g hg]
      simp [Ne.symm hg]

/-- **One step** of a call that overwrites no context. -/
theorem step_good (h : Good s) (hfine : Fine s i) (hstep : step s i = some t) : Good t := by
  rw [step] at hstep
  cases hpc : s.callers[i]? with
  | none => rw [hpc] at hstep; exact nomatch hstep
  | some pc =>
    rw [hpc] at hstep
    replace hfine := hfine pc hpc
    have hsane := h.callers pc (mem_of_getElem? hpc)
    rcases pc with (⟨fd, auto_create⟩ | fd) | fd | -
    · dsimp only at hstep
      rcases lookup_spec h.sized hfine auto_create with hlook | ⟨hlook, hnonneg⟩
      · rw [hlook] at hstep
        cases hstep
        exact h.got
      · rw [hlook] at hstep
        cases hstep
        exact h.moved ⟨hnonneg, hsane⟩
    · dsimp only at hstep
      obtain ⟨m_datas, hdel, hsized, hself, hother⟩ := del_spec h.sized hfine
      rw [hdel] at hstep
      cases hstep
      exact h.deleted hsized hself hother
    · dsimp only at hstep
      obtain ⟨m_datas, hcreate, hsized, hself, hother⟩ :=
        create_spec h.sized hsane.1 hsane.2 s.fresh
      rw [hcreate] at hstep
      cases hstep
      exact h.created hsized hfine hself hother
    · exact nomatch hstep

/-- A step that is not fine shows at once: a call is out of range, or returns a second context.
-/
theorem fine_of_steady (h : Good s) (hstep : step s i = some t) (ht : Steady t.log) : Fine s i := by
  have hrange : ∀ g s', t ≠ State.finish s' i (.outOfRange g) := by
    rintro g s' rfl
    exact ht.inRange g (mem_append_right _ mem_cons_self)
  intro pc hpc
  rw [step, Option.mem_def.mp hpc] at hstep
  have hsane := h.callers pc (mem_of_getElem? hpc)
  rcases pc with (⟨fd, auto_create⟩ | fd) | fd | -
  · dsimp only at hstep
    by_contra hbad
    obtain ⟨hne, hneg⟩ := not_or.mp hbad
    rw [lookup_of_neg h.sized (Int.not_le.mp hneg) hne] at hstep
    exact hrange fd _ (Option.some.inj hstep).symm
  · dsimp only at hstep
    by_contra hneg
    rw [del_of_neg h.sized (Int.not_le.mp hneg)] at hstep
    exact hrange fd _ (Option.some.inj hstep).symm
  · dsimp only at hstep
    obtain ⟨m_datas, hcreate, -, -, -⟩ := create_spec h.sized hsane.1 hsane.2 s.fresh
    rw [hcreate] at hstep
    cases hstep
    rw [Pc.Fine, Option.eq_none_iff_forall_ne_some]
    intro c hheld
    have hsame := (stable_snoc.mp ht.stable).2 fd _ c rfl ((h.since fd c).mpr hheld)
    exact absurd (Option.some.inj hsame) (Nat.ne_of_gt (h.fresh fd c hheld))
  · trivial

theorem step_log (hstep : step s i = some t) : s.log <+: t.log := by
  rw [step] at hstep
  split at hstep
  · split at hstep
    · cases hstep
      exact prefix_append _ _
    · cases hstep
      exact prefix_rfl
    · cases hstep
      exact prefix_append _ _
  · split at hstep
    · cases hstep
      exact prefix_append _ _
    · cases hstep
      exact prefix_append _ _
  · split at hstep
    · cases hstep
      exact prefix_append _ _
    · cases hstep
      exact prefix_append _ _
  · exact nomatch hstep

end Steps

/-! ## Runs -/

theorem exec_log {s t : State} {schedule : List Nat} (ht : exec step s schedule = some t) :
    s.log <+: t.log :=
  (reaches_of_exec (C := fun _ _ => True) (along_of_forall fun _ _ _ => trivial) ht).inv
    (P := fun t => s.log <+: t.log) prefix_rfl
    fun ha _ hstep => ha.trans (step_log hstep)

theorem run_iff {schedule : List Nat} {s t : State} (hs : Good s)
    (ht : exec step s schedule = some t) : (Along step Fine s schedule ↔ Steady t.log) := by
  induction schedule generalizing s t with
  | nil =>
    cases ht
    exact iff_of_true trivial hs.steady
  | cons i schedule ih =>
    obtain ⟨u, hu, ht⟩ := Option.bind_eq_some_iff.mp ht
    constructor
    · rintro ⟨hfine, hrest⟩
      exact (ih (step_good hs hfine hu) ht).mp (hrest u hu)
    · intro hsteady
      have hfine := fine_of_steady hs hu (hsteady.of_prefix (exec_log ht))
      refine ⟨hfine, fun u' hu' => ?_⟩
      rw [hu] at hu'
      cases hu'
      exact (ih (step_good hs hfine hu) ht).mpr hsteady

theorem init_good {calls : List Call} (h : ∀ call ∈ calls, Bounded call.fd) :
    Good (init calls) := by
  have hempty : ∀ fd, held (init calls).m_datas fd = none := by
    intro fd
    rw [held, init]
    dsimp only
    rw [getElem?_replicate]
    split
    · rfl
    · rfl
  have hlength : (init calls).m_datas.length = 64 := length_replicate
  refine ⟨⟨Nat.le_of_eq hlength.symm, ?_⟩, ?_, fun fd c hheld => ?_, fun fd c => ?_, ?_, ?_⟩
  · rw [hlength]
    decide
  · intro pc hmem
    obtain ⟨call, hcall, rfl⟩ := mem_map.mp hmem
    exact h call hcall
  · rw [hempty] at hheld
    exact absurd hheld.symm (Option.some_ne_none c)
  · rw [hempty]
    refine iff_of_false ?_ (Option.some_ne_none c).symm
    rintro ⟨before, after, hlog, -⟩
    exact absurd hlog.symm (append_ne_nil_of_right_ne_nil _ (cons_ne_nil _ _))
  · intro before fd c between r after hlog
    exact absurd hlog.symm (append_ne_nil_of_right_ne_nil _ (cons_ne_nil _ _))
  · exact fun fd => not_mem_nil

/-- **Descriptor contexts are stable exactly when no creation overwrites one**: for every
list of calls on descriptors below `2^32 / 3` and every interleaving, all descriptors are
valid and every creation finds its place empty, if and only if the calls agree on the
context of each descriptor until it is deleted and none goes out of range. -/
theorem contexts_stable_iff {calls : List Call} {schedule : List Nat} {s : State}
    (hfd : ∀ call ∈ calls, Bounded call.fd)
    (hrun : exec step (init calls) schedule = some s) :
    Along step Fine (init calls) schedule ↔ Stable s.log ∧ ∀ fd, .outOfRange fd ∉ s.log :=
  (run_iff (init_good hfd) hrun).trans ⟨fun h => ⟨h.stable, h.inRange⟩, fun h => ⟨h.1, h.2⟩⟩

/-- A context is created beyond the vector, found, deleted and created again. -/
theorem contexts_stable_iff_again :
    ∃ s, exec step (init [.get 70 true, .get 70 false, .del 70, .get 70 true])
        [0, 0, 1, 2, 3, 3] = some s
      ∧ s.log = [.got 70 (some 0), .got 70 (some 0), .deleted 70, .got 70 (some 1)]
      ∧ s.m_datas.length = 105 ∧ Stable s.log := by
  have hrun : exec step (init [.get 70 true, .get 70 false, .del 70, .get 70 true])
      [0, 0, 1, 2, 3, 3] = some _ := rfl
  have hfine : Along step Fine (init [.get 70 true, .get 70 false, .del 70, .get 70 true])
      [0, 0, 1, 2, 3, 3] := by decide +kernel
  have hstable := ((contexts_stable_iff (by decide) hrun).mp hfine).1
  exact ⟨_, hrun, by decide +kernel, by decide +kernel, hstable⟩

/-- Both calls find nothing on a new descriptor, and the second overwrites the context the first has
returned. -/
theorem two_creators : ∃ s, exec step (init [.get 5 true, .get 5 true]) [0, 1, 0, 1] = some s
      ∧ s.log = [.got 5 (some 0), .got 5 (some 1)] ∧ ¬ Stable s.log := by
  refine ⟨_, rfl, by decide +kernel, fun h => ?_⟩
  have hsame := h [] 5 0 [] (some 1) [] rfl not_mem_nil
  exact absurd hsame (by decide)

end SylarFdManagerRace
