import Sylar.StepSystemProofs
import Mathlib.Data.List.Infix

/-! # The table of descriptor contexts under concurrent growth (`iomanager.cc`)

`addEvent(fd, ..)` looks at the size of `m_fdContexts` under the read lock
and, if `fd` is outside, calls `contextResize(fd * 1.5)` under the write
lock taken AFTER the read lock was given up.  The three sections are steps
of their own here: the check, the resize, and the part on the context that
was found.

* **`stable_iff`** — the object at an index stays the one found there EXACTLY when every
  resize asks for at least the size the table has by then.  The source does not see to that. -/

namespace SylarFdContextTable

open StepSystem List

/-- Where a call of `addEvent(fd, ..)` stands. -/
inductive Pc where
  | check (fd : Nat)
  | resize (fd : Nat)
  | perFd (fd : Nat) (fd_ctx : Nat)
  | done (fd : Nat) (fd_ctx : Nat)
  deriving DecidableEq, Repr

/-- The table as the addresses of its `FdContext`s, the next fresh address,
and the callers. -/
structure State where
  m_fdContexts : List Nat
  fresh : Nat
  callers : List Pc
  deriving DecidableEq, Repr

/-- `contextResize(size)`: cut or extend the vector, and put a new object into
every empty entry. -/
def contextResize (s : State) (size : Nat) : State :=
  let missing := size - s.m_fdContexts.length
  { s with
    m_fdContexts := s.m_fdContexts.take size
      ++ (List.range missing).map (s.fresh + ·)
    fresh := s.fresh + missing }

/-- `fd * 1.5` as a `size_t`. -/
def grownSize (fd : Nat) : Nat := fd * 3 / 2

/-- The constructor's table, with calls of `addEvent` about to start. -/
def init (fds : List Nat) : State where
  m_fdContexts := List.range 32
  fresh := 32
  callers := fds.map .check

/-- One section of the `i`-th caller.  `(int)m_fdContexts.size()` is the size as long as `fd * 3 / 2
< 2 ^ 31` for every `fd`. -/
def step (s : State) (i : Nat) : Option State :=
  match s.callers[i]? with
  | some (.check fd) =>
    -- if((int)m_fdContexts.size() > fd), under the read lock
    match s.m_fdContexts[fd]? with
    | some fd_ctx => some { s with callers := s.callers.set i (.perFd fd fd_ctx) }
    | none => some { s with callers := s.callers.set i (.resize fd) }
  | some (.resize fd) =>
    let s := contextResize s (grownSize fd)
    match s.m_fdContexts[fd]? with
    | some fd_ctx => some { s with callers := s.callers.set i (.perFd fd fd_ctx) }
    | none => none
  | some (.perFd fd fd_ctx) =>
    some { s with callers := s.callers.set i (.done fd fd_ctx) }
  | _ => none

/-- The size asked for is not below the size the table has by now. -/
def Grows (s : State) (i : Nat) : Prop :=
  ∀ fd, s.callers[i]? = some (.resize fd) →
    s.m_fdContexts.length ≤ grownSize fd

/-! ## What one step can do -/

variable {s t : State} {i : Nat}

/-- The steps, with their guards. -/
theorem step_cases (h : step s i = some t) : (∃ fd fd_ctx, s.callers[i]? = some (.check fd)
        ∧ s.m_fdContexts[fd]? = some fd_ctx
        ∧ t = { s with callers := s.callers.set i (.perFd fd fd_ctx) })
      ∨ (∃ fd, s.callers[i]? = some (.check fd) ∧ s.m_fdContexts.length ≤ fd
        ∧ t = { s with callers := s.callers.set i (.resize fd) })
      ∨ (∃ fd fd_ctx, s.callers[i]? = some (.resize fd)
        ∧ (contextResize s (grownSize fd)).m_fdContexts[fd]? = some fd_ctx
        ∧ t = { contextResize s (grownSize fd) with
            callers := s.callers.set i (.perFd fd fd_ctx) })
      ∨ (∃ fd fd_ctx, s.callers[i]? = some (.perFd fd fd_ctx)
        ∧ t = { s with callers := s.callers.set i (.done fd fd_ctx) }) := by
  rw [step] at h
  cases hpc : s.callers[i]? with
  | none => rw [hpc] at h; exact nomatch h
  | some pc =>
    rw [hpc] at h
    cases pc with
    | check fd =>
      dsimp only at h
      cases hfd : s.m_fdContexts[fd]? with
      | some fd_ctx =>
        rw [hfd] at h
        exact Or.inl ⟨fd, fd_ctx, rfl, hfd, (Option.some.inj h).symm⟩
      | none =>
        rw [hfd] at h
        exact Or.inr (Or.inl ⟨fd, rfl, getElem?_eq_none_iff.mp hfd, (Option.some.inj h).symm⟩)
    | resize fd =>
      dsimp only at h
      cases hfd : (contextResize s (grownSize fd)).m_fdContexts[fd]? with
      | some fd_ctx =>
        rw [hfd] at h
        exact Or.inr (Or.inr (Or.inl ⟨fd, fd_ctx, rfl, hfd, (Option.some.inj h).symm⟩))
      | none => rw [hfd] at h; exact nomatch h
    | perFd fd fd_ctx =>
      exact Or.inr (Or.inr (Or.inr ⟨fd, fd_ctx, rfl, (Option.some.inj h).symm⟩))
    | done fd fd_ctx => exact nomatch h

private theorem length_contextResize (s : State) (size : Nat) :
    (contextResize s size).m_fdContexts.length = size := by
  simp only [contextResize, length_append, length_take, length_map, length_range]
  omega

/-- A resize that asks for enough only appends. -/
theorem contextResize_of_le {size : Nat} (h : s.m_fdContexts.length ≤ size) :
    s.m_fdContexts <+: (contextResize s size).m_fdContexts := by
  refine ⟨(range (size - s.m_fdContexts.length)).map (s.fresh + ·), ?_⟩
  simp only [contextResize, take_of_length_le h]

/-! ## Runs -/

/-- The call has found this context. -/
def Found (s : State) (fd fd_ctx : Nat) : Prop :=
  .perFd fd fd_ctx ∈ s.callers ∨ .done fd fd_ctx ∈ s.callers

/-- The table is not shorter in a later state, and a context that was found is still at its index.
-/
def Keeps (s t : State) : Prop :=
  s.m_fdContexts.length ≤ t.m_fdContexts.length
    ∧ ∀ fd fd_ctx, Found s fd fd_ctx → t.m_fdContexts[fd]? = some fd_ctx

/-- Every context found so far is at its index. -/
def AtIndex (s : State) : Prop :=
  ∀ fd fd_ctx, Found s fd fd_ctx → s.m_fdContexts[fd]? = some fd_ctx

theorem found_set {pc : Pc} {table : List Nat} {fresh fd fd_ctx : Nat}
    (h : Found ⟨table, fresh, s.callers.set i pc⟩ fd fd_ctx) :
    pc = .perFd fd fd_ctx ∨ pc = .done fd fd_ctx ∨ Found s fd fd_ctx := by
  rcases h with h | h
  · rcases mem_or_eq_of_mem_set h with h | h
    · exact Or.inr (Or.inr (Or.inl h))
    · exact Or.inl h.symm
  · rcases mem_or_eq_of_mem_set h with h | h
    · exact Or.inr (Or.inr (Or.inr h))
    · exact Or.inr (Or.inl h.symm)

theorem getElem?_of_prefix {a b : List Nat} (h : a <+: b) {x : Nat} (ha : a[i]? = some x) :
    b[i]? = some x := by
  obtain ⟨c, rfl⟩ := h
  obtain ⟨hi, -⟩ := List.getElem?_eq_some_iff.mp ha
  rw [getElem?_append_left hi, ha]

/-- One step that meets the condition at most appends to the table; what was found stays at its
index. -/
theorem step_keeps (hs : AtIndex s) (hg : Grows s i) (h : step s i = some t) :
    s.m_fdContexts <+: t.m_fdContexts ∧ AtIndex t := by
  rcases step_cases h with ⟨fd, ctx, hpc, hfd, rfl⟩ | ⟨fd, hpc, hlen, rfl⟩
    | ⟨fd, ctx, hpc, hfd, rfl⟩ | ⟨fd, ctx, hpc, rfl⟩
  · refine ⟨prefix_rfl, fun fd' ctx' hfound => ?_⟩
    rcases found_set hfound with h | h | h
    · obtain ⟨rfl, rfl⟩ := Pc.perFd.inj h
      exact hfd
    · exact nomatch h
    · exact hs fd' ctx' h
  · refine ⟨prefix_rfl, fun fd' ctx' hfound => ?_⟩
    rcases found_set hfound with h | h | h
    · exact nomatch h
    · exact nomatch h
    · exact hs fd' ctx' h
  · have happend := contextResize_of_le (hg fd hpc)
    refine ⟨happend, fun fd' ctx' hfound => ?_⟩
    rcases found_set hfound with h | h | h
    · obtain ⟨rfl, rfl⟩ := Pc.perFd.inj h
      exact hfd
    · exact nomatch h
    · exact getElem?_of_prefix happend (hs fd' ctx' h)
  · refine ⟨prefix_rfl, fun fd' ctx' hfound => ?_⟩
    rcases found_set hfound with h | h | h
    · exact nomatch h
    · obtain ⟨rfl, rfl⟩ := Pc.done.inj h
      exact hs _ _ (Or.inl (mem_of_getElem? hpc))
    · exact hs fd' ctx' h

/-- The table has at least the constructor's 32 entries, and a call about to resize a descriptor
beyond them. -/
structure Sane (s : State) : Prop where
  size : 32 ≤ s.m_fdContexts.length
  fd : ∀ fd, .resize fd ∈ s.callers → 32 ≤ fd

theorem step_sane (hs : Sane s) (h : step s i = some t) : Sane t := by
  have hold {pc : Pc} {fd : Nat} (hmem : .resize fd ∈ s.callers.set i pc)
      (hpc : pc ≠ .resize fd) : 32 ≤ fd :=
    (mem_or_eq_of_mem_set hmem).elim (hs.fd fd) fun h => absurd h.symm hpc
  rcases step_cases h with ⟨fd, ctx, hpc, hfd, rfl⟩ | ⟨fd, hpc, hlen, rfl⟩
    | ⟨fd, ctx, hpc, hfd, rfl⟩ | ⟨fd, ctx, hpc, rfl⟩
  · exact ⟨hs.size, fun fd' hmem => hold hmem (by simp)⟩
  · refine ⟨hs.size, fun fd' hmem => ?_⟩
    rcases mem_or_eq_of_mem_set hmem with hmem | heq
    · exact hs.fd fd' hmem
    · obtain rfl := Pc.resize.inj heq
      exact Nat.le_trans hs.size hlen
  · have hfd32 := hs.fd fd (mem_of_getElem? hpc)
    refine ⟨?_, fun fd' hmem => hold hmem (by simp)⟩
    show 32 ≤ (contextResize s (grownSize fd)).m_fdContexts.length
    rw [length_contextResize, grownSize]
    omega
  · exact ⟨hs.size, fun fd' hmem => hold hmem (by simp)⟩

/-- A resize is always possible, and the table then has the size asked for. -/
theorem resize_possible {fd : Nat} (hs : Sane s) (hpc : s.callers[i]? = some (.resize fd)) :
    ∃ t, step s i = some t ∧ t.m_fdContexts.length = grownSize fd := by
  have hfd := hs.fd fd (mem_of_getElem? hpc)
  have hin : fd < (contextResize s (grownSize fd)).m_fdContexts.length := by
    rw [length_contextResize, grownSize]
    omega
  obtain ⟨ctx, hctx⟩ : ∃ ctx, (contextResize s (grownSize fd)).m_fdContexts[fd]? = some ctx :=
    ⟨_, getElem?_eq_getElem hin⟩
  refine ⟨{ contextResize s (grownSize fd) with
      callers := s.callers.set i (.perFd fd ctx) }, ?_, length_contextResize s _⟩
  simp only [step, hpc, hctx]
  rfl

private theorem init_sane (fds : List Nat) : Sane (init fds) := by
  refine ⟨Nat.le_of_eq length_range.symm, fun fd hmem => ?_⟩
  obtain ⟨x, -, hx⟩ := mem_map.mp hmem
  cases hx

theorem init_atIndex (fds : List Nat) : AtIndex (init fds) := by
  rintro fd ctx (hmem | hmem)
  · obtain ⟨x, -, hx⟩ := mem_map.mp hmem
    cases hx
  · obtain ⟨x, -, hx⟩ := mem_map.mp hmem
    cases hx

/-- A schedule in which no resize comes too late only extends the table. -/
theorem exec_keeps {schedule : List Nat} (hs : AtIndex s) (halong : Along step Grows s schedule)
    (ht : exec step s schedule = some t) : s.m_fdContexts <+: t.m_fdContexts ∧ AtIndex t := by
  refine (reaches_of_exec halong ht).inv
    (P := fun t => s.m_fdContexts <+: t.m_fdContexts ∧ AtIndex t)
    ⟨prefix_rfl, hs⟩ ?_
  rintro a b i ⟨hp, ha⟩ hc hstep
  obtain ⟨hab, hb⟩ := step_keeps ha hc hstep
  exact ⟨hp.trans hab, hb⟩

private theorem exec_sane {schedule : List Nat} (hs : Sane s) (ht : exec step s schedule = some t) :
    Sane t :=
  (reaches_of_exec (C := fun _ _ => True) (along_of_forall fun _ _ _ => trivial) ht).inv
    hs fun ha _ hstep => step_sane ha hstep

/-- **The descriptor table is stable exactly when no resize comes too late**: for every set
of concurrent `addEvent` calls and every schedule, all resizes ask for at least the
current size if and only if the table never gets shorter and every context that was
found stays at its index. -/
theorem stable_iff (fds : List Nat) (schedule : List Nat) : Along step Grows (init fds) schedule
      ↔ ∀ before between, before ++ between <+: schedule →
          ∀ s t, exec step (init fds) before = some s →
            exec step s between = some t → Keeps s t := by
  constructor
  · rintro halong before between ⟨rest, rfl⟩ s t hs ht
    obtain ⟨hfirst, -⟩ := along_append halong
    obtain ⟨hbefore, hbetween⟩ := along_append hfirst
    obtain ⟨-, hindex⟩ := exec_keeps (init_atIndex fds) hbefore hs
    obtain ⟨hgrown, -⟩ := exec_keeps hindex (hbetween hs) ht
    exact ⟨hgrown.length_le, fun fd ctx hfound =>
      getElem?_of_prefix hgrown (hindex fd ctx hfound)⟩
  · -- a resize below the current size makes the table shorter at once
    intro hkeeps
    refine along_iff.mpr fun before i hpre s hs fd hpc => ?_
    obtain ⟨t, ht, hlen⟩ := resize_possible (exec_sane (init_sane fds) hs) hpc
    have hone : exec step s [i] = some t := by
      rw [exec, ht]
      rfl
    rw [← hlen]
    exact (hkeeps before [i] hpre s t hs hone).1

/-- `addEvent(100)` grows the table to 150 contexts and finds its own, then the resize of
`addEvent(40)`, decided on earlier, cuts it to 60. -/
theorem late_resize_shrinks : ∃ s t, exec step (init [40, 100]) [0, 1, 1, 1] = some s
      ∧ exec step s [0] = some t
      ∧ s.m_fdContexts.length = 150 ∧ t.m_fdContexts.length = 60
      ∧ Found s 100 100 ∧ s.m_fdContexts[100]? = some 100
      ∧ t.m_fdContexts[100]? = none ∧ ¬ Keeps s t := by
  refine ⟨_, _, rfl, rfl, ?_, ?_, ?_, ?_, ?_, ?_⟩
  · decide +kernel
  · decide +kernel
  · exact Or.inr (by decide +kernel)
  · decide +kernel
  · decide +kernel
  · rintro ⟨hlen, -⟩
    exact absurd hlen (by decide +kernel)

end SylarFdContextTable
