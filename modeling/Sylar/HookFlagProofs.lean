import Sylar.FdManagerProofs
import Sylar.StepSystemProofs

/-! # Non-blocking mode behind the user's back (`hook.cc`)

Every socket made by a hooked call is put into non-blocking mode.  The hooked
`fcntl` hides this: it keeps what the user asks for in the context, and
reports that.  The hooked `ioctl` keeps it too, but hands the user's own
request on to the kernel.

* **`reports_last_request`** — in every run, `F_GETFL` reports what the last
  request on the socket asked for.
* **`nonblock_iff`** — the sockets stay non-blocking EXACTLY when no `ioctl` asks for
  blocking mode. -/

namespace SylarHookFlag

open StepSystem SylarFdManager

/-- The descriptors of the process and their contexts. -/
structure State where
  kernel : Kernel
  m_datas : FdManager

/-- The calls on hook-enabled threads.  The kernel answers `socket` and `accept` with a number and
its flags, or not at all. -/
inductive Call where
  | socket (answer : Option (Nat × BitVec 32))
  | accept (s : Nat) (answer : Option (Nat × BitVec 32))
  | setfl (fd : Nat) (arg : BitVec 32)
  | getfl (fd : Nat)
  | ioctl (fd : Nat) (arg : Int32)
  deriving DecidableEq, Repr

/-- A process without managed descriptors; other files may be open. -/
def init (files : Kernel) : State := ⟨files, FdManager.new⟩

/-! ## The hooked calls -/

/-- A new socket of the kernel, whose number is not in use, and
`FdMgr::Getinstance()->get(fd, true)`. -/
def opened (s : State) : Option (Nat × BitVec 32) → Option State
  | none => some s
  | some (fd, flags) =>
    if (s.kernel fd).isSome then none
    else
      let (_, m_datas, kernel) :=
        s.m_datas.getOrCreate fd (Function.update s.kernel fd (some ⟨true, flags⟩))
      some ⟨kernel, m_datas⟩

/-- `fcntl(fd, F_SETFL, arg)`. -/
def fcntl_setfl (s : State) (fd : Nat) (arg : BitVec 32) : State :=
  match (s.m_datas.get fd).filter FdCtx.managed with
  | none => { s with kernel := s.kernel.setFlags fd (setfl arg) }
  | some ctx =>
    { kernel := s.kernel.setFlags fd (setfl
        (if ctx.m_sysNonblock then arg ||| O_NONBLOCK else arg &&& ~~~O_NONBLOCK))
      m_datas := s.m_datas.modify fd fun ctx =>
        { ctx with m_userNonblock := nonblock arg } }

/-- `fcntl(fd, F_GETFL)`; `none` is the kernel's error. -/
def fcntl_getfl (s : State) (fd : Nat) : Option (BitVec 32) :=
  (s.kernel fd).map fun file =>
    match (s.m_datas.get fd).filter FdCtx.managed with
    | none => file.flags
    | some ctx =>
        if ctx.m_userNonblock then file.flags ||| O_NONBLOCK
        else file.flags &&& ~~~O_NONBLOCK

/-- `ioctl(fd, FIONBIO, &arg)`: the kernel gets the request as it is. -/
def ioctl_fionbio (s : State) (fd : Nat) (arg : Int32) : State :=
  { kernel := s.kernel.setFlags fd (fionbio (arg != 0))
    m_datas :=
      match (s.m_datas.get fd).filter FdCtx.managed with
      | none => s.m_datas
      | some _ => s.m_datas.modify fd fun ctx =>
          { ctx with m_userNonblock := arg != 0 } }

/-- One call. -/
def step (s : State) : Call → Option State
  | .socket answer => opened s answer
  | .accept _ answer => opened s answer
  | .setfl fd arg => some (fcntl_setfl s fd arg)
  | .getfl _ => some s
  | .ioctl fd arg => some (ioctl_fionbio s fd arg)

/-! ## What the user has asked for -/

/-- The mode of `fd` the user wants after a call. -/
def request (fd : Nat) (last : Bool) : Call → Bool
  | .socket (some (g, _)) | .accept _ (some (g, _)) => if g = fd then false else last
  | .setfl g arg => if g = fd then nonblock arg else last
  | .ioctl g arg => if g = fd then arg != 0 else last
  | _ => last

/-- The mode the last request on `fd` asked for; blocking without any. -/
def asked (fd : Nat) (history : List Call) : Bool := history.foldl (request fd) false

/-- The user sees the sockets as asked for, and the kernel has them non-blocking. -/
structure Virtualised (history : List Call) (s : State) : Prop where
  kernel : ∀ fd ctx, s.m_datas.get fd = some ctx → ctx.m_isSocket = true →
    ∃ file, s.kernel fd = some file ∧ nonblock file.flags = true
  report : ∀ fd ctx, s.m_datas.get fd = some ctx → ctx.m_isSocket = true →
    ∃ flags, fcntl_getfl s fd = some flags ∧ nonblock flags = asked fd history
  user : ∀ fd ctx, s.m_datas.get fd = some ctx → ctx.m_isSocket = true →
    ctx.m_userNonblock = asked fd history

/-- The call does not ask `ioctl` for blocking mode on a managed descriptor. -/
def KeepsNonblock (s : State) (c : Call) : Prop :=
  ∀ fd, c = .ioctl fd 0 → s.m_datas.get fd = none

/-! ## What a call does -/

/-- Every context belongs to an open socket, and keeps what the user asked for. -/
structure Holds (history : List Call) (s : State) (fd : Nat) (ctx : FdCtx) : Prop where
  m_isSocket : ctx.m_isSocket = true
  m_sysNonblock : ctx.m_sysNonblock = true
  m_isClosed : ctx.m_isClosed = false
  m_userNonblock : ctx.m_userNonblock = asked fd history
  file : ∃ flags, s.kernel fd = some ⟨true, flags⟩

/-- The invariant over a history. -/
structure Managed (history : List Call) (s : State) : Prop where
  size : 2 ≤ s.m_datas.length
  holds : ∀ fd ctx, s.m_datas.get fd = some ctx → Holds history s fd ctx

/-- The kernel has every managed descriptor in non-blocking mode. -/
def KernelSet (s : State) : Prop :=
  ∀ fd ctx, s.m_datas.get fd = some ctx → ∀ flags,
    s.kernel fd = some ⟨true, flags⟩ → nonblock flags = true

private theorem asked_snoc (fd : Nat) (history : List Call) (c : Call) :
    asked fd (history ++ [c]) = request fd (asked fd history) c := by
  rw [asked, List.foldl_append]
  rfl

variable {history : List Call} {s t : State} {fd : Nat} {ctx : FdCtx} {c : Call}

theorem Holds.managed (h : Holds history s fd ctx) : ctx.managed = true := by
  rw [FdCtx.managed, h.m_isClosed, h.m_isSocket]
  rfl

/-- Every context passes the test of the hooked calls. -/
theorem Managed.filter (hs : Managed history s) (fd : Nat) :
    (s.m_datas.get fd).filter FdCtx.managed = s.m_datas.get fd := by
  cases hctx : s.m_datas.get fd with
  | none => rfl
  | some ctx => rw [Option.filter_some, if_pos (hs.holds fd ctx hctx).managed]

/-- A new socket gets a context of its own and is non-blocking. -/
theorem opened_spec {flags : BitVec 32} (hs : Managed history s)
    (h : opened s (some (fd, flags)) = some t) :
    s.m_datas.length ≤ t.m_datas.length
      ∧ (∀ g, g ≠ fd → t.m_datas.get g = s.m_datas.get g ∧ t.kernel g = s.kernel g)
      ∧ ∃ ctx flags', t.m_datas.get fd = some ctx ∧ t.kernel fd = some ⟨true, flags'⟩
        ∧ nonblock flags' = true ∧ ctx.m_isSocket = true ∧ ctx.m_sysNonblock = true
        ∧ ctx.m_userNonblock = false ∧ ctx.m_isClosed = false := by
  rw [opened] at h
  split at h
  · cases h
  · next hnew =>
    have hnone : s.m_datas.get fd = none := by
      rw [Option.eq_none_iff_forall_not_mem]
      intro ctx hctx
      obtain ⟨flags, hfile⟩ := (hs.holds fd ctx hctx).file
      rw [hfile] at hnew
      exact hnew rfl
    obtain ⟨m', hget, hfd, hother, hlen⟩ := getOrCreate_of_none hs.size hnone
      (Function.update s.kernel fd (some ⟨true, flags⟩))
    obtain ⟨flags', hk, hnb, hsock, hsys, huser, hclosed⟩ :=
      new_of_socket (k := Function.update s.kernel fd (some ⟨true, flags⟩))
        (Function.update_self ..)
    rw [hget, hk, Function.update_idem] at h
    cases h
    refine ⟨hlen, fun g hg => ⟨hother g hg, Function.update_of_ne hg ..⟩,
      _, flags', hfd, Function.update_self .., hnb, hsock, hsys, huser, hclosed⟩

/-- The context of `fd`, if there is one, keeps `v`; the flags of the file change. -/
structure Asks (s t : State) (fd : Nat) (v : Bool) (f : BitVec 32 → BitVec 32) :
    Prop where
  kernel : t.kernel = s.kernel.setFlags fd f
  length : t.m_datas.length = s.m_datas.length
  none : s.m_datas.get fd = none → t.m_datas.get fd = none
  some : ∀ ctx, s.m_datas.get fd = some ctx →
    t.m_datas.get fd = some { ctx with m_userNonblock := v }
  other : ∀ g, g ≠ fd → t.m_datas.get g = s.m_datas.get g

/-- The user flag of `fd` is written. -/
theorem asks_modify (s : State) (fd : Nat) (v : Bool) (f : BitVec 32 → BitVec 32) :
    Asks s ⟨s.kernel.setFlags fd f,
      s.m_datas.modify fd fun ctx => { ctx with m_userNonblock := v }⟩ fd v f where
  kernel := rfl
  length := List.length_modify ..
  none h := by
    rw [get_eq_join] at h ⊢
    rw [FdManager.modify, List.getElem?_modify_eq]
    cases hx : s.m_datas[fd]? with
    | none => rfl
    | some x =>
      rw [hx] at h
      cases x with
      | none => rfl
      | some ctx => cases h
  some ctx h := get_modify_self h _
  other g hg := get_modify_of_ne _ _ hg

/-- There is no context to write to. -/
theorem asks_unmanaged (h : s.m_datas.get fd = none) (v : Bool) (f : BitVec 32 → BitVec 32) :
    Asks s { s with kernel := s.kernel.setFlags fd f } fd v f where
  kernel := rfl
  length := rfl
  none h := h
  some ctx hctx := by rw [h] at hctx; cases hctx
  other _ _ := rfl

/-- `F_SETFL`: the user's mode is kept, and the kernel stays non-blocking. -/
theorem setfl_asks (hs : Managed history s) (fd : Nat) (arg : BitVec 32) :
    ∃ f, Asks s (fcntl_setfl s fd arg) fd (nonblock arg) f
      ∧ (s.m_datas.get fd ≠ none → ∀ flags, nonblock (f flags) = true) := by
  rw [fcntl_setfl, hs.filter]
  cases hctx : s.m_datas.get fd with
  | none => exact ⟨_, asks_unmanaged hctx _ _, fun h => absurd rfl h⟩
  | some ctx =>
    refine ⟨_, asks_modify .., fun _ flags => ?_⟩
    rw [(hs.holds fd ctx hctx).m_sysNonblock, if_pos rfl, nonblock_setfl, nonblock_or]

/-- `FIONBIO`: the user's mode is kept, and the kernel gets it too. -/
theorem ioctl_asks (hs : Managed history s) (fd : Nat) (arg : Int32) :
    Asks s (ioctl_fionbio s fd arg) fd (arg != 0) (fionbio (arg != 0)) := by
  rw [ioctl_fionbio, hs.filter]
  cases hctx : s.m_datas.get fd with
  | none => exact asks_unmanaged hctx _ _
  | some ctx => exact asks_modify ..

/-! ## The contexts in a run -/

theorem Holds.frame (h : Holds history s fd ctx) (hkernel : t.kernel fd = s.kernel fd)
    (hreq : ∀ last, request fd last c = last) : Holds (history ++ [c]) t fd ctx :=
  { h with
    m_userNonblock := by rw [asked_snoc, hreq]; exact h.m_userNonblock
    file := by rw [hkernel]; exact h.file }

/-- A request on `fd` keeps the invariant. -/
theorem Asks.managed {v : Bool} {f : BitVec 32 → BitVec 32} (h : Asks s t fd v f)
    (hs : Managed history s) (hreq : ∀ g last, request g last c = if fd = g then v else last) :
    Managed (history ++ [c]) t := by
  refine ⟨h.length ▸ hs.size, fun g ctx hctx => ?_⟩
  by_cases hg : g = fd
  · subst hg
    cases hold : s.m_datas.get g with
    | none => rw [h.none hold] at hctx; cases hctx
    | some ctx₀ =>
      rw [h.some ctx₀ hold] at hctx
      cases hctx
      have hh := hs.holds g ctx₀ hold
      obtain ⟨flags, hfile⟩ := hh.file
      refine ⟨hh.m_isSocket, hh.m_sysNonblock, hh.m_isClosed, ?_, f flags, ?_⟩
      · rw [asked_snoc, hreq, if_pos rfl]
      · rw [h.kernel, setFlags_self hfile]
  · rw [h.other g hg] at hctx
    refine (hs.holds g ctx hctx).frame ?_ fun last => ?_
    · rw [h.kernel, setFlags_of_ne _ _ hg]
    · rw [hreq, if_neg (Ne.symm hg)]

/-- A new socket keeps the invariant. -/
theorem opened_managed {answer : Option (Nat × BitVec 32)} (hs : Managed history s)
    (h : opened s answer = some t) (hreq : ∀ g last, request g last c = match answer with
        | none => last
        | some (fd, _) => if fd = g then false else last) : Managed (history ++ [c]) t := by
  cases answer with
  | none =>
    cases h
    exact ⟨hs.size, fun g ctx hctx => (hs.holds g ctx hctx).frame rfl (hreq g)⟩
  | some x =>
    obtain ⟨fd, flags⟩ := x
    obtain ⟨hlen, hother, ctx', flags', hctx', hfile, -, hsock, hsys, huser, hclosed⟩ :=
      opened_spec hs h
    refine ⟨Nat.le_trans hs.size hlen, fun g ctx hctx => ?_⟩
    by_cases hg : g = fd
    · subst hg
      rw [hctx'] at hctx
      cases hctx
      refine ⟨hsock, hsys, hclosed, ?_, flags', hfile⟩
      rw [asked_snoc, hreq, huser]
      exact (if_pos rfl).symm
    · obtain ⟨hget, hkernel⟩ := hother g hg
      rw [hget] at hctx
      refine (hs.holds g ctx hctx).frame hkernel fun last => ?_
      rw [hreq]
      exact if_neg (Ne.symm hg)

/-- One call keeps the invariant. -/
theorem step_managed (hs : Managed history s) (h : step s c = some t) :
    Managed (history ++ [c]) t := by
  cases c with
  | socket answer =>
    refine opened_managed hs h fun g last => ?_
    cases answer <;> rfl
  | accept l answer =>
    refine opened_managed hs h fun g last => ?_
    cases answer <;> rfl
  | setfl fd arg =>
    cases h
    obtain ⟨f, hf, -⟩ := setfl_asks hs fd arg
    exact hf.managed hs fun g last => rfl
  | getfl fd =>
    cases h
    exact ⟨hs.size, fun g ctx hctx => (hs.holds g ctx hctx).frame rfl fun _ => rfl⟩
  | ioctl fd arg =>
    cases h
    exact (ioctl_asks hs fd arg).managed hs fun g last => rfl

/-- One call that meets the condition leaves the sockets non-blocking. -/
theorem step_kernelSet (hs : Managed history s) (hk : KernelSet s) (hc : KeepsNonblock s c)
    (h : step s c = some t) : KernelSet t := by
  have hopened {answer : Option (Nat × BitVec 32)} (h : opened s answer = some t) :
      KernelSet t := by
    cases answer with
    | none =>
      cases h
      exact hk
    | some x =>
      obtain ⟨fd, flags⟩ := x
      obtain ⟨-, hother, ctx', flags', -, hfile, hnb, -⟩ := opened_spec hs h
      intro g ctx hctx flags hflags
      by_cases hg : g = fd
      · subst hg
        rw [hfile] at hflags
        cases hflags
        exact hnb
      · rw [(hother g hg).1] at hctx
        rw [(hother g hg).2] at hflags
        exact hk g ctx hctx flags hflags
  -- a request that leaves its own descriptor non-blocking
  have hasks {fd : Nat} {v : Bool} {f : BitVec 32 → BitVec 32} (h : Asks s t fd v f)
      (hf : s.m_datas.get fd ≠ none → ∀ flags, nonblock (f flags) = true) :
      KernelSet t := by
    intro g ctx hctx flags hflags
    by_cases hg : g = fd
    · subst hg
      have hsome : s.m_datas.get g ≠ none := fun hnone => by
        rw [h.none hnone] at hctx
        cases hctx
      obtain ⟨ctx₀, hctx₀⟩ := Option.ne_none_iff_exists'.mp hsome
      obtain ⟨flags₀, hfile⟩ := (hs.holds g ctx₀ hctx₀).file
      rw [h.kernel, setFlags_self hfile] at hflags
      cases hflags
      exact hf hsome flags₀
    · rw [h.other g hg] at hctx
      rw [h.kernel, setFlags_of_ne _ _ hg] at hflags
      exact hk g ctx hctx flags hflags
  cases c with
  | socket answer => exact hopened h
  | accept l answer => exact hopened h
  | setfl fd arg =>
    cases h
    obtain ⟨f, hf, hnb⟩ := setfl_asks hs fd arg
    exact hasks hf hnb
  | getfl fd =>
    cases h
    exact hk
  | ioctl fd arg =>
    cases h
    refine hasks (ioctl_asks hs fd arg) fun hsome flags => ?_
    rw [nonblock_fionbio, bne_iff_ne]
    rintro rfl
    exact hsome (hc fd rfl)

theorem init_managed (files : Kernel) : Managed [] (init files) := by
  have hsize : 2 ≤ FdManager.new.length := by decide
  refine ⟨hsize, fun fd ctx hctx => ?_⟩
  rw [init, get_new] at hctx
  cases hctx

/-- The invariant along a run. -/
theorem exec_managed (calls : List Call) (hs : Managed history s) (h : exec step s calls = some t) :
    Managed (history ++ calls) t := by
  induction calls generalizing history s t with
  | nil =>
    cases h
    rw [List.append_nil]
    exact hs
  | cons c calls ih =>
    obtain ⟨u, hu, ht⟩ := Option.bind_eq_some_iff.mp h
    have hrest := ih (step_managed hs hu) ht
    rw [List.append_assoc] at hrest
    exact hrest

/-- A run in which every call meets the condition leaves the sockets
non-blocking. -/
theorem exec_kernelSet (calls : List Call) (hs : Managed history s) (hk : KernelSet s)
    (halong : Along step KeepsNonblock s calls) (h : exec step s calls = some t) : KernelSet t := by
  induction calls generalizing history s t with
  | nil =>
    cases h
    exact hk
  | cons c calls ih =>
    obtain ⟨u, hu, ht⟩ := Option.bind_eq_some_iff.mp h
    exact ih (step_managed hs hu) (step_kernelSet hs hk halong.1 hu) (halong.2 u hu) ht

/-- **`F_GETFL` reports the last request**, whatever the calls were. -/
theorem reports_last_request (hs : Managed history s) (hctx : s.m_datas.get fd = some ctx) :
    ∃ flags, fcntl_getfl s fd = some flags ∧ nonblock flags = asked fd history := by
  have hh := hs.holds fd ctx hctx
  obtain ⟨flags, hfile⟩ := hh.file
  rw [fcntl_getfl, hfile, hs.filter, hctx, ← hh.m_userNonblock]
  refine ⟨_, rfl, ?_⟩
  dsimp only
  split
  · next hu => rw [nonblock_or, hu]
  · next hu => rw [nonblock_and_not, Bool.eq_false_iff.mpr hu]

/-- **The sockets stay non-blocking exactly when no `ioctl` asks for blocking mode**: for
every sequence of hooked calls, the user sees each managed socket in the mode of the last
request, with the kernel's flag set, after every call, if and only if no `FIONBIO` request
asks for blocking mode on a managed descriptor. -/
theorem nonblock_iff (files : Kernel) (calls : List Call) :
    Along step KeepsNonblock (init files) calls
      ↔ ∀ before, before <+: calls → ∀ s, exec step (init files) before = some s →
          Virtualised before s := by
  constructor
  · rintro halong before ⟨rest, rfl⟩ s hs
    have hm := exec_managed before (init_managed files) hs
    rw [List.nil_append] at hm
    have hk : KernelSet s := by
      refine exec_kernelSet before (init_managed files) ?_ (along_append halong).1 hs
      intro fd ctx hctx
      rw [init, get_new] at hctx
      cases hctx
    refine ⟨fun fd ctx hctx _ => ?_, fun fd ctx hctx _ => reports_last_request hm hctx,
      fun fd ctx hctx _ => (hm.holds fd ctx hctx).m_userNonblock⟩
    obtain ⟨flags, hfile⟩ := (hm.holds fd ctx hctx).file
    exact ⟨_, hfile, hk fd ctx hctx flags hfile⟩
  · -- a request for blocking mode clears the kernel's flag at once
    intro hall
    refine along_iff.mpr fun before c hpre s hs fd hc => ?_
    subst hc
    have hm := exec_managed before (init_managed files) hs
    have hnext : exec step (init files) (before ++ [.ioctl fd 0])
        = some (ioctl_fionbio s fd 0) := by
      rw [exec_append, hs]
      rfl
    by_contra hsome
    obtain ⟨ctx, hctx⟩ := Option.ne_none_iff_exists'.mp hsome
    have hasks := ioctl_asks hm fd 0
    have hh := hm.holds fd ctx hctx
    obtain ⟨flags, hfile⟩ := hh.file
    obtain ⟨file, hfile', hnb⟩ := (hall _ hpre _ hnext).kernel fd _
      (hasks.some ctx hctx) hh.m_isSocket
    rw [hasks.kernel, setFlags_self hfile] at hfile'
    cases hfile'
    rw [nonblock_fionbio] at hnb
    cases hnb

/-- `socket` gives descriptor 5; `ioctl` asks for blocking mode, and the kernel has it in that mode.
-/
theorem fionbio_blocks :
    ∃ s ctx file, exec step (init fun _ => none) [.socket (some (5, 2)), .ioctl 5 0] = some s
      ∧ s.m_datas.get 5 = some ctx ∧ ctx.m_isSocket = true
      ∧ s.kernel 5 = some file ∧ nonblock file.flags = false
      ∧ ¬ Virtualised [.socket (some (5, 2)), .ioctl 5 0] s := by
  refine ⟨_, _, _, rfl, rfl, rfl, rfl, by decide +kernel, fun h => ?_⟩
  obtain ⟨file, hfile, hnb⟩ := h.kernel 5 _ rfl rfl
  cases hfile
  exact absurd hnb (by decide +kernel)

end SylarHookFlag
