import Sylar.FdManagerProofs
import Sylar.StepSystemProofs

/-! # The hooked calls with the hook switched off (`hook.cc`)

A thread whose `t_hook_enable` is false should get what libc gives.  Most of the
hooked functions test the switch first; `fcntl` and `ioctl` do not test it, and
`accept` tests it only inside `do_io` and then makes a context for the new
descriptor, which sets `O_NONBLOCK`.  `fcntl` and `ioctl` look at contexts, so one
that was made changes what later calls do.

The kernel is any state with a table of open files, and libc any functions on it
that obey the laws of `F_GETFL`, `F_SETFL` and `accept`.

* **`hooked_plain`**, **`plain_of_same`** — which call does what libc does.
* **`hook_off_transparent_iff`** — when a sequence of calls cannot be told from libc's. -/

namespace SylarHookSwitch

open StepSystem SylarFdManager List

variable {K A : Type}

/-! ## libc -/

/-- The read and write family. -/
inductive IoFun where
  | read | readv | recv | recvfrom | recvmsg | write | writev | send | sendto | sendmsg
  deriving DecidableEq, Repr

/-- The commands for which `fcntl` passes an argument on. -/
inductive ArgCmd where
  | F_DUPFD | F_DUPFD_CLOEXEC | F_SETFD | F_SETOWN | F_SETSIG | F_SETLEASE | F_NOTIFY
  | F_SETPIPE_SZ | F_SETLK | F_SETLKW | F_GETLK | F_GETOWN_EX | F_SETOWN_EX
  deriving DecidableEq, Repr

/-- The commands that `fcntl` lists as without an argument. -/
inductive BareCmd where
  | F_GETFD | F_GETOWN | F_GETSIG | F_GETLEASE | F_GETPIPE_SZ
  deriving DecidableEq, Repr

/-- A command of `fcntl` with its argument; `other` is one that the switch does not
list. -/
inductive Cmd (A : Type) where
  | F_SETFL (arg : BitVec 32)
  | F_GETFL
  | withArg (cmd : ArgCmd) (arg : A)
  | bare (cmd : BareCmd)
  | other (cmd : Int) (arg : Option A)

/-- A request of `ioctl` with its argument; for `FIONBIO` the integer it points to. -/
inductive Request (A : Type) where
  | fionbio (arg : Int32)
  | other (request : Nat) (arg : A)

/-- The calls; what the wrappers do not look at is in an argument of type `A`. -/
inductive Call (A : Type) where
  | socket (domain type protocol : Int)
  | accept (s : Nat) (a : A)
  | connect (fd : Nat) (a : A)
  | io (f : IoFun) (fd : Nat) (a : A)
  | fcntl (fd : Nat) (cmd : Cmd A)
  | ioctl (d : Nat) (request : Request A)
  | setsockopt (fd : Nat) (level optname : Int) (a : A)
  | close (fd : Nat)

/-- libc over a kernel with states `K`. -/
structure Libc (K A : Type) where
  files : K → Kernel
  socket_f : Int → Int → Int → K → Int × K
  accept_f : Nat → A → K → Int × K
  connect_f : Nat → A → K → Int × K
  io_f : IoFun → Nat → A → K → Int × K
  fcntl_f : Nat → Cmd A → K → BitVec 32 × K
  ioctl_f : Nat → Request A → K → Int × K
  setsockopt_f : Nat → Int → Int → A → K → Int × K
  close_f : Nat → K → Int × K
  /-- `F_GETFL` reads the flags; it fails on a number that is not open. -/
  getfl : ∀ fd k, fcntl_f fd .F_GETFL k = (((files k fd).map File.flags).getD (-1), k)
  /-- `F_SETFL` sets the flags if it does not fail; a descriptor that was duplicated shares
      them, so nothing is said about the other entries. -/
  setfl_files : ∀ fd arg k, (fcntl_f fd (.F_SETFL arg) k).1 ≠ -1 → (files k fd).isSome = true
    ∧ files (fcntl_f fd (.F_SETFL arg) k).2 fd = (files k).setFlags fd (setfl arg) fd
  /-- The mode is not what `F_SETFL` fails for. -/
  setfl_fails : ∀ fd arg arg' k, arg ||| O_NONBLOCK = arg' ||| O_NONBLOCK →
    (fcntl_f fd (.F_SETFL arg) k).1 = -1 →
    fcntl_f fd (.F_SETFL arg') k = fcntl_f fd (.F_SETFL arg) k
  /-- An accepted connection is a blocking socket whose flags can be set. -/
  accepted : ∀ s a k, 0 ≤ (accept_f s a k).1 →
    ∃ flags, files (accept_f s a k).2 (accept_f s a k).1.toNat = some ⟨true, flags⟩
      ∧ nonblock flags = false
      ∧ (fcntl_f (accept_f s a k).1.toNat (.F_SETFL flags) (accept_f s a k).2).1 ≠ -1

/-- What libc does in a call. -/
def libc (L : Libc K A) : Call A → K → Int × K
  | .socket domain type protocol, k => L.socket_f domain type protocol k
  | .accept s a, k => L.accept_f s a k
  | .connect fd a, k => L.connect_f fd a k
  | .io f fd a, k => L.io_f f fd a k
  | .fcntl fd cmd, k => ((L.fcntl_f fd cmd k).1.toInt, (L.fcntl_f fd cmd k).2)
  | .ioctl d request, k => L.ioctl_f d request k
  | .setsockopt fd level optname a, k => L.setsockopt_f fd level optname a k
  | .close fd, k => L.close_f fd k

/-! ## The hooked calls -/

/-- The kernel and the contexts. -/
structure State (K : Type) where
  kernel : K
  m_datas : FdManager

/-- The call goes to libc as it is. -/
def State.original (s : State K) (L : Libc K A) (c : Call A) : Int × State K :=
  ((libc L c s.kernel).1, { s with kernel := (libc L c s.kernel).2 })

/-- `FdCtx::init()` on the kernel: a socket is made non-blocking. -/
def initCtx (L : Libc K A) (fd : Nat) (k : K) : K :=
  let m_isSocket := ((L.files k fd).map File.isSocket).getD false
  if m_isSocket then
    let (flags, k) := L.fcntl_f fd .F_GETFL k
    if nonblock flags then k else (L.fcntl_f fd (.F_SETFL (flags ||| O_NONBLOCK)) k).2
  else k

/-- `FdMgr::Getinstance()->get(fd, true)`. -/
def getOrCreate (L : Libc K A) (fd : Nat) (s : State K) : State K :=
  match s.m_datas.get fd with
  | some _ => s
  | none =>
    { kernel := initCtx L fd s.kernel
      m_datas := (s.m_datas.getOrCreate fd (L.files s.kernel)).2.1 }

/-- The context, if it is of a socket that is not closed. -/
def State.managed (s : State K) (fd : Nat) : Option FdCtx :=
  (s.m_datas.get fd).filter FdCtx.managed

def setUserNonblock (m_datas : FdManager) (fd : Nat) (v : Bool) : FdManager :=
  m_datas.modify fd fun ctx => { ctx with m_userNonblock := v }

/-- `fcntl`; the switch is not tested. -/
def fcntl (L : Libc K A) (fd : Nat) (cmd : Cmd A) (s : State K) : BitVec 32 × State K :=
  match cmd with
  | .F_SETFL arg =>
    match s.managed fd with
    | none =>
        let (n, kernel) := L.fcntl_f fd (.F_SETFL arg) s.kernel
        (n, { s with kernel })
    | some ctx =>
        let m_datas := setUserNonblock s.m_datas fd (nonblock arg)
        let arg := if ctx.m_sysNonblock then arg ||| O_NONBLOCK else arg &&& ~~~O_NONBLOCK
        let (n, kernel) := L.fcntl_f fd (.F_SETFL arg) s.kernel
        (n, { kernel, m_datas })
  | .F_GETFL =>
    let (arg, kernel) := L.fcntl_f fd .F_GETFL s.kernel
    match s.managed fd with
    | none => (arg, { s with kernel })
    | some ctx =>
        (if ctx.m_userNonblock then arg ||| O_NONBLOCK else arg &&& ~~~O_NONBLOCK,
          { s with kernel })
  | .withArg cmd arg =>
    let (n, kernel) := L.fcntl_f fd (.withArg cmd arg) s.kernel
    (n, { s with kernel })
  | .bare cmd =>
    let (n, kernel) := L.fcntl_f fd (.bare cmd) s.kernel
    (n, { s with kernel })
  | .other cmd _ =>
    -- default: the argument is not passed on
    let (n, kernel) := L.fcntl_f fd (.other cmd none) s.kernel
    (n, { s with kernel })

/-- `ioctl`; the switch is not tested. -/
def ioctl (L : Libc K A) (d : Nat) (request : Request A) (s : State K) : Int × State K :=
  let m_datas := match request, s.managed d with
    | .fionbio arg, some _ => setUserNonblock s.m_datas d (arg != 0)
    | _, _ => s.m_datas
  let (n, kernel) := L.ioctl_f d request s.kernel
  (n, { kernel, m_datas })

/-- The hooked functions; `on` is what they do behind their tests of the switch. -/
def hooked (L : Libc K A) (on : Call A → State K → Int × State K) (t_hook_enable : Bool)
    (c : Call A) (s : State K) : Int × State K :=
  match c with
  | .socket .. | .connect .. | .io .. | .setsockopt .. | .close _ =>
    if !t_hook_enable then s.original L c else on c s
  | .accept .. =>
    -- do_io tests the switch, what follows it does not
    let (fd, s) := if !t_hook_enable then s.original L c else on c s
    (fd, if 0 ≤ fd then getOrCreate L fd.toNat s else s)
  | .fcntl fd cmd => ((fcntl L fd cmd s).1.toInt, (fcntl L fd cmd s).2)
  | .ioctl d request => ioctl L d request s

/-! ## What is asked -/

section Runs

variable (L : Libc K A) (on : Call A → State K → Int × State K)

/-- The results of a sequence of calls on a thread with the switch off. -/
def run (s : State K) : List (Call A) → List Int × State K
  | [] => ([], s)
  | c :: calls =>
    let (n, s) := hooked L on false c s
    ((n :: (run s calls).1), (run s calls).2)

/-- The results of the same calls of libc. -/
def libcRun (k : K) : List (Call A) → List Int × K
  | [] => ([], k)
  | c :: calls =>
    let (n, k) := libc L c k
    ((n :: (libcRun k calls).1), (libcRun k calls).2)

/-- The status flags of the open descriptors. -/
def flags (k : K) (fd : Nat) : Option (BitVec 32) := (L.files k fd).map File.flags

/-- After each of the calls the results and the flags of every descriptor are those
libc gives. -/
def Transparent (s : State K) (calls : List (Call A)) : Prop :=
  ∀ before, before <+: calls →
    (run L on s before).1 = (libcRun L s.kernel before).1
      ∧ ∀ fd, flags L (run L on s before).2.kernel fd
          = flags L (libcRun L s.kernel before).2 fd

/-- libc does not look at the argument of a command that `fcntl` does not list. -/
def Call.Listed : Call A → Prop
  | .fcntl fd (.other cmd arg) =>
    ∀ k, L.fcntl_f fd (.other cmd arg) k = L.fcntl_f fd (.other cmd none) k
  | _ => True

/-- `accept` fails or returns a number with a context; `F_SETFL` asks for the mode of the context or
fails; `F_GETFL` finds that mode. -/
def Plain (s : State K) : Call A → Prop
  | .accept sock a => 0 ≤ (L.accept_f sock a s.kernel).1 →
    (s.m_datas.get (L.accept_f sock a s.kernel).1.toNat).isSome = true
  | .fcntl fd (.F_SETFL arg) => ∀ ctx ∈ s.managed fd,
    ctx.m_sysNonblock = nonblock arg ∨ (L.fcntl_f fd (.F_SETFL arg) s.kernel).1 = -1
  | .fcntl fd .F_GETFL => ∀ ctx ∈ s.managed fd,
    ctx.m_userNonblock = nonblock (L.fcntl_f fd .F_GETFL s.kernel).1
  | _ => True

/-- One call as a step. -/
def step (s : State K) (c : Call A) : Option (State K) := some (hooked L on false c s).2

end Runs

/-! ## Modes -/

variable {arg : BitVec 32}

theorem or_nonblock (h : nonblock arg = true) : arg ||| O_NONBLOCK = arg := by
  rw [nonblock_eq] at h
  refine BitVec.eq_of_getLsbD_eq fun i hi => ?_
  rw [BitVec.getLsbD_or]
  have hbit : O_NONBLOCK = BitVec.twoPow 32 11 := by decide
  rw [hbit, BitVec.getLsbD_twoPow]
  by_cases hi11 : i = 11
  · subst hi11
    rw [h]
    rfl
  · simp [Ne.symm hi11]

theorem and_not_nonblock (h : nonblock arg = false) : arg &&& ~~~O_NONBLOCK = arg := by
  rw [nonblock_eq] at h
  refine BitVec.eq_of_getLsbD_eq fun i hi => ?_
  rw [BitVec.getLsbD_and]
  have hbit : O_NONBLOCK = BitVec.twoPow 32 11 := by decide
  rw [hbit, BitVec.getLsbD_not, BitVec.getLsbD_twoPow]
  by_cases hi11 : i = 11
  · subst hi11
    rw [h]
    rfl
  · simp [Ne.symm hi11, hi]

/-- An argument with its mode set to `v`. -/
def withMode (v : Bool) (arg : BitVec 32) : BitVec 32 :=
  if v then arg ||| O_NONBLOCK else arg &&& ~~~O_NONBLOCK

private theorem nonblock_withMode (v : Bool) (arg : BitVec 32) : nonblock (withMode v arg) = v := by
  cases v with
  | true => exact nonblock_or arg
  | false => exact nonblock_and_not arg

theorem withMode_eq_iff {v : Bool} : withMode v arg = arg ↔ v = nonblock arg := by
  constructor
  · intro h
    rw [← h, nonblock_withMode]
  · rintro rfl
    rw [withMode]
    split
    · next h => exact or_nonblock h
    · next h => exact and_not_nonblock (Bool.eq_false_iff.mpr h)

theorem withMode_or (v : Bool) (arg : BitVec 32) :
    withMode v arg ||| O_NONBLOCK = arg ||| O_NONBLOCK := by
  cases v with
  | true => exact or_nonblock (nonblock_or arg)
  | false =>
    rw [withMode, if_neg Bool.false_ne_true]
    refine BitVec.eq_of_getLsbD_eq fun i hi => ?_
    rw [BitVec.getLsbD_or, BitVec.getLsbD_or, BitVec.getLsbD_and, BitVec.getLsbD_not]
    cases O_NONBLOCK.getLsbD i <;> simp [hi]

/-! ## One call -/

section Calls

variable {L : Libc K A} {on : Call A → State K → Int × State K} {s : State K} {c : Call A}
  {fd : Nat} {k : K}

/-- The mode that a successful `F_SETFL` leaves. -/
theorem flags_setfl (h : (L.fcntl_f fd (.F_SETFL arg) k).1 ≠ -1) :
    (flags L (L.fcntl_f fd (.F_SETFL arg) k).2 fd).map nonblock = some (nonblock arg) := by
  obtain ⟨hopen, hfiles⟩ := L.setfl_files fd arg k h
  obtain ⟨file, hfile⟩ := Option.isSome_iff_exists.mp hopen
  rw [flags, hfiles, setFlags_self hfile]
  exact congrArg some (nonblock_setfl arg file.flags)

/-- `F_SETFL` with another mode fails if it fails. -/
theorem setfl_withMode_ne (h : (L.fcntl_f fd (.F_SETFL arg) k).1 ≠ -1) (v : Bool) :
    (L.fcntl_f fd (.F_SETFL (withMode v arg)) k).1 ≠ -1 := by
  intro hfail
  have hsame := L.setfl_fails fd (withMode v arg) arg k (withMode_or v arg) hfail
  rw [← hsame] at hfail
  exact h hfail

/-- `FdCtx::init` on a blocking socket sets the kernel's flag. -/
theorem flags_initCtx {f : BitVec 32} (hfile : L.files k fd = some ⟨true, f⟩)
    (hmode : nonblock f = false) (hset : (L.fcntl_f fd (.F_SETFL f) k).1 ≠ -1) :
    (flags L (initCtx L fd k) fd).map nonblock = some true := by
  have hinit : initCtx L fd k = (L.fcntl_f fd (.F_SETFL (withMode true f)) k).2 := by
    rw [initCtx, L.getfl, hfile]
    dsimp only [Option.map_some, Option.getD_some]
    rw [if_pos rfl, if_neg (Bool.eq_false_iff.mp hmode)]
    rfl
  rw [hinit, flags_setfl (setfl_withMode_ne hset true), nonblock_withMode]

/-- `accept` with the switch off: a context is made all the same. -/
theorem hooked_accept (sock : Nat) (a : A) : hooked L on false (.accept sock a) s
      = ((L.accept_f sock a s.kernel).1,
        if 0 ≤ (L.accept_f sock a s.kernel).1 then
          getOrCreate L (L.accept_f sock a s.kernel).1.toNat
            ⟨(L.accept_f sock a s.kernel).2, s.m_datas⟩
        else ⟨(L.accept_f sock a s.kernel).2, s.m_datas⟩) :=
  rfl

/-- **A plain call** does what libc does. -/
theorem hooked_plain (on : Call A → State K → Int × State K) (h : Plain L s c)
    (hlisted : c.Listed L) :
    (hooked L on false c s).1 = (libc L c s.kernel).1
      ∧ (hooked L on false c s).2.kernel = (libc L c s.kernel).2 := by
  cases c with
  | accept sock a =>
    refine ⟨rfl, ?_⟩
    rw [hooked_accept]
    dsimp only
    split
    · next hfd =>
      obtain ⟨ctx, hctx⟩ := Option.isSome_iff_exists.mp (h hfd)
      rw [getOrCreate]
      dsimp only
      rw [hctx]
      rfl
    · rfl
  | fcntl fd cmd =>
    cases cmd with
    | F_SETFL arg =>
      have hfcntl : (fcntl L fd (.F_SETFL arg) s).1 = (L.fcntl_f fd (.F_SETFL arg) s.kernel).1
          ∧ (fcntl L fd (.F_SETFL arg) s).2.kernel = (L.fcntl_f fd (.F_SETFL arg) s.kernel).2 := by
        rw [fcntl]
        cases hm : s.managed fd with
        | none => exact ⟨rfl, rfl⟩
        | some ctx =>
          have hsame : L.fcntl_f fd (.F_SETFL (withMode ctx.m_sysNonblock arg)) s.kernel
              = L.fcntl_f fd (.F_SETFL arg) s.kernel := by
            -- the argument has the mode already, or the call fails with either
            rcases h ctx hm with hmode | hfail
            · rw [withMode_eq_iff.mpr hmode]
            · exact L.setfl_fails fd arg _ s.kernel (withMode_or _ arg).symm hfail
          exact ⟨congrArg Prod.fst hsame, congrArg Prod.snd hsame⟩
      exact ⟨congrArg BitVec.toInt hfcntl.1, hfcntl.2⟩
    | F_GETFL =>
      refine ⟨congrArg BitVec.toInt ?_, ?_⟩
      · rw [fcntl]
        cases hm : s.managed fd with
        | none => rfl
        | some ctx => exact withMode_eq_iff.mpr (h ctx hm)
      · rw [hooked, fcntl]
        cases s.managed fd with
        | none => rfl
        | some ctx => rfl
    | withArg cmd arg => exact ⟨rfl, rfl⟩
    | bare cmd => exact ⟨rfl, rfl⟩
    | other cmd arg =>
      have hsame := (hlisted s.kernel).symm
      exact ⟨congrArg (fun r => BitVec.toInt (Prod.fst r)) hsame, congrArg Prod.snd hsame⟩
  | _ => exact ⟨rfl, rfl⟩

/-- **A call that is not plain** gives another result or other flags. -/
theorem plain_of_same (hres : (hooked L on false c s).1 = (libc L c s.kernel).1)
    (hflags : ∀ fd, flags L (hooked L on false c s).2.kernel fd
      = flags L (libc L c s.kernel).2 fd) : Plain L s c := by
  cases c with
  | accept sock a =>
    intro hfd
    by_contra hnone
    obtain ⟨f, hfile, hmode, hset⟩ := L.accepted sock a s.kernel hfd
    have hkernel : (hooked L on false (.accept sock a) s).2.kernel
        = initCtx L (L.accept_f sock a s.kernel).1.toNat (L.accept_f sock a s.kernel).2 := by
      rw [hooked_accept]
      dsimp only
      rw [if_pos hfd, getOrCreate]
      dsimp only
      rw [Option.not_isSome_iff_eq_none.mp hnone]
    have hsame := congrArg (Option.map nonblock) (hflags (L.accept_f sock a s.kernel).1.toNat)
    rw [hkernel, flags_initCtx hfile hmode hset, flags, libc, hfile] at hsame
    exact absurd (Option.some.inj hsame).symm (hmode ▸ Bool.false_ne_true)
  | fcntl fd cmd =>
    cases cmd with
    | F_SETFL arg =>
      intro ctx hm
      by_contra hbad
      obtain ⟨hmode, hset⟩ := not_or.mp hbad
      have hkernel : (hooked L on false (.fcntl fd (.F_SETFL arg)) s).2.kernel
          = (L.fcntl_f fd (.F_SETFL (withMode ctx.m_sysNonblock arg)) s.kernel).2 := by
        rw [hooked, fcntl, Option.mem_def.mp hm]
        rfl
      have hsame := congrArg (Option.map nonblock) (hflags fd)
      rw [hkernel, flags_setfl (setfl_withMode_ne hset _), nonblock_withMode, libc,
        flags_setfl hset] at hsame
      exact hmode (Option.some.inj hsame)
    | F_GETFL =>
      intro ctx hm
      have hresult : (hooked L on false (.fcntl fd .F_GETFL) s).1
          = (withMode ctx.m_userNonblock (L.fcntl_f fd .F_GETFL s.kernel).1).toInt := by
        rw [hooked, fcntl, Option.mem_def.mp hm]
        rfl
      rw [hresult, libc] at hres
      exact withMode_eq_iff.mp (BitVec.eq_of_toInt_eq hres)
    | _ => trivial
  | _ => trivial

end Calls

/-! ## Runs -/

section Transparency

variable {L : Libc K A} {on : Call A → State K → Int × State K}

/-- Behind a call that does what libc does, the rest has to. -/
theorem transparent_cons {s : State K} {c : Call A} {calls : List (Call A)}
    (hres : (hooked L on false c s).1 = (libc L c s.kernel).1)
    (hkernel : (hooked L on false c s).2.kernel = (libc L c s.kernel).2) :
    Transparent L on s (c :: calls) ↔ Transparent L on (hooked L on false c s).2 calls := by
  constructor
  · intro h before hpre
    obtain ⟨hresults, hflags⟩ := h (c :: before) (cons_prefix_cons.mpr ⟨rfl, hpre⟩)
    rw [run, libcRun] at hresults hflags
    dsimp only at hresults hflags
    rw [hkernel]
    exact ⟨(cons.inj hresults).2, hflags⟩
  · intro h before hpre
    cases before with
    | nil => exact ⟨rfl, fun _ => rfl⟩
    | cons c' before =>
      obtain ⟨rfl, hrest⟩ := cons_prefix_cons.mp hpre
      obtain ⟨hresults, hflags⟩ := h before hrest
      rw [hkernel] at hresults hflags
      rw [run, libcRun]
      dsimp only
      rw [hres, hresults]
      exact ⟨rfl, hflags⟩

/-- **With the switch off the hook is transparent exactly when no call meets a context that
matters**, for every libc that obeys the laws and every sequence of calls with listed commands. -/
theorem hook_off_transparent_iff (L : Libc K A) (on : Call A → State K → Int × State K)
    (calls : List (Call A)) (hlisted : ∀ c ∈ calls, c.Listed L) (s : State K) :
    Along (step L on) (Plain L) s calls ↔ Transparent L on s calls := by
  induction calls generalizing s with
  | nil =>
    refine iff_of_true trivial fun before hpre => ?_
    rw [prefix_nil.mp hpre]
    exact ⟨rfl, fun _ => rfl⟩
  | cons c calls ih =>
    have hrest := ih fun c hc => hlisted c (mem_cons_of_mem _ hc)
    constructor
    · rintro ⟨hplain, halong⟩
      obtain ⟨hres, hkernel⟩ := hooked_plain on hplain (hlisted c mem_cons_self)
      exact (transparent_cons hres hkernel).mpr ((hrest _).mp (halong _ rfl))
    · intro h
      obtain ⟨hresults, hflags⟩ := h [c] (cons_prefix_cons.mpr ⟨rfl, nil_prefix⟩)
      have hplain := plain_of_same (cons.inj hresults).1 hflags
      obtain ⟨hres, hkernel⟩ := hooked_plain on hplain (hlisted c mem_cons_self)
      refine ⟨hplain, fun t ht => ?_⟩
      cases ht
      exact (hrest _).mpr ((transparent_cons hres hkernel).mp h)

end Transparency

/-- A kernel that is its table of files, in which `socket` returns 3 and `accept`
returns 7. -/
def tableLibc : Libc Kernel Unit where
  files k := k
  socket_f _ _ _ k := (3, Function.update k 3 (some ⟨true, 2#32⟩))
  accept_f _ _ k := (7, Function.update k 7 (some ⟨true, 2#32⟩))
  connect_f _ _ k := (0, k)
  io_f _ _ _ k := (0, k)
  fcntl_f fd cmd k := match cmd with
    | .F_GETFL => (((k fd).map File.flags).getD (-1), k)
    | .F_SETFL arg => if (k fd).isSome then (0, k.setFlags fd (setfl arg)) else (-1, k)
    | _ => (0, k)
  ioctl_f d request k := match request with
    | .fionbio arg => (0, k.setFlags d (fionbio (arg != 0)))
    | .other _ _ => (0, k)
  setsockopt_f _ _ _ _ k := (0, k)
  close_f fd k := (0, Function.update k fd none)
  getfl _ _ := rfl
  setfl_files fd arg k h := by
    by_cases hopen : (k fd).isSome = true
    · refine ⟨hopen, ?_⟩
      dsimp only
      rw [if_pos hopen]
    · dsimp only at h
      rw [if_neg hopen] at h
      exact absurd rfl h
  setfl_fails fd arg arg' k _ h := by
    dsimp only at h ⊢
    by_cases hopen : (k fd).isSome = true
    · rw [if_pos hopen] at h
      exact absurd h (show (0 : BitVec 32) ≠ -1 by decide)
    · rw [if_neg hopen, if_neg hopen]
  accepted _ _ k _ := by
    have hself : Function.update k 7 (some (⟨true, 2#32⟩ : File)) 7 = some ⟨true, 2#32⟩ :=
      Function.update_self ..
    refine ⟨2#32, hself, by decide, ?_⟩
    show (if (Function.update k 7 (some (⟨true, 2#32⟩ : File)) 7).isSome then
      ((0 : BitVec 32), _) else (-1, _)).1 ≠ -1
    rw [hself]
    exact show (0 : BitVec 32) ≠ -1 by decide

/-- A thread on which nothing is behind the tests of the switch. -/
def idle (_ : Call Unit) (s : State Kernel) : Int × State Kernel := (0, s)

/-- Descriptor 7 has a context from before. -/
def stale : State Kernel :=
  ⟨fun _ => none,
    FdManager.new.set 7 (some ⟨true, true, true, false, false, 7, -1, -1⟩)⟩

/-- A connection gets the number 7, is set to non-blocking mode and asked for its
flags. -/
theorem hook_off_transparent_iff_stale : (run tableLibc idle stale
        [.accept 5 (), .fcntl 7 (.F_SETFL O_NONBLOCK), .fcntl 7 .F_GETFL]).1 = [7, 0, 0x802]
      ∧ Transparent tableLibc idle stale
        [.accept 5 (), .fcntl 7 (.F_SETFL O_NONBLOCK), .fcntl 7 .F_GETFL] := by
  refine ⟨by decide +kernel, (hook_off_transparent_iff _ _ _ ?_ _).mp ?_⟩
  · intro c hc
    rcases mem_cons.mp hc with rfl | hc
    · trivial
    · rcases mem_cons.mp hc with rfl | hc
      · trivial
      · obtain rfl := mem_singleton.mp hc
        trivial
  · refine ⟨fun _ => rfl, fun t ht => ?_⟩
    cases ht
    refine ⟨fun ctx hm => ?_, fun t ht => ?_⟩
    · obtain rfl := Option.some.inj (Option.mem_def.mp hm)
      exact Or.inl (by decide)
    · cases ht
      refine ⟨fun ctx hm => ?_, fun _ _ => trivial⟩
      obtain rfl := Option.some.inj (Option.mem_def.mp hm)
      decide +kernel

/-- Without any contexts: the connection that `accept` returns has `O_NONBLOCK` set,
libc's has not. -/
theorem accept_sets_nonblock : flags tableLibc (run tableLibc idle ⟨fun _ => none, FdManager.new⟩
        [.accept 5 ()]).2.kernel 7 = some 0x802#32
      ∧ flags tableLibc (libcRun tableLibc (fun _ => none) [.accept 5 ()]).2 7 = some 2#32
      ∧ ¬ Transparent tableLibc idle ⟨fun _ => none, FdManager.new⟩ [.accept 5 ()] := by
  have hhooked : flags tableLibc (run tableLibc idle ⟨fun _ => none, FdManager.new⟩ [.accept 5
    ()]).2.kernel 7 = some 0x802#32 := by decide +kernel
  have hlibc : flags tableLibc (libcRun tableLibc (fun _ => none) [.accept 5 ()]).2 7
      = some 2#32 := by decide +kernel
  refine ⟨hhooked, hlibc, fun h => ?_⟩
  have hsame := (h _ prefix_rfl).2 7
  rw [hhooked, hlibc] at hsame
  exact absurd hsame (by decide)

end SylarHookSwitch
