import Mathlib.Logic.Function.Basic
import Mathlib.Data.BitVec

/-! # Descriptors and their contexts (`fdmanager.cc`)

`FdManager` keeps an `FdCtx` for each socket the hooked calls have made.  The
context has two flags: `m_sysNonblock`, the mode the framework puts the
socket into, and `m_userNonblock`, the mode the user has asked for.

The kernel is a table of open files with their status flags; `fcntl_f` and
`ioctl_f` set and get them.

* **`nonblock_setfl`**, **`nonblock_fionbio`** — what the two calls leave in
  the kernel.
* **`getOrCreate_of_none`**, **`new_of_socket`** — `FdManager::get(fd, true)`
  on a new socket makes it non-blocking and leaves the other contexts. -/

namespace SylarFdManager

open List

/-! ## The kernel -/

/-- An open file with its status flags. -/
structure File where
  isSocket : Bool
  flags : BitVec 32
  deriving DecidableEq, Repr

/-- The table of open files. -/
abbrev Kernel := Nat → Option File

def O_NONBLOCK : BitVec 32 := 0x800#32

/-- The flags `F_SETFL` can change: `O_APPEND`, `O_NONBLOCK`, `O_ASYNC`,
`O_DIRECT` and `O_NOATIME`. -/
def setflMask : BitVec 32 := 0x46c00#32

/-- `flags & O_NONBLOCK`, as a condition. -/
def nonblock (flags : BitVec 32) : Bool := flags &&& O_NONBLOCK != 0

/-- `fcntl_f(fd, F_SETFL, arg)` on the flags. -/
def setfl (arg flags : BitVec 32) : BitVec 32 :=
  (flags &&& ~~~setflMask) ||| (arg &&& setflMask)

/-- `ioctl_f(fd, FIONBIO, arg)` on the flags. -/
def fionbio (on : Bool) (flags : BitVec 32) : BitVec 32 :=
  if on then flags ||| O_NONBLOCK else flags &&& ~~~O_NONBLOCK

/-- The flags of an open file are changed. -/
def Kernel.setFlags (k : Kernel) (fd : Nat) (f : BitVec 32 → BitVec 32) : Kernel :=
  Function.update k fd ((k fd).map fun file => { file with flags := f file.flags })

theorem nonblock_eq (flags : BitVec 32) : nonblock flags = flags.getLsbD 11 := by
  have hbit : O_NONBLOCK = BitVec.twoPow 32 11 := by decide
  rw [nonblock, hbit, BitVec.and_twoPow]
  cases flags.getLsbD 11 <;> decide

@[simp] theorem nonblock_or (flags : BitVec 32) : nonblock (flags ||| O_NONBLOCK) = true := by
  rw [nonblock_eq, BitVec.getLsbD_or]
  simp [O_NONBLOCK]

@[simp] theorem nonblock_and_not (flags : BitVec 32) :
    nonblock (flags &&& ~~~O_NONBLOCK) = false := by
  rw [nonblock_eq, BitVec.getLsbD_and]
  simp [O_NONBLOCK]

/-- **`F_SETFL`** leaves the mode of its argument. -/
@[simp] theorem nonblock_setfl (arg flags : BitVec 32) :
    nonblock (setfl arg flags) = nonblock arg := by
  rw [nonblock_eq, nonblock_eq, setfl, BitVec.getLsbD_or, BitVec.getLsbD_and, BitVec.getLsbD_and]
  simp [setflMask]

/-- **`FIONBIO`** leaves the mode it is called with. -/
@[simp] theorem nonblock_fionbio (on : Bool) (flags : BitVec 32) :
    nonblock (fionbio on flags) = on := by
  cases on with
  | true => exact nonblock_or flags
  | false => exact nonblock_and_not flags

variable {fd : Nat}

theorem setFlags_self {k : Kernel} {file : File} (h : k fd = some file) (f : BitVec 32 → BitVec 32)
    :
    k.setFlags fd f fd = some { file with flags := f file.flags } := by
  rw [Kernel.setFlags, Function.update_self, h]
  rfl

theorem setFlags_of_ne (k : Kernel) {g : Nat} (f : BitVec 32 → BitVec 32) (h : g ≠ fd) :
    k.setFlags fd f g = k g :=
  Function.update_of_ne h _ _

/-! ## `FdCtx` -/

/-- `FdCtx`. -/
structure FdCtx where
  m_isInit : Bool
  m_isSocket : Bool
  m_sysNonblock : Bool
  m_userNonblock : Bool
  m_isClosed : Bool
  m_fd : Nat
  m_recvTimeout : UInt64
  m_sendTimeout : UInt64
  deriving DecidableEq, Repr

/-- `FdCtx::FdCtx(fd)` with `init()`: a socket is made non-blocking. -/
def FdCtx.new (fd : Nat) (k : Kernel) : FdCtx × Kernel :=
  -- fstat
  let (m_isInit, m_isSocket) := match k fd with
    | none => (false, false)
    | some file => (true, file.isSocket)
  -- if(!(flags & O_NONBLOCK)) fcntl_f(m_fd, F_SETFL, flags | O_NONBLOCK)
  let k := if m_isSocket then
      k.setFlags fd fun flags =>
        if nonblock flags then flags else setfl (flags ||| O_NONBLOCK) flags
    else k
  ({  m_isInit := m_isInit
      m_isSocket := m_isSocket
      m_sysNonblock := m_isSocket
      m_userNonblock := false
      m_isClosed := false
      m_fd := fd
      m_recvTimeout := -1
      m_sendTimeout := -1 }, k)

/-- `!ctx->isClose() && ctx->isSocket()`. -/
def FdCtx.managed (ctx : FdCtx) : Bool := !ctx.m_isClosed && ctx.m_isSocket

/-! ## `FdManager` -/

/-- `m_datas`; `(int)m_datas.size()` is its size as long as `fd * 3 / 2 < 2 ^ 31` for every
descriptor. -/
abbrev FdManager := List (Option FdCtx)

/-- `FdManager::FdManager()`. -/
def FdManager.new : FdManager := List.replicate 64 none

/-- `m_datas[fd]`, where it is inside. -/
def FdManager.at (m : FdManager) (fd : Nat) : Option FdCtx := m[fd]?.join

/-- `m_datas.resize(size)`. -/
def FdManager.resize (m : FdManager) (size : Nat) : FdManager :=
  m.take size ++ List.replicate (size - m.length) none

/-- `get(fd)`: nothing is created. -/
def FdManager.get (m : FdManager) (fd : Nat) : Option FdCtx :=
  if m.length ≤ fd then none else m.at fd

/-- `get(fd, true)`: a context that is there stays as it is. -/
def FdManager.getOrCreate (m : FdManager) (fd : Nat) (k : Kernel) :
    FdCtx × FdManager × Kernel :=
  match m.get fd with
  | some ctx => (ctx, m, k)
  | none =>
    let (ctx, k) := FdCtx.new fd k
    let m := if m.length ≤ fd then m.resize (fd * 3 / 2) else m
    (ctx, m.set fd (some ctx), k)

/-- `del(fd)`. -/
def FdManager.del (m : FdManager) (fd : Nat) : FdManager :=
  if m.length ≤ fd then m else m.set fd none

/-- The context of `fd` is changed. -/
def FdManager.modify (m : FdManager) (fd : Nat) (f : FdCtx → FdCtx) : FdManager :=
  List.modify m fd (Option.map f)

theorem get_eq_join (m : FdManager) (fd : Nat) : m.get fd = m[fd]?.join := by
  rw [FdManager.get]
  split
  · next h => rw [getElem?_eq_none h]; rfl
  · rfl

@[simp] theorem get_new (fd : Nat) : FdManager.new.get fd = none := by
  rw [get_eq_join, FdManager.new, getElem?_replicate]
  split <;> rfl

variable {m : FdManager}

theorem get_modify_self {ctx : FdCtx} (h : m.get fd = some ctx) (f : FdCtx → FdCtx) :
    (m.modify fd f).get fd = some (f ctx) := by
  rw [get_eq_join] at h ⊢
  have hx : m[fd]? = some (some ctx) := Option.join_eq_some_iff.mp h
  rw [FdManager.modify, getElem?_modify_eq, hx]
  rfl

theorem get_modify_of_ne (m : FdManager) {g : Nat} (f : FdCtx → FdCtx) (h : g ≠ fd) :
    (m.modify fd f).get g = m.get g := by
  rw [get_eq_join, get_eq_join, FdManager.modify, getElem?_modify_ne _ _ (Ne.symm h)]

theorem get_resize (m : FdManager) {size : Nat} (h : m.length ≤ size) (fd : Nat) :
    (m.resize size).get fd = m.get fd := by
  rw [get_eq_join, get_eq_join, FdManager.resize, take_of_length_le h]
  by_cases hfd : fd < m.length
  · rw [getElem?_append_left hfd]
  · rw [getElem?_append_right (Nat.le_of_not_lt hfd), getElem?_replicate,
      getElem?_eq_none (Nat.le_of_not_lt hfd)]
    split <;> rfl

/-- The vector after its growth for `fd`. -/
theorem grown (fd : Nat) (hm : 2 ≤ m.length) :
    fd < (if m.length ≤ fd then m.resize (fd * 3 / 2) else m).length
      ∧ ∀ g, (if m.length ≤ fd then m.resize (fd * 3 / 2) else m).get g = m.get g := by
  split
  · next h =>
    refine ⟨?_, fun g => get_resize m (by omega) g⟩
    rw [FdManager.resize, length_append, length_take, length_replicate]
    omega
  · next h => exact ⟨by omega, fun _ => rfl⟩

/-- **A new context**: the one of `fd` is made, the others stay. -/
theorem getOrCreate_of_none (hm : 2 ≤ m.length) (h : m.get fd = none) (k : Kernel) :
    ∃ m', m.getOrCreate fd k = ((FdCtx.new fd k).1, m', (FdCtx.new fd k).2)
      ∧ m'.get fd = some (FdCtx.new fd k).1
      ∧ (∀ g, g ≠ fd → m'.get g = m.get g) ∧ m.length ≤ m'.length := by
  obtain ⟨hfd, hsame⟩ := grown fd hm
  refine ⟨_, by rw [FdManager.getOrCreate, h], ?_, fun g hg => ?_, ?_⟩
  · rw [get_eq_join, getElem?_set_self hfd]
    rfl
  · rw [← hsame g, get_eq_join, get_eq_join, getElem?_set_ne (Ne.symm hg)]
  · rw [length_set]
    split
    · rw [FdManager.resize, length_append, length_take, length_replicate]
      omega
    · exact Nat.le_refl _

/-- **A context made for a socket**: the kernel's flag is set. -/
theorem new_of_socket {k : Kernel} {flags : BitVec 32} (h : k fd = some ⟨true, flags⟩) :
    ∃ flags', (FdCtx.new fd k).2 = Function.update k fd (some ⟨true, flags'⟩)
      ∧ nonblock flags' = true
      ∧ (FdCtx.new fd k).1.m_isSocket = true
      ∧ (FdCtx.new fd k).1.m_sysNonblock = true
      ∧ (FdCtx.new fd k).1.m_userNonblock = false
      ∧ (FdCtx.new fd k).1.m_isClosed = false := by
  refine ⟨if nonblock flags then flags else setfl (flags ||| O_NONBLOCK) flags, ?_, ?_⟩
  · rw [FdCtx.new, h]
    dsimp only
    rw [if_pos rfl, Kernel.setFlags, h]
    rfl
  · rw [FdCtx.new, h]
    refine ⟨?_, rfl, rfl, rfl, rfl⟩
    split
    · next hn => exact hn
    · rw [nonblock_setfl, nonblock_or]

end SylarFdManager
