import Sylar.StepSystemProofs
import Mathlib.Data.List.Nodup

/-! # The connection pool (`http_connection.cc`)

A call of `getConnection` pops idle connections under the lock, deletes the rejected
ones and lowers `m_total` after it, and opens a new connection if none was left.  The
deleter of the `shared_ptr`, `ReleasePtr`, deletes the connection or pushes it back.
All of this is a sequence of separate steps of any number of calls.

The heart is CONSERVATION: a step of a call moves connections between the idle list,
the hands of the call, the deleted ones and those not opened yet, and a connection is in
one of these places only.

* **`next_places`**, **`next_total`** — what one step of a call conserves.
* **`ownership`** — no connection has two holders, is idle or held and deleted, or
  deleted twice; with no call in progress `m_total` counts idle and borrowed ones.
* **`idle_bounded`** — `m_conns` keeps to `m_maxSize` if no connection is opened while
  that many are under way. -/

namespace SylarConnectionPool

open StepSystem List

/-! ## The code -/

/-- A connection is named by its place in the list of those opened so far. -/
abbrev Ptr := Nat

/-- `HttpConnection`.  `created` is when it was opened, which the code does not record in
`m_createTime`. -/
structure Conn where
  connected : Bool
  m_createTime : Nat
  m_request : Nat
  created : Nat
  deriving DecidableEq, Repr

/-- `new HttpConnection(sock)`, at a given time. -/
def Conn.new (now : Nat) : Conn := ⟨true, 0, 0, now⟩

/-- The limits of `HttpConnectionPool`. -/
structure Limits where
  m_maxSize : Nat
  m_maxAliveTime : Nat
  m_maxRequest : Nat
  deriving DecidableEq, Repr

/-- The connections opened so far, the fields of the pool (`m_total` is a `std::atomic<int32_t>`),
and the connections deleted so far. -/
structure Shared where
  conns : List Conn
  m_conns : List Ptr
  m_total : Int32
  deleted : List Ptr
  deriving DecidableEq, Repr

/-- `*ptr`. -/
def deref (conns : List Conn) (ptr : Ptr) : Conn := conns.getD ptr ⟨false, 0, 0, 0⟩

/-- What the loop of `getConnection` leaves. -/
structure Popped where
  invalid_conns : List Ptr
  ptr : Option Ptr
  m_conns : List Ptr
  deriving DecidableEq, Repr

/-- The loop does not reject the connection. -/
def usable (limits : Limits) (now_ms : Nat) (conn : Conn) : Bool :=
  conn.connected && !decide (conn.m_createTime + limits.m_maxAliveTime > now_ms)

/-- The loop of `getConnection` over `m_conns`. -/
def popLoop (limits : Limits) (conns : List Conn) (now_ms : Nat) : List Ptr → Popped
  | [] => ⟨[], none, []⟩
  | conn :: rest =>
    if usable limits now_ms (deref conns conn) then ⟨[], some conn, rest⟩
    else
      let r := popLoop limits conns now_ms rest
      { r with invalid_conns := conn :: r.invalid_conns }

/-- `ReleasePtr` deletes the connection (its `m_request` has been raised before). -/
def expired (limits : Limits) (now : Nat) (conn : Conn) : Bool :=
  !conn.connected || decide (conn.m_createTime + limits.m_maxAliveTime ≥ now)
    || decide (conn.m_request ≥ limits.m_maxRequest)

/-- `++ptr->m_request`. -/
def raise (conns : List Conn) (ptr : Ptr) : List Conn :=
  conns.modify ptr fun conn => { conn with m_request := conn.m_request + 1 }

/-- The peer, the network or the borrower closes the connection's socket. -/
def disconnect (conns : List Conn) (ptr : Ptr) : List Conn :=
  conns.modify ptr fun conn => { conn with connected := false }

/-- Where a borrowing stands, from the call of `getConnection` to the end of `ReleasePtr`. -/
inductive Pc where
  | entered
  /-- past the lock; `size` rejected connections, of which those in `invalid_conns` are
      still to be deleted -/
  | popped (ptr : Option Ptr) (invalid_conns : List Ptr) (size : Nat)
  /-- looks up the address and connects -/
  | connecting
  /-- has opened a connection and not counted it yet -/
  | opened (ptr : Ptr)
  /-- the caller has the connection -/
  | borrowed (ptr : Ptr)
  /-- `ReleasePtr` is about to delete the connection -/
  | expiring (ptr : Ptr)
  /-- `ReleasePtr` has deleted the connection and not lowered `m_total` yet -/
  | expunged
  /-- `ReleasePtr` waits for the lock to push the connection -/
  | keeping (ptr : Ptr)
  | returned
  deriving DecidableEq, Repr

/-- What a call does next, with the answers of the clock and the network. -/
inductive Event where
  | pop (now_ms : Nat)
  | deleteRejected
  | lowerTotal
  | connect (now : Nat)
  | connectFails
  | raiseTotal
  | release (now : Nat)
  | delete
  | lowerTotalByOne
  | push
  deriving DecidableEq, Repr

/-- One step of a call. -/
def next (limits : Limits) (sh : Shared) : Pc → Event → Option (Shared × Pc)
  | .entered, .pop now_ms =>
    let r := popLoop limits sh.conns now_ms sh.m_conns
    some ({ sh with m_conns := r.m_conns },
      .popped r.ptr r.invalid_conns r.invalid_conns.length)
  | .popped ptr (conn :: rest) size, .deleteRejected =>
    some ({ sh with deleted := sh.deleted ++ [conn] }, .popped ptr rest size)
  | .popped (some ptr) [] size, .lowerTotal =>
    some ({ sh with m_total := sh.m_total - .ofNat size }, .borrowed ptr)
  | .popped none [] size, .lowerTotal =>
    some ({ sh with m_total := sh.m_total - .ofNat size }, .connecting)
  | .connecting, .connect now =>
    some ({ sh with conns := sh.conns ++ [Conn.new now] }, .opened sh.conns.length)
  | .connecting, .connectFails => some (sh, .returned)
  | .opened ptr, .raiseTotal => some ({ sh with m_total := sh.m_total + 1 }, .borrowed ptr)
  | .borrowed ptr, .release now =>
    let conns := raise sh.conns ptr
    some ({ sh with conns := conns },
      if expired limits now (deref conns ptr) then .expiring ptr else .keeping ptr)
  | .expiring ptr, .delete => some ({ sh with deleted := sh.deleted ++ [ptr] }, .expunged)
  | .expunged, .lowerTotalByOne => some ({ sh with m_total := sh.m_total - 1 }, .returned)
  | .keeping ptr, .push => some ({ sh with m_conns := sh.m_conns ++ [ptr] }, .returned)
  | _, _ => none

/-- A pool and all borrowings from it. -/
structure State where
  shared : Shared
  calls : List Pc
  deriving DecidableEq, Repr

/-- A call begins or moves, or a connection breaks. -/
inductive Act where
  | getConnection
  | move (i : Nat) (event : Event)
  | disconnect (ptr : Ptr)
  deriving DecidableEq, Repr

/-- One step of the system: a new call, a step of a call, or a connection that breaks. -/
def step (limits : Limits) (s : State) : Act → Option State
  | .getConnection => some { s with calls := s.calls ++ [.entered] }
  | .move i event =>
    s.calls[i]?.bind fun pc =>
      (next limits s.shared pc event).map fun r => ⟨r.1, s.calls.set i r.2⟩
  | .disconnect ptr =>
    some { s with shared := { s.shared with conns := disconnect s.shared.conns ptr } }

/-- A new pool. -/
def init : State := ⟨⟨[], [], 0, []⟩, []⟩

/-! ## What a call has in its hands -/

/-- The connections that the call, or its caller, holds. -/
def Pc.ptrs : Pc → List Ptr
  | .popped ptr invalid_conns _ => ptr.toList ++ invalid_conns
  | .opened ptr | .borrowed ptr | .expiring ptr | .keeping ptr => [ptr]
  | .entered | .connecting | .expunged | .returned => []

/-- How far `m_total` counts more than the idle connections on account of the call. -/
def Pc.counted : Pc → Nat
  | .popped ptr _ size => ptr.toList.length + size
  | .borrowed _ | .expiring _ | .expunged | .keeping _ => 1
  | .entered | .connecting | .opened _ | .returned => 0

/-- The call is between two steps of `getConnection` or of `ReleasePtr`. -/
def Pc.inProgress : Pc → Bool
  | .borrowed _ | .returned => false
  | _ => true

def Pc.isBorrowed : Pc → Bool
  | .borrowed _ => true
  | _ => false

/-- No call is in progress: every connection handed out is with its borrower. -/
def State.Quiet (s : State) : Prop := ∀ pc ∈ s.calls, pc.inProgress = false

instance (s : State) : Decidable s.Quiet :=
  inferInstanceAs (Decidable (∀ pc ∈ s.calls, pc.inProgress = false))

/-- The loop takes connections off the front of the list. -/
theorem popLoop_parts (limits : Limits) (conns : List Conn) (now_ms : Nat) (idle : List Ptr) :
    let r := popLoop limits conns now_ms idle
    idle = r.invalid_conns ++ (r.ptr.toList ++ r.m_conns) := by
  induction idle with
  | nil => rfl
  | cons conn rest ih =>
    by_cases hc : usable limits now_ms (deref conns conn)
    · simp [popLoop, hc]
    · simpa [popLoop, hc] using ih

/-! ## Conservation -/

/-- In how many places outside the calls the connection is: idle, deleted, or not opened. -/
def Shared.places (sh : Shared) (c : Ptr) : Nat :=
  sh.m_conns.count c + sh.deleted.count c + if c < sh.conns.length then 0 else 1

section Conservation

variable {limits : Limits} {sh sh' : Shared} {pc pc' : Pc} {event : Event}

@[simp] theorem length_raise (conns : List Conn) (ptr : Ptr) :
    (raise conns ptr).length = conns.length := by
  simp [raise]

@[simp] theorem length_disconnect (conns : List Conn) (ptr : Ptr) :
    (disconnect conns ptr).length = conns.length := by
  simp [disconnect]

/-- The steps of a call, one by one. -/
inductive Move (limits : Limits) (sh : Shared) : Pc → Event → Shared → Pc → Prop
  | pop (now_ms : Nat) {r : Popped} (hr : popLoop limits sh.conns now_ms sh.m_conns = r) :
      Move limits sh .entered (.pop now_ms) { sh with m_conns := r.m_conns }
        (.popped r.ptr r.invalid_conns r.invalid_conns.length)
  | deleteRejected (ptr : Option Ptr) (conn : Ptr) (rest : List Ptr) (size : Nat) :
      Move limits sh (.popped ptr (conn :: rest) size) .deleteRejected
        { sh with deleted := sh.deleted ++ [conn] } (.popped ptr rest size)
  | found (ptr : Ptr) (size : Nat) :
      Move limits sh (.popped (some ptr) [] size) .lowerTotal
        { sh with m_total := sh.m_total - .ofNat size } (.borrowed ptr)
  | notFound (size : Nat) :
      Move limits sh (.popped none [] size) .lowerTotal
        { sh with m_total := sh.m_total - .ofNat size } .connecting
  | connect (now : Nat) :
      Move limits sh .connecting (.connect now)
        { sh with conns := sh.conns ++ [Conn.new now] } (.opened sh.conns.length)
  | connectFails : Move limits sh .connecting .connectFails sh .returned
  | raiseTotal (ptr : Ptr) :
      Move limits sh (.opened ptr) .raiseTotal { sh with m_total := sh.m_total + 1 }
        (.borrowed ptr)
  | expires (ptr : Ptr) (now : Nat) :
      Move limits sh (.borrowed ptr) (.release now) { sh with conns := raise sh.conns ptr }
        (.expiring ptr)
  | keeps (ptr : Ptr) (now : Nat) :
      Move limits sh (.borrowed ptr) (.release now) { sh with conns := raise sh.conns ptr }
        (.keeping ptr)
  | delete (ptr : Ptr) :
      Move limits sh (.expiring ptr) .delete { sh with deleted := sh.deleted ++ [ptr] }
        .expunged
  | lowerTotalByOne :
      Move limits sh .expunged .lowerTotalByOne { sh with m_total := sh.m_total - 1 } .returned
  | push (ptr : Ptr) :
      Move limits sh (.keeping ptr) .push { sh with m_conns := sh.m_conns ++ [ptr] } .returned

theorem move_of_next (h : next limits sh pc event = some (sh', pc')) :
    Move limits sh pc event sh' pc' := by
  unfold next at h
  split at h
  · cases h
    exact .pop _ rfl
  · cases h
    exact .deleteRejected ..
  · cases h
    exact .found ..
  · cases h
    exact .notFound _
  · cases h
    exact .connect _
  · cases h
    exact .connectFails
  · cases h
    exact .raiseTotal _
  · obtain ⟨rfl, rfl⟩ := Prod.mk.inj (Option.some.inj h)
    split
    · exact .expires ..
    · exact .keeps ..
  · cases h
    exact .delete _
  · cases h
    exact .lowerTotalByOne
  · cases h
    exact .push _
  · exact nomatch h

/-- A step of a call moves every connection from one place to another. -/
theorem next_places (h : next limits sh pc event = some (sh', pc')) (c : Ptr) :
    sh'.places c + pc'.ptrs.count c = sh.places c + pc.ptrs.count c := by
  cases move_of_next h with
  | pop now_ms hr =>
    have hparts := congrArg (count c) (popLoop_parts limits sh.conns now_ms sh.m_conns)
    simp only [hr, count_append] at hparts
    simp only [Shared.places, Pc.ptrs, count_append, count_nil]
    omega
  | deleteRejected ptr conn rest size =>
    simp only [Shared.places, Pc.ptrs, count_append, count_cons, count_nil]
    omega
  | found | notFound | connectFails | raiseTotal | lowerTotalByOne => rfl
  | connect now =>
    -- the new connection leaves those not opened yet
    simp only [Shared.places, Pc.ptrs, count_singleton, count_nil,
      length_append, length_singleton, beq_iff_eq]
    obtain hlt | heq | hgt := Nat.lt_trichotomy c sh.conns.length
    · rw [if_pos (Nat.lt_succ_of_lt hlt), if_neg (Nat.ne_of_gt hlt), if_pos hlt]
    · rw [heq, if_pos (Nat.lt_succ_self _), if_pos rfl, if_neg (Nat.lt_irrefl _)]
    · rw [if_neg (Nat.not_lt.mpr hgt), if_neg (Nat.ne_of_lt hgt), if_neg (Nat.lt_asymm hgt)]
  | expires | keeps => simp only [Shared.places, length_raise, Pc.ptrs]
  | delete | push =>
    simp only [Shared.places, Pc.ptrs, count_append, count_nil]
    omega

/-- A step of a call changes `m_total` by what it moves, or notes the difference. -/
theorem next_total (h : next limits sh pc event = some (sh', pc')) :
    sh'.m_total + .ofNat (sh.m_conns.length + pc.counted)
      = sh.m_total + .ofNat (sh'.m_conns.length + pc'.counted) := by
  cases move_of_next h with
  | pop now_ms hr =>
    have hparts := congrArg length (popLoop_parts limits sh.conns now_ms sh.m_conns)
    simp only [hr, length_append] at hparts
    refine congrArg (fun n => sh.m_total + Int32.ofNat n) ?_
    simp only [Pc.counted]
    omega
  | deleteRejected | connect | connectFails | expires | keeps | delete => rfl
  | found | notFound =>
    simp only [Pc.counted, Option.toList, length_singleton, length_nil, Int32.ofNat_add]
    grind
  | raiseTotal | lowerTotalByOne =>
    simp only [Pc.counted, Int32.ofNat_add]
    grind
  | push => simp only [Pc.counted, length_append, length_singleton]

end Conservation

/-! ## Ownership -/

/-- In how many places the connection is. -/
def State.places (s : State) (c : Ptr) : Nat :=
  s.shared.places c + (s.calls.map fun pc => pc.ptrs.count c).sum

/-- Every connection is in one place, and `m_total` is right up to what the calls have
noted. -/
structure Inv (s : State) : Prop where
  places : ∀ c, s.places c = 1
  total : s.shared.m_total = .ofNat (s.shared.m_conns.length + (s.calls.map Pc.counted).sum)

/-- What the calls and their callers may rely on. -/
structure Sound (s : State) : Prop where
  /-- no connection is held twice -/
  one_holder : ∀ {i j : Nat} {pc pc' : Pc} {c : Ptr}, s.calls[i]? = some pc →
    s.calls[j]? = some pc' → c ∈ pc.ptrs → c ∈ pc'.ptrs → i = j
  /-- none is both idle and held -/
  not_idle : ∀ {pc : Pc} {c : Ptr}, pc ∈ s.calls → c ∈ pc.ptrs → c ∉ s.shared.m_conns
  idle_once : s.shared.m_conns.Nodup
  /-- none that is idle or held has been deleted -/
  idle_alive : ∀ c ∈ s.shared.m_conns, c ∉ s.shared.deleted
  held_alive : ∀ {pc : Pc} {c : Ptr}, pc ∈ s.calls → c ∈ pc.ptrs → c ∉ s.shared.deleted
  deleted_once : s.shared.deleted.Nodup
  /-- `m_total` counts modulo `2 ^ 32`, and is right below `2 ^ 31` connections -/
  accounted : s.Quiet →
    s.shared.m_total = .ofNat (s.shared.m_conns.length + s.calls.countP Pc.isBorrowed)
      ∧ (s.shared.m_conns.length + s.calls.countP Pc.isBorrowed < 2 ^ 31 →
        s.shared.m_total.toInt = (s.shared.m_conns.length + s.calls.countP Pc.isBorrowed : Nat)
          ∧ 0 ≤ s.shared.m_total.toInt)

section Ownership

variable {limits : Limits} {s t : State}

theorem inv_init : Inv init where
  places c := by simp [State.places, Shared.places, init]
  total := rfl

/-- One step of the system. -/
theorem inv_step {a : Act} (hinv : Inv s) (h : step limits s a = some t) : Inv t := by
  cases a with
  | getConnection =>
    cases h
    constructor
    · intro c
      have hc := hinv.places c
      simpa [State.places, Pc.ptrs] using hc
    · simpa [Pc.counted] using hinv.total
  | move i event =>
    obtain ⟨pc, hpc, hmove⟩ := Option.bind_eq_some_iff.mp h
    obtain ⟨⟨sh', pc'⟩, hnext, rfl⟩ := Option.map_eq_some_iff.mp hmove
    constructor
    · intro c
      have hold := hinv.places c
      have hlocal := next_places hnext c
      have hmoved := sum_moved (f := fun pc => pc.ptrs.count c) (b := pc') hpc
      simp only [State.places] at hold ⊢
      omega
    · have hold := hinv.total
      have hlocal := next_total hnext
      have hmoved := sum_moved (f := Pc.counted) (b := pc') hpc
      rw [hold, ← Int32.ofNat_add] at hlocal
      refine (Int32.add_left_inj (.ofNat (s.shared.m_conns.length + pc.counted))).mp ?_
      rw [hlocal, ← Int32.ofNat_add]
      refine congrArg Int32.ofNat ?_
      simp only
      omega
  | disconnect ptr =>
    cases h
    refine ⟨fun c => ?_, hinv.total⟩
    have hc := hinv.places c
    simpa [State.places, Shared.places] using hc

/-- With no call in progress, a call counts as much as it has lent. -/
theorem counted_of_quiet {pc : Pc} (h : pc.inProgress = false) :
    pc.counted = pc.isBorrowed.toNat := by
  cases pc <;> first | rfl | exact nomatch h

theorem sum_counted_of_quiet (calls : List Pc) (h : ∀ pc ∈ calls, pc.inProgress = false) :
    (calls.map Pc.counted).sum = calls.countP Pc.isBorrowed := by
  induction calls with
  | nil => rfl
  | cons pc calls ih =>
    obtain ⟨hpc, hrest⟩ := forall_mem_cons.mp h
    rw [map_cons, sum_cons, ih hrest, counted_of_quiet hpc, countP_cons]
    cases pc.isBorrowed <;> simp [Nat.add_comm]

/-- What some call holds is in at least one place. -/
theorem one_le_held {pc : Pc} {c : Ptr} (hpc : pc ∈ s.calls) (hc : c ∈ pc.ptrs) :
    1 ≤ (s.calls.map fun pc => pc.ptrs.count c).sum := by
  have hpos : 1 ≤ pc.ptrs.count c := count_pos_iff.mpr hc
  exact hpos.trans (le_sum_of_mem (mem_map_of_mem hpc))

theorem Inv.sound (hinv : Inv s) : Sound s := by
  have hplaces : ∀ c, s.shared.m_conns.count c + s.shared.deleted.count c
      + (s.calls.map fun pc => pc.ptrs.count c).sum ≤ 1 := by
    intro c
    have hc := hinv.places c
    simp only [State.places, Shared.places] at hc
    omega
  constructor
  · intro i j pc pc' c hi hj hc hc'
    by_contra hne
    have hsum := add_le_sum (f := fun pc => pc.ptrs.count c) hi hj hne
    have := count_pos_iff.mpr hc
    have := count_pos_iff.mpr hc'
    have := hplaces c
    omega
  · intro pc c hpc hc hidle
    have := count_pos_iff.mpr hidle
    have := one_le_held hpc hc
    have := hplaces c
    omega
  · refine nodup_iff_count_le_one.mpr fun c => ?_
    have := hplaces c
    omega
  · intro c hidle hdel
    have := count_pos_iff.mpr hidle
    have := count_pos_iff.mpr hdel
    have := hplaces c
    omega
  · intro pc c hpc hc hdel
    have := count_pos_iff.mpr hdel
    have := one_le_held hpc hc
    have := hplaces c
    omega
  · refine nodup_iff_count_le_one.mpr fun c => ?_
    have := hplaces c
    omega
  · intro hquiet
    have htotal := hinv.total
    rw [sum_counted_of_quiet s.calls hquiet] at htotal
    refine ⟨htotal, fun hlt => ?_⟩
    rw [htotal, Int32.toInt_ofNat_of_lt hlt]
    exact ⟨rfl, Int.natCast_nonneg _⟩

theorem Inv.of_reaches (hinv : Inv s) (h : Reaches (step limits) (fun _ _ => True) s t) : Inv t :=
  h.inv hinv fun hinv _ hstep => inv_step hinv hstep

/-- **OWNERSHIP AND ACCOUNTING**, over every interleaving. -/
theorem ownership (h : Reaches (step limits) (fun _ _ => True) init s) : Sound s :=
  (inv_init.of_reaches h).sound

end Ownership

/-- Two callers at once; one connection comes back broken, the other is kept and lent
again. -/
def sharedUse : List Act :=
  [.getConnection, .getConnection, .move 0 (.pop 50), .move 1 (.pop 50), .move 1 .lowerTotal,
    .move 0 .lowerTotal, .move 0 (.connect 50), .move 1 (.connect 50), .move 1 .raiseTotal,
    .move 0 .raiseTotal, .disconnect 0, .move 1 (.release 60), .move 0 (.release 60),
    .move 0 .delete, .move 1 .push, .move 0 .lowerTotalByOne, .getConnection,
    .move 2 (.pop 70), .move 2 .lowerTotal]

theorem ownership_sharedUse :
    ∃ s, exec (step ⟨2, 10, 5⟩) init sharedUse = some s ∧ Sound s ∧ s.Quiet
      ∧ s.shared.m_total = 1 ∧ s.shared.deleted = [0] ∧ s.calls[2]? = some (.borrowed 1) :=
  have hrun : exec (step ⟨2, 10, 5⟩) init sharedUse = some _ := rfl
  ⟨_, hrun, ownership (reaches_of_exec (along_of_forall fun _ _ _ => trivial) hrun),
    by decide, rfl, rfl, rfl⟩

/-! ## The bound on the idle connections -/

/-- The call has a connection, or is about to open one. -/
def Pc.underWay : Pc → Bool
  | .popped .. | .connecting | .opened _ | .borrowed _ | .expiring _ | .keeping _ => true
  | .entered | .expunged | .returned => false

/-- A pop that finds no usable connection is made while fewer than `m_maxSize` others have one or
are about to open one. -/
def hasRoom (limits : Limits) (s : State) : Act → Bool
  | .move _ (.pop now_ms) =>
    (s.shared.m_conns.any fun c => usable limits now_ms (deref s.shared.conns c))
      || decide (s.calls.countP Pc.underWay < limits.m_maxSize)
  | _ => true

abbrev HasRoom (limits : Limits) (s : State) (a : Act) : Prop := hasRoom limits s a = true

/-- If the loop finds nothing, there was nothing to be found and nothing is left. -/
theorem popLoop_none {limits : Limits} {conns : List Conn} {now_ms : Nat} {idle : List Ptr}
    (h : (popLoop limits conns now_ms idle).ptr = none) :
    (idle.any fun c => usable limits now_ms (deref conns c)) = false
      ∧ (popLoop limits conns now_ms idle).m_conns = [] := by
  induction idle with
  | nil => exact ⟨rfl, rfl⟩
  | cons conn rest ih =>
    by_cases hc : usable limits now_ms (deref conns conn)
    · simp [popLoop, hc] at h
    · simp only [popLoop, hc] at h ⊢
      simpa [hc] using ih h

section Bound

variable {limits : Limits} {s t : State}

/-- A step adds no connection to the idle ones and those under way, but for a pop that has found
none. -/
theorem next_bound {sh sh' : Shared} {pc pc' : Pc} {event : Event}
    (h : next limits sh pc event = some (sh', pc')) :
    sh'.m_conns.length + pc'.underWay.toNat ≤ sh.m_conns.length + pc.underWay.toNat
      ∨ ∃ now_ms, event = .pop now_ms ∧ pc.underWay = false ∧ sh'.m_conns = []
        ∧ (sh.m_conns.any fun c => usable limits now_ms (deref sh.conns c)) = false := by
  cases move_of_next h with
  | @pop now_ms r hr =>
    cases hptr : r.ptr with
    | none =>
      obtain ⟨hnone, hempty⟩ := popLoop_none (hr ▸ hptr)
      exact Or.inr ⟨now_ms, rfl, rfl, hr ▸ hempty, hnone⟩
    | some ptr =>
      have hparts := congrArg length (popLoop_parts limits sh.conns now_ms sh.m_conns)
      simp only [hr, length_append, hptr, Option.toList, length_singleton] at hparts
      refine Or.inl ?_
      simp only [Pc.underWay, Bool.toNat_true, Bool.toNat_false]
      omega
  | deleteRejected | found | notFound | connect | raiseTotal | expires | keeps
  | lowerTotalByOne => exact Or.inl (Nat.le_refl _)
  | connectFails | delete => exact Or.inl (Nat.le_succ _)
  | push =>
    refine Or.inl (Nat.le_of_eq ?_)
    rw [length_append, length_singleton]
    rfl

/-- Idle connections and borrowings under way. -/
def State.load (s : State) : Nat := s.shared.m_conns.length + s.calls.countP Pc.underWay

/-- One step of the system. -/
theorem load_step {a : Act} (hload : s.load ≤ limits.m_maxSize) (hroom : HasRoom limits s a)
    (h : step limits s a = some t) : t.load ≤ limits.m_maxSize := by
  cases a with
  | getConnection =>
    cases h
    simpa [State.load, Pc.underWay] using hload
  | move i event =>
    obtain ⟨pc, hpc, hmove⟩ := Option.bind_eq_some_iff.mp h
    obtain ⟨⟨sh', pc'⟩, hnext, rfl⟩ := Option.map_eq_some_iff.mp hmove
    have hmoved := countP_moved (p := Pc.underWay) (b := pc') hpc
    simp only [State.load] at hload ⊢
    obtain hle | ⟨now_ms, rfl, hpc0, hempty, hnone⟩ := next_bound hnext
    · omega
    · rw [HasRoom, hasRoom, hnone, Bool.false_or, decide_eq_true_eq] at hroom
      have hle := Bool.toNat_le pc'.underWay
      rw [hpc0, Bool.toNat_false] at hmoved
      rw [hempty, length_nil]
      omega
  | disconnect ptr =>
    cases h
    exact hload

/-- **BOUND**, over every interleaving in which no call opens a connection while `m_maxSize` others
have one or are about to; nor is the pool full when one comes back. -/
theorem idle_bounded (h : Reaches (step limits) (HasRoom limits) init s) :
    s.shared.m_conns.length ≤ limits.m_maxSize
      ∧ ∀ pc ∈ s.calls, pc.underWay = true → s.shared.m_conns.length < limits.m_maxSize := by
  have hload : s.load ≤ limits.m_maxSize :=
    h.inv (P := fun s => s.load ≤ limits.m_maxSize) (Nat.zero_le _) load_step
  rw [State.load] at hload
  refine ⟨by omega, fun pc hpc hway => ?_⟩
  have hpos := countP_pos_iff.mpr ⟨pc, hpc, hway⟩
  omega

end Bound

/-- The connection that was lent again comes back a second time. -/
def sharedUseOver : List Act := sharedUse ++ [.move 2 (.release 80), .move 2 .push]

theorem idle_bounded_sharedUseOver : ∃ s, exec (step ⟨2, 10, 5⟩) init sharedUseOver = some s
      ∧ s.shared.m_conns = [1] ∧ s.shared.m_conns.length ≤ 2 :=
  have hrun : exec (step ⟨2, 10, 5⟩) init sharedUseOver = some _ := rfl
  have halong : Along (step ⟨2, 10, 5⟩) (HasRoom ⟨2, 10, 5⟩) init sharedUseOver := by decide
  ⟨_, hrun, rfl, (idle_bounded (reaches_of_exec halong hrun)).1⟩

/-- With `m_maxSize = 1`, two connections lent at the same time are both kept. -/
theorem idle_unbounded : (exec (step ⟨1, 10, 5⟩) init
      [.getConnection, .getConnection, .move 0 (.pop 50), .move 1 (.pop 50),
        .move 0 .lowerTotal, .move 1 .lowerTotal, .move 0 (.connect 50),
        .move 1 (.connect 50), .move 0 .raiseTotal, .move 1 .raiseTotal,
        .move 0 (.release 60), .move 0 .push, .move 1 (.release 60), .move 1 .push]).map
      (fun s => s.shared.m_conns) = some [0, 1] := rfl

end SylarConnectionPool
