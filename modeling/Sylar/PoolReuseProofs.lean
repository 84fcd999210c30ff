import Sylar.ConnectionPoolProofs

/-! # What the connection pool reuses (`http_connection.cc`)

`getConnection` and `ReleasePtr` as whole calls, and histories of them with a clock that
does not go back.  Both test the age of a connection against `m_createTime`, which
nothing sets, and both reject what is YOUNGER than `m_maxAliveTime`; so with the time of
day as the clock every connection passes, whatever its age.

* **`getConnection_alone`**, **`ReleasePtr_alone`** — the whole calls are runs of the
  separate steps of `ConnectionPoolProofs`, so ownership holds for histories.
* **`lent_step`** — what a call leaves of the count of requests.
* **`reuse_policy`** — exactly which calls lend and keep what they should, in every reachable
  state. -/

namespace SylarConnectionPool

open StepSystem List

/-! ## Whole calls -/

/-- `HttpConnectionPool::getConnection` at `now_ms`; a new connection would be there at `connects`,
if one can be opened. -/
def getConnection (limits : Limits) (sh : Shared) (now_ms : Nat) (connects : Option Nat) :
    Option Ptr × Shared :=
  let r := popLoop limits sh.conns now_ms sh.m_conns
  let sh := { sh with
    m_conns := r.m_conns
    deleted := sh.deleted ++ r.invalid_conns
    m_total := sh.m_total - .ofNat r.invalid_conns.length }
  match r.ptr, connects with
  | some ptr, _ => (some ptr, sh)
  | none, none => (none, sh)
  | none, some now =>
    (some sh.conns.length,
      { sh with conns := sh.conns ++ [Conn.new now], m_total := sh.m_total + 1 })

/-- `HttpConnectionPool::ReleasePtr`. -/
def ReleasePtr (limits : Limits) (sh : Shared) (ptr : Ptr) (now : Nat) : Shared :=
  let conns := raise sh.conns ptr
  if expired limits now (deref conns ptr) then
    { sh with conns := conns, deleted := sh.deleted ++ [ptr], m_total := sh.m_total - 1 }
  else { sh with conns := conns, m_conns := sh.m_conns ++ [ptr] }

/-- What `getConnection` leaves with its caller. -/
def handed : Option Ptr → Pc
  | some ptr => .borrowed ptr
  | none => .returned

/-- The steps of one call while no other one moves. -/
def alone (limits : Limits) (p : Shared × Pc) (event : Event) : Option (Shared × Pc) :=
  next limits p.1 p.2 event

variable {i now_ms now : Nat} {conns : List Conn} {c ptr : Ptr}

section Alone

variable {limits : Limits}

private theorem alone_single {sh : Shared} {pc : Pc} {event : Event} {p : Shared × Pc}
    (h : next limits sh pc event = some p) :
    Reaches (alone limits) (fun _ _ => True) (sh, pc) p :=
  Reaches.single trivial h

/-- Such steps are steps of the system. -/
theorem reaches_of_alone {p q : Shared × Pc} (h : Reaches (alone limits) (fun _ _ => True) p q)
    {calls : List Pc} (hi : calls[i]? = some p.2) :
    Reaches (step limits) (fun _ _ => True) ⟨p.1, calls⟩ ⟨q.1, calls.set i q.2⟩ := by
  obtain ⟨hlt, hget⟩ := List.getElem?_eq_some_iff.mp hi
  induction h with
  | refl =>
    rw [← hget, set_getElem_self]
    exact .refl
  | @tail q r event _ _ hstep ih =>
    refine ih.tail (l := .move i event) trivial ?_
    have hset : (calls.set i q.2)[i]? = some q.2 := getElem?_set_self hlt
    have hnext : next limits q.1 q.2 event = some r := hstep
    simp only [step, hset, Option.bind_some, hnext, Option.map_some, set_set]

theorem reaches_deleteRejected (ptr : Option Ptr) (size : Nat) (invalid_conns : List Ptr)
    (sh : Shared) :
    Reaches (alone limits) (fun _ _ => True) (sh, .popped ptr invalid_conns size)
      ({ sh with deleted := sh.deleted ++ invalid_conns }, .popped ptr [] size) := by
  induction invalid_conns generalizing sh with
  | nil =>
    rw [append_nil]
    exact .refl
  | cons conn rest ih =>
    have hrest := ih { sh with deleted := sh.deleted ++ [conn] }
    rw [append_assoc, singleton_append] at hrest
    exact (Reaches.single (l := .deleteRejected) trivial rfl).trans hrest

end Alone

/-- `getConnection` is a run of its steps. -/
theorem getConnection_alone (limits : Limits) (sh : Shared) (now_ms : Nat) (connects : Option Nat) :
    let r := getConnection limits sh now_ms connects
    Reaches (alone limits) (fun _ _ => True) (sh, .entered) (r.2, handed r.1) := by
  have hpop := (alone_single (show next limits sh .entered (.pop now_ms) = some _ from rfl)).trans
    (reaches_deleteRejected _ _ _ _)
  generalize hr : popLoop limits sh.conns now_ms sh.m_conns = r at hpop
  obtain ⟨invalid_conns, ptr, m_conns⟩ := r
  simp only [getConnection, hr]
  cases ptr with
  | some ptr => exact hpop.tail (l := .lowerTotal) trivial rfl
  | none =>
    have hlower := hpop.tail (l := .lowerTotal) trivial rfl
    cases connects with
    | none => exact hlower.tail (l := .connectFails) trivial rfl
    | some now =>
      exact (hlower.tail (l := .connect now) trivial rfl).tail (l := .raiseTotal) trivial rfl

/-- So is `ReleasePtr`. -/
theorem ReleasePtr_alone (limits : Limits) (sh : Shared) (ptr : Ptr) (now : Nat) :
    Reaches (alone limits) (fun _ _ => True) (sh, .borrowed ptr)
      (ReleasePtr limits sh ptr now, .returned) := by
  have htest := alone_single (show next limits sh (.borrowed ptr) (.release now) = some _ from rfl)
  rw [ReleasePtr]
  by_cases hexp : expired limits now (deref (raise sh.conns ptr) ptr) = true
  · rw [if_pos hexp] at htest ⊢
    exact (htest.tail (l := .delete) trivial rfl).tail (l := .lowerTotalByOne) trivial rfl
  · rw [if_neg hexp] at htest ⊢
    exact htest.tail (l := .push) trivial rfl

/-! ## Histories of calls -/

/-- The pool between two calls, the connections lent so far, in order, and the clock. -/
structure History where
  pool : State
  lent : List Ptr
  clock : Nat
  deriving DecidableEq, Repr

/-- A call of `getConnection`, the end of borrowing number `i`, or a connection that
breaks. -/
inductive Op where
  | getConnection (now_ms : Nat) (connects : Option Nat)
  | release (i : Nat) (now : Nat)
  | disconnect (ptr : Ptr)
  deriving DecidableEq, Repr

/-- When the call returns: a new connection takes time. -/
def returnTime (reused : Option Ptr) (now_ms : Nat) (connects : Option Nat) : Nat :=
  match reused with
  | some _ => now_ms
  | none => connects.getD now_ms

/-- One whole call, not before the last one. -/
def use (limits : Limits) (s : History) : Op → Option History
  | .getConnection now_ms connects =>
    let r := getConnection limits s.pool.shared now_ms connects
    let reused := (popLoop limits s.pool.shared.conns now_ms s.pool.shared.m_conns).ptr
    if s.clock ≤ now_ms ∧ now_ms ≤ connects.getD now_ms then
      some ⟨⟨r.2, s.pool.calls ++ [handed r.1]⟩, s.lent ++ r.1.toList,
        returnTime reused now_ms connects⟩
    else none
  | .release i now =>
    match s.pool.calls[i]? with
    | some (.borrowed ptr) =>
        if s.clock ≤ now then
          some ⟨⟨ReleasePtr limits s.pool.shared ptr now, s.pool.calls.set i .returned⟩,
            s.lent, now⟩
        else none
    | _ => none
  | .disconnect ptr =>
    some { s with pool := { s.pool with
      shared := { s.pool.shared with conns := disconnect s.pool.shared.conns ptr } } }

def begin : History := ⟨init, [], 0⟩

def History.conn (s : History) (c : Ptr) : Conn := deref s.pool.shared.conns c

/-- Lend only what is connected, young and not worn out, and keep what is so when it comes back to a
pool that is not full. -/
def Obeys (limits : Limits) (s : History) (op : Op) (t : History) : Prop :=
  match op with
  | .getConnection now_ms connects =>
    ∀ c, (getConnection limits s.pool.shared now_ms connects).1 = some c →
      (t.conn c).connected = true ∧ t.clock < (t.conn c).created + limits.m_maxAliveTime
        ∧ t.lent.count c ≤ limits.m_maxRequest
  | .release i now =>
    ∀ c, s.pool.calls[i]? = some (.borrowed c) → (s.conn c).connected = true →
      now < (s.conn c).created + limits.m_maxAliveTime →
      s.lent.count c < limits.m_maxRequest →
      s.pool.shared.m_conns.length < limits.m_maxSize →
      c ∈ t.pool.shared.m_conns ∧ c ∉ t.pool.shared.deleted
  | .disconnect _ => True

/-- `getConnection`: the clock is before `m_maxAliveTime`, or the first connected idle connection,
if any, is young; at the end of a borrowing: the clock is past `m_maxAliveTime`, or the connection
is not one to be kept. -/
def fresh (limits : Limits) (s : History) : Op → Bool
  | .getConnection now_ms _ =>
    decide (now_ms < limits.m_maxAliveTime)
      || (s.pool.shared.m_conns.find? fun c => (s.conn c).connected).all fun c =>
        decide (now_ms < (s.conn c).created + limits.m_maxAliveTime)
  | .release i now =>
    match s.pool.calls[i]? with
    | some (.borrowed c) =>
        decide (limits.m_maxAliveTime < now) || !(s.conn c).connected
          || decide ((s.conn c).created + limits.m_maxAliveTime ≤ now)
          || decide (limits.m_maxRequest ≤ s.lent.count c)
          || decide (limits.m_maxSize ≤ s.pool.shared.m_conns.length)
    | _ => true
  | .disconnect _ => true

abbrev Fresh (limits : Limits) (s : History) (op : Op) : Prop := fresh limits s op = true

/-! ### The connections behind the pointers -/

private theorem deref_raise_self (h : c < conns.length) : deref (raise conns c) c
      = { deref conns c with m_request := (deref conns c).m_request + 1 } := by
  simp [deref, raise, getD_eq_getElem?_getD, h]

private theorem deref_raise_ne (conns : List Conn) {d : Ptr} (h : d ≠ c) :
    deref (raise conns d) c = deref conns c := by
  simp [deref, raise, getD_eq_getElem?_getD, h]

theorem deref_append_ne (conn : Conn) (h : c ≠ conns.length) :
    deref (conns ++ [conn]) c = deref conns c := by
  rw [deref, deref, getD_eq_getElem?_getD, getD_eq_getElem?_getD]
  by_cases hlt : c < conns.length
  · rw [getElem?_append_left hlt]
  · have hle : conns.length ≤ c := Nat.not_lt.mp hlt
    have hle' : (conns ++ [conn]).length ≤ c := by
      rw [length_append, length_singleton]
      exact Nat.lt_of_le_of_ne hle (Ne.symm h)
    rw [getElem?_eq_none hle, getElem?_eq_none hle']

private theorem deref_append_new (conns : List Conn) (conn : Conn) :
    deref (conns ++ [conn]) conns.length = conn := by
  simp [deref, getD_eq_getElem?_getD]

theorem disconnect_frame (conns : List Conn) (d c : Ptr) :
    (deref (disconnect conns d) c).m_request = (deref conns c).m_request
      ∧ (deref (disconnect conns d) c).m_createTime = (deref conns c).m_createTime := by
  simp only [deref, disconnect, getD_eq_getElem?_getD, getElem?_modify]
  cases conns[c]? with
  | none => exact ⟨rfl, rfl⟩
  | some conn => by_cases hd : d = c <;> simp [hd]

/-- While no creation time is set, the loop stops at the first connected connection, once the clock
has reached `m_maxAliveTime`. -/
theorem popLoop_ptr {limits : Limits} {idle : List Ptr}
    (hunset : ∀ c, (deref conns c).m_createTime = 0) :
    (popLoop limits conns now_ms idle).ptr = if now_ms < limits.m_maxAliveTime then none
      else idle.find? fun c => (deref conns c).connected := by
  induction idle with
  | nil => simp [popLoop]
  | cons conn rest ih =>
    rw [popLoop, usable, hunset, Nat.zero_add, find?_cons]
    by_cases hold : now_ms < limits.m_maxAliveTime
    · simpa [hold] using ih
    · cases hconn : (deref conns conn).connected with
      | true => simp [hold]
      | false => simpa [hold] using ih

/-! ## The count of requests -/

/-- Every connection has been opened before it is held. -/
theorem Inv.idle_lt {s : State} (hinv : Inv s) (hc : c ∈ s.shared.m_conns) :
    c < s.shared.conns.length := by
  have hplaces := hinv.places c
  have hpos := count_pos_iff.mpr hc
  simp only [State.places, Shared.places] at hplaces
  by_contra hge
  rw [if_neg hge] at hplaces
  omega

theorem Inv.held_lt {s : State} (hinv : Inv s) (hc : .borrowed c ∈ s.calls) :
    c < s.shared.conns.length := by
  have hplaces := hinv.places c
  have hpos := one_le_held hc (mem_singleton_self c)
  simp only [State.places, Shared.places] at hplaces
  by_contra hge
  rw [if_neg hge] at hplaces
  omega

/-- What is borrowed is not idle. -/
theorem Inv.borrowed_ne {s : State} (hinv : Inv s) (hptr : .borrowed ptr ∈ s.calls)
    (hc : c ∈ s.shared.m_conns) : ptr ≠ c := by
  rintro rfl
  exact hinv.sound.not_idle hptr (mem_singleton_self ptr) hc

/-- `m_request` counts the borrowings that have ended, and what has served `m_maxRequest` requests
is not idle. -/
structure Lent (limits : Limits) (s : History) : Prop where
  inv : Inv s.pool
  known : ∀ c ∈ s.lent, c < s.pool.shared.conns.length
  unset : ∀ c, (s.conn c).m_createTime = 0
  idle : ∀ c ∈ s.pool.shared.m_conns, (s.conn c).m_request = s.lent.count c
    ∧ s.lent.count c < limits.m_maxRequest
  out : ∀ c, .borrowed c ∈ s.pool.calls → (s.conn c).m_request + 1 = s.lent.count c
    ∧ s.lent.count c ≤ limits.m_maxRequest

section Policy

variable {limits : Limits} {s t : History}

theorem use_getConnection {now_ms : Nat} {connects : Option Nat}
    (h : use limits s (.getConnection now_ms connects) = some t) :
    let r := getConnection limits s.pool.shared now_ms connects
    let reused := (popLoop limits s.pool.shared.conns now_ms s.pool.shared.m_conns).ptr
    t = ⟨⟨r.2, s.pool.calls ++ [handed r.1]⟩, s.lent ++ r.1.toList,
      returnTime reused now_ms connects⟩ := by
  simp only [use] at h
  split at h
  · exact (Option.some.inj h).symm
  · exact nomatch h

theorem use_release (h : use limits s (.release i now) = some t) :
    ∃ ptr, s.pool.calls[i]? = some (.borrowed ptr)
      ∧ t = ⟨⟨ReleasePtr limits s.pool.shared ptr now, s.pool.calls.set i .returned⟩,
          s.lent, now⟩ := by
  simp only [use] at h
  split at h
  · next ptr hi =>
      split at h
      · exact ⟨ptr, hi, (Option.some.inj h).symm⟩
      · exact nomatch h
  · exact nomatch h

/-- A whole call is a run of the separate steps. -/
theorem reaches_of_use {op : Op} (h : use limits s op = some t) :
    Reaches (step limits) (fun _ _ => True) s.pool t.pool := by
  cases op with
  | getConnection now_ms connects =>
    obtain rfl := use_getConnection h
    have hcall : Reaches (step limits) (fun _ _ => True) s.pool
        ⟨s.pool.shared, s.pool.calls ++ [.entered]⟩ :=
      Reaches.single (l := .getConnection) trivial rfl
    have hlast : (s.pool.calls ++ [.entered])[s.pool.calls.length]? = some .entered := by
      simp
    have hrun := reaches_of_alone (getConnection_alone limits s.pool.shared now_ms connects) hlast
    rw [set_append_right _ _ (Nat.le_refl _), Nat.sub_self, set_cons_zero] at hrun
    exact hcall.trans hrun
  | release i now =>
    obtain ⟨ptr, hi, rfl⟩ := use_release h
    exact reaches_of_alone (ReleasePtr_alone limits s.pool.shared ptr now) hi
  | disconnect ptr =>
    cases h
    exact Reaches.single (l := .disconnect ptr) trivial rfl

theorem lent_begin : Lent limits begin where
  inv := inv_init
  known _ hc := nomatch hc
  unset _ := rfl
  idle _ hc := nomatch hc
  out _ hc := nomatch hc

private theorem count_snoc_ne (l : List Ptr) (h : ptr ≠ c) : (l ++ [ptr]).count c = l.count c := by
  simp [count_append, h]

/-- An idle connection is lent again. -/
theorem lent_reused {invalid_conns rest : List Ptr} (hs : Lent limits s)
    (hr : popLoop limits s.pool.shared.conns now_ms s.pool.shared.m_conns
      = ⟨invalid_conns, some ptr, rest⟩) (hinv : Inv t.pool)
    (hconns : t.pool.shared.conns = s.pool.shared.conns) (hidle : t.pool.shared.m_conns = rest)
    (hcalls : t.pool.calls = s.pool.calls ++ [.borrowed ptr]) (hlent : t.lent = s.lent ++ [ptr]) :
    Lent limits t := by
  have hparts := popLoop_parts limits s.pool.shared.conns now_ms s.pool.shared.m_conns
  simp only [hr, Option.toList, singleton_append] at hparts
  have hmem : ptr ∈ s.pool.shared.m_conns := by rw [hparts]; simp
  have hconn : ∀ c, t.conn c = s.conn c := fun c => by rw [History.conn, hconns, History.conn]
  constructor
  · exact hinv
  · intro c hc
    rw [hconns]
    rw [hlent] at hc
    rcases mem_append.mp hc with hc | hc
    · exact hs.known c hc
    · rw [mem_singleton.mp hc]
      exact hs.inv.idle_lt hmem
  · intro c
    rw [hconn]
    exact hs.unset c
  · intro c hc
    rw [hidle] at hc
    -- the idle list has no connection twice
    have hnodup := hs.inv.sound.idle_once
    rw [hparts] at hnodup
    have hne : ptr ≠ c := by
      rintro rfl
      exact (nodup_cons.mp (nodup_append.mp hnodup).2.1).1 hc
    rw [hconn, hlent, count_snoc_ne _ hne]
    exact hs.idle c (by rw [hparts]; simp [hc])
  · intro c hc
    rw [hcalls] at hc
    rw [hconn, hlent]
    rcases mem_append.mp hc with hc | hc
    · rw [count_snoc_ne _ (hs.inv.borrowed_ne hc hmem).symm]
      exact hs.out c hc
    · obtain rfl := Pc.borrowed.inj (mem_singleton.mp hc)
      obtain ⟨hreq, hlt⟩ := hs.idle c hmem
      rw [count_append, count_singleton_self, hreq]
      exact ⟨rfl, hlt⟩

/-- A new connection is lent, no idle one being left. -/
theorem lent_opened (hs : Lent limits s) (hmax : 0 < limits.m_maxRequest)
    (hinv : Inv t.pool) (hconns : t.pool.shared.conns = s.pool.shared.conns ++ [Conn.new now])
    (hidle : t.pool.shared.m_conns = [])
    (hcalls : t.pool.calls = s.pool.calls ++ [.borrowed s.pool.shared.conns.length])
    (hlent : t.lent = s.lent ++ [s.pool.shared.conns.length]) : Lent limits t := by
  have hconn : ∀ {c : Ptr}, c ≠ s.pool.shared.conns.length → t.conn c = s.conn c := by
    intro c hc
    rw [History.conn, hconns, deref_append_ne _ hc, History.conn]
  have hnew : t.conn s.pool.shared.conns.length = Conn.new now := by
    rw [History.conn, hconns, deref_append_new]
  constructor
  · exact hinv
  · intro c hc
    rw [hconns, length_append, length_singleton]
    rw [hlent] at hc
    rcases mem_append.mp hc with hc | hc
    · exact Nat.lt_succ_of_lt (hs.known c hc)
    · rw [mem_singleton.mp hc]
      exact Nat.lt_succ_self _
  · intro c
    by_cases hc : c = s.pool.shared.conns.length
    · rw [hc, hnew]
      rfl
    · rw [hconn hc]
      exact hs.unset c
  · intro c hc
    rw [hidle] at hc
    exact nomatch hc
  · intro c hc
    rw [hcalls] at hc
    rw [hlent]
    rcases mem_append.mp hc with hc | hc
    · have hlt := hs.inv.held_lt hc
      rw [hconn (Nat.ne_of_lt hlt), count_snoc_ne _ (Nat.ne_of_gt hlt)]
      exact hs.out c hc
    · obtain rfl := Pc.borrowed.inj (mem_singleton.mp hc)
      have hnever : s.lent.count s.pool.shared.conns.length = 0 :=
        count_eq_zero.mpr fun hmem => Nat.lt_irrefl _ (hs.known _ hmem)
      rw [hnew, count_append, count_singleton_self, hnever]
      exact ⟨rfl, hmax⟩

/-- No connection could be opened, and no idle one is left. -/
theorem lent_failed (hs : Lent limits s) (hinv : Inv t.pool)
    (hconns : t.pool.shared.conns = s.pool.shared.conns)
    (hidle : t.pool.shared.m_conns = []) (hcalls : t.pool.calls = s.pool.calls ++ [.returned])
    (hlent : t.lent = s.lent) : Lent limits t := by
  have hconn : ∀ c, t.conn c = s.conn c := fun c => by rw [History.conn, hconns, History.conn]
  constructor
  · exact hinv
  · intro c hc
    rw [hconns]
    exact hs.known c (hlent ▸ hc)
  · intro c
    rw [hconn]
    exact hs.unset c
  · intro c hc
    rw [hidle] at hc
    exact nomatch hc
  · intro c hc
    rw [hcalls] at hc
    rw [hconn, hlent]
    rcases mem_append.mp hc with hc | hc
    · exact hs.out c hc
    · exact nomatch mem_singleton.mp hc

private theorem conns_ReleasePtr (sh : Shared) (ptr : Ptr) (now : Nat) :
    (ReleasePtr limits sh ptr now).conns = raise sh.conns ptr := by
  simp only [ReleasePtr]
  split <;> rfl

theorem idle_ReleasePtr (sh : Shared) (ptr : Ptr) (now : Nat) :
    (ReleasePtr limits sh ptr now).m_conns
      = if expired limits now (deref (raise sh.conns ptr) ptr) then sh.m_conns
        else sh.m_conns ++ [ptr] := by
  simp only [ReleasePtr]
  split <;> rfl

/-- `ReleasePtr` raises `m_request`, and keeps the connection only below the limit. -/
theorem lent_release (hs : Lent limits s) (hi : s.pool.calls[i]? = some (.borrowed ptr))
    (hinv : Inv t.pool) (hshared : t.pool.shared = ReleasePtr limits s.pool.shared ptr now)
    (hcalls : t.pool.calls = s.pool.calls.set i .returned) (hlent : t.lent = s.lent) :
    Lent limits t := by
  have hheld : .borrowed ptr ∈ s.pool.calls := mem_of_getElem? hi
  have hconns : t.pool.shared.conns = raise s.pool.shared.conns ptr := by
    rw [hshared, conns_ReleasePtr]
  have hself : t.conn ptr = { s.conn ptr with m_request := (s.conn ptr).m_request + 1 } := by
    rw [History.conn, hconns, deref_raise_self (hs.inv.held_lt hheld), History.conn]
  have hother : ∀ {c : Ptr}, ptr ≠ c → t.conn c = s.conn c := fun hne => by
    rw [History.conn, hconns, deref_raise_ne _ hne, History.conn]
  have hidle : t.pool.shared.m_conns = if expired limits now (t.conn ptr) then s.pool.shared.m_conns
        else s.pool.shared.m_conns ++ [ptr] := by
    rw [hshared, idle_ReleasePtr, History.conn, hconns]
  -- this use was counted when the connection was lent
  obtain ⟨hreq, -⟩ := hs.out ptr hheld
  constructor
  · exact hinv
  · intro c hc
    rw [hconns, length_raise]
    exact hs.known c (hlent ▸ hc)
  · intro c
    by_cases hc : ptr = c
    · subst hc
      rw [hself]
      exact hs.unset ptr
    · rw [hother hc]
      exact hs.unset c
  · intro c hc
    rw [hlent]
    rw [hidle] at hc
    split at hc
    · rw [hother (hs.inv.borrowed_ne hheld hc)]
      exact hs.idle c hc
    · next hkept =>
        rcases mem_append.mp hc with hc | hc
        · rw [hother (hs.inv.borrowed_ne hheld hc)]
          exact hs.idle c hc
        · obtain rfl := mem_singleton.mp hc
          rw [hself] at hkept ⊢
          simp only [expired, Bool.or_eq_true, decide_eq_true_eq, not_or] at hkept
          exact ⟨hreq, by omega⟩
  · intro c hc
    rw [hlent]
    obtain ⟨j, hj⟩ := getElem?_of_mem hc
    rw [hcalls] at hj
    obtain ⟨-, hret⟩ | ⟨hji, hj⟩ := getElem?_moved hj
    · exact nomatch hret
    · have hne : ptr ≠ c := by
        rintro rfl
        exact hji (hs.inv.sound.one_holder hj hi (mem_singleton_self ptr) (mem_singleton_self ptr))
      rw [hother hne]
      exact hs.out c (mem_of_getElem? hj)

/-- One whole call. -/
theorem lent_step {op : Op} (hmax : 0 < limits.m_maxRequest) (hs : Lent limits s)
    (h : use limits s op = some t) : Lent limits t := by
  have hinv : Inv t.pool := hs.inv.of_reaches (reaches_of_use h)
  cases op with
  | getConnection now_ms connects =>
    have ht := use_getConnection h
    generalize hr : popLoop limits s.pool.shared.conns now_ms s.pool.shared.m_conns = r at ht
    obtain ⟨invalid_conns, ptr, rest⟩ := r
    simp only [getConnection, hr] at ht
    cases ptr with
    | some ptr =>
      subst ht
      exact lent_reused hs hr hinv rfl rfl rfl rfl
    | none =>
      have hempty : rest = [] := by
        have := (popLoop_none (by rw [hr])).2
        rwa [hr] at this
      cases connects with
      | none =>
        subst ht
        exact lent_failed hs hinv rfl hempty rfl (append_nil _)
      | some now =>
        subst ht
        exact lent_opened hs hmax hinv rfl hempty rfl rfl
  | release i now =>
    obtain ⟨ptr, hi, rfl⟩ := use_release h
    exact lent_release hs hi hinv rfl rfl rfl
  | disconnect ptr =>
    cases h
    have hframe := disconnect_frame s.pool.shared.conns ptr
    refine ⟨hinv, fun c hc => ?_, fun c => ?_, fun c hc => ?_, fun c hc => ?_⟩
    · rw [length_disconnect]
      exact hs.known c hc
    · exact (hframe c).2.trans (hs.unset c)
    · rw [History.conn, (hframe c).1]
      exact hs.idle c hc
    · rw [History.conn, (hframe c).1]
      exact hs.out c hc

/-- A call of `getConnection` lends what it should, or an old connection that comes first. -/
theorem obeys_getConnection {connects : Option Nat} (halive : 0 < limits.m_maxAliveTime)
    (hs : Lent limits s) (ht : Lent limits t)
    (h : use limits s (.getConnection now_ms connects) = some t) :
    Obeys limits s (.getConnection now_ms connects) t
      ↔ Fresh limits s (.getConnection now_ms connects) := by
  have heq := use_getConnection h
  have hcount : ∀ c, (getConnection limits s.pool.shared now_ms connects).1 = some c →
      t.lent.count c ≤ limits.m_maxRequest := by
    intro c hc
    refine (ht.out c ?_).2
    rw [heq]
    simp [hc, handed]
  have hfirst : (popLoop limits s.pool.shared.conns now_ms s.pool.shared.m_conns).ptr
      = if now_ms < limits.m_maxAliveTime then none
        else s.pool.shared.m_conns.find? fun c => (s.conn c).connected := popLoop_ptr hs.unset
  rw [Obeys, Fresh, fresh, Bool.or_eq_true, decide_eq_true_eq]
  generalize hr : popLoop limits s.pool.shared.conns now_ms s.pool.shared.m_conns = r
    at heq hfirst
  obtain ⟨invalid_conns, ptr, rest⟩ := r
  simp only [getConnection, hr] at heq hcount ⊢
  cases ptr with
  | some ptr =>
    -- the loop has found the first one that is connected
    obtain ⟨hclock, hfound⟩ : ¬ now_ms < limits.m_maxAliveTime
        ∧ (s.pool.shared.m_conns.find? fun c => (s.conn c).connected) = some ptr := by
      split at hfirst
      · exact nomatch hfirst
      · next hclock => exact ⟨hclock, hfirst.symm⟩
    have hconnected : (s.conn ptr).connected = true := by simpa using find?_some hfound
    rw [hfound, Option.all_some, decide_eq_true_eq]
    subst heq
    constructor
    · exact fun hobeys => Or.inr (hobeys ptr rfl).2.1
    · rintro (hlt | hage) c hc
      · exact absurd hlt hclock
      · obtain rfl := Option.some.inj hc
        exact ⟨hconnected, hage, hcount _ rfl⟩
  | none =>
    refine iff_of_true (fun c hc => ?_) ?_
    · cases connects with
      | none => exact nomatch hc
      | some now =>
        cases hc
        refine ⟨?_, ?_, hcount _ rfl⟩ <;> subst heq <;>
          simp only [History.conn, deref_append_new]
        · rfl
        · exact Nat.lt_add_of_pos_right halive
    · split at hfirst
      · next hclock => exact Or.inl hclock
      · rw [← hfirst]
        exact Or.inr rfl

/-- A connection that comes back is kept unless `ReleasePtr` takes it for expired. -/
theorem kept_iff (hs : Lent limits s) (ht : Lent limits t)
    (hi : s.pool.calls[i]? = some (.borrowed ptr))
    (hshared : t.pool.shared = ReleasePtr limits s.pool.shared ptr now) :
    ptr ∈ t.pool.shared.m_conns ∧ ptr ∉ t.pool.shared.deleted
      ↔ (s.conn ptr).connected = true ∧ limits.m_maxAliveTime < now
        ∧ s.lent.count ptr < limits.m_maxRequest := by
  have hheld : .borrowed ptr ∈ s.pool.calls := mem_of_getElem? hi
  have hkept : expired limits now (deref (raise s.pool.shared.conns ptr) ptr) = false
      ↔ (s.conn ptr).connected = true ∧ limits.m_maxAliveTime < now
        ∧ s.lent.count ptr < limits.m_maxRequest := by
    have hunset := hs.unset ptr
    have hreq := (hs.out ptr hheld).1
    rw [History.conn] at hunset hreq
    rw [deref_raise_self (hs.inv.held_lt hheld)]
    simp only [expired, hunset, hreq, History.conn, Bool.or_eq_false_iff, Bool.not_eq_false',
      decide_eq_false_iff_not, and_assoc]
    exact and_congr_right fun _ => and_congr (by omega) (by omega)
  have hidle := @idle_ReleasePtr limits s.pool.shared ptr now
  rw [← hkept]
  cases hexp : expired limits now (deref (raise s.pool.shared.conns ptr) ptr) with
  | true =>
    rw [hexp, if_pos rfl, ← hshared] at hidle
    rw [hidle]
    refine iff_of_false (fun hmem => ?_) Bool.noConfusion
    exact hs.inv.sound.not_idle hheld (mem_singleton_self ptr) hmem.1
  | false =>
    rw [hexp, if_neg Bool.false_ne_true, ← hshared] at hidle
    have hmem : ptr ∈ t.pool.shared.m_conns := by simp [hidle]
    exact iff_of_true ⟨hmem, ht.inv.sound.idle_alive ptr hmem⟩ rfl

/-- The end of a borrowing keeps what it should, once the clock is past
`m_maxAliveTime`. -/
theorem obeys_release (hs : Lent limits s) (ht : Lent limits t)
    (h : use limits s (.release i now) = some t) :
    Obeys limits s (.release i now) t ↔ Fresh limits s (.release i now) := by
  obtain ⟨ptr, hi, heq⟩ := use_release h
  have hkept := kept_iff hs ht hi (show _ = ReleasePtr _ _ _ now by rw [heq])
  rw [Obeys, Fresh, fresh, hi]
  simp only [Bool.or_eq_true, decide_eq_true_eq, Bool.not_eq_true', Option.some.injEq,
    Pc.borrowed.injEq, forall_eq', hkept]
  cases (s.conn ptr).connected with
  | true => simp; omega
  | false => simp

/-- **REUSE POLICY**, for every history and its next call: exactly which calls obey. -/
theorem reuse_policy {op : Op} (halive : 0 < limits.m_maxAliveTime)
    (hmax : 0 < limits.m_maxRequest) (h : Reaches (use limits) (fun _ _ => True) begin s)
    (hop : use limits s op = some t) : Obeys limits s op t ↔ Fresh limits s op := by
  have hs : Lent limits s := h.inv lent_begin fun hs _ hstep => lent_step hmax hs hstep
  have ht := lent_step hmax hs hop
  cases op with
  | getConnection now_ms connects => exact obeys_getConnection halive hs ht hop
  | release i now => exact obeys_release hs ht hop
  | disconnect ptr => exact iff_of_true trivial rfl

end Policy

/-- A connection that is lent twice. -/
def lentTwice : List Op :=
  [.getConnection 50 (some 52), .release 0 55, .getConnection 57 none]

theorem reuse_policy_lentTwice : ∃ s t, exec (use ⟨2, 10, 5⟩) begin lentTwice = some s
      ∧ use ⟨2, 10, 5⟩ s (.release 1 60) = some t
      ∧ Obeys ⟨2, 10, 5⟩ s (.release 1 60) t ∧ s.lent.count 0 = 2
      ∧ 0 ∈ t.pool.shared.m_conns :=
  have hrun : exec (use ⟨2, 10, 5⟩) begin lentTwice = some _ := rfl
  ⟨_, _, hrun, rfl, (reuse_policy (by decide) (by decide)
    (reaches_of_exec (along_of_forall fun _ _ _ => trivial) hrun) rfl).mpr (by decide),
    by decide, by decide⟩

/-- With `m_maxAliveTime = 10` a connection opened at 50 is lent again at 5000, and one opened at 0
is deleted at 5. -/
theorem old_is_reused :
    (∃ s t, exec (use ⟨2, 10, 5⟩) begin [.getConnection 50 (some 50), .release 0 60] = some s
      ∧ use ⟨2, 10, 5⟩ s (.getConnection 5000 (some 5000)) = some t
      ∧ t.lent = [0, 0] ∧ (t.conn 0).created = 50 ∧ t.clock = 5000
      ∧ ¬ Obeys ⟨2, 10, 5⟩ s (.getConnection 5000 (some 5000)) t)
    ∧ ∃ s t, exec (use ⟨2, 10, 5⟩) begin [.getConnection 0 (some 0)] = some s
      ∧ use ⟨2, 10, 5⟩ s (.release 0 5) = some t
      ∧ t.pool.shared.deleted = [0] ∧ ¬ Obeys ⟨2, 10, 5⟩ s (.release 0 5) t := by
  constructor
  · refine ⟨_, _, rfl, rfl, rfl, rfl, rfl, fun h => ?_⟩
    exact absurd (h 0 rfl).2.1 (by decide)
  · refine ⟨_, _, rfl, rfl, rfl, fun h => ?_⟩
    exact absurd (h 0 rfl rfl (by decide) (by decide) (by decide)).1 (by decide)

end SylarConnectionPool
