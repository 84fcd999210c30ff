import Sylar.ListWindowProofs

/-! # The chunked byte array (`bytearray.cc`)

A `ByteArray` is a singly linked chain of equally long blocks with a
read/write position.  Five loops walk the chain by hand (`write`, `read`,
`setPosition`, `addCapacity`, the iovec loop), each re-deriving "position
modulo and divided by the block size".

A pointer to a node is modelled by the chain that starts at it, the null
pointer by the empty chain: `m_cur` is the chain from the current node on
and `passed` the nodes from the root up to it, so the whole chain is
`passed ++ m_cur`.  A dereference of a null node is the fault
`nullNode n`, where `n` is the number of bytes the call still had to move.

The file has the model of the raw operations, the representation invariant
`WellFormed`, one spec lemma for each operation, and the refinement onto a flat
buffer. -/

namespace SylarBytearray

open ListWindow List

/-- The `std::out_of_range` it throws, a null node it dereferences, or a local array indexed past
its end. -/
inductive Fault where
  | outOfRange
  | nullNode (left : Nat)
  | tmpIndex
  deriving DecidableEq, Repr

/-- A node of the chain: the memory block `ptr[0..size)`. -/
abbrev Node := List UInt8

/-- The fields of `ByteArray`.  `passed ++ m_cur` is the chain hanging off
`m_root`. -/
structure Bytearray where
  m_baseSize : Nat
  m_position : Nat
  m_capacity : Nat
  m_size : Nat
  m_endian : Int8
  passed : List Node
  m_cur : List Node
  deriving DecidableEq, Repr

/-- Calls on a byte array: they may fail, and the state at the point of
failure stays. -/
abbrev BA := EStateM Fault Bytearray

namespace Bytearray

/-- The chain hanging off `m_root`. -/
def m_root (s : Bytearray) : List Node := s.passed ++ s.m_cur

/-- The flat memory: the blocks one after another. -/
def flat (s : Bytearray) : List UInt8 := s.m_root.flatten

/-- `new Node(s)`; the source does not specify the contents, and no result reads them. -/
def newNode (size : Nat) : Node := List.replicate size 0

/-- The constructor; `m_endian` is left as the memory has it. -/
def new (base_size : Nat) (m_endian : Int8) : Bytearray where
  m_baseSize := base_size
  m_position := 0
  m_capacity := base_size
  m_size := 0
  m_endian := m_endian
  passed := []
  m_cur := [newNode base_size]

def getReadSize (s : Bytearray) : Nat := s.m_size - s.m_position

def getCapacity (s : Bytearray) : Nat := s.m_capacity - s.m_position

/-- `addCapacity`: append `ceil(1.0 * size / m_baseSize)` blocks for what is lacking (exact below
`2^53`). -/
def addCapacity (s : Bytearray) (size : Nat) : Bytearray :=
  if size = 0 then s
  else
    let old_cap := s.getCapacity
    if size ≤ old_cap then s
    else
      let count := (size - old_cap + s.m_baseSize - 1) / s.m_baseSize
      let grown := List.replicate count (newNode s.m_baseSize)
      let m_capacity := s.m_capacity + count * s.m_baseSize
      if old_cap = 0 then
        -- m_cur = first
        { s with m_capacity := m_capacity, passed := s.m_root, m_cur := grown }
      else if s.m_cur = [] then
        { s with m_capacity := m_capacity, passed := s.passed ++ grown }
      else
        { s with m_capacity := m_capacity, m_cur := s.m_cur ++ grown }

end Bytearray

/-! ## The loops over the chain -/

/-- The loop of `write` from offset `npos` of the first node on: the nodes passed, and the chain
`m_cur` then points to. -/
def writeLoop : List Node → Nat → List UInt8 →
    Except Fault (List Node × List Node)
  | [], _, buf => .error (.nullNode buf.length)
  | n :: next, npos, buf =>
    let ncap := n.length - npos
    if buf.length ≤ ncap then
      let n' := overwrite n npos buf
      if n.length = npos + buf.length then .ok ([n'], next)
      else .ok ([], n' :: next)
    else do
      let (done, cur) ← writeLoop next 0 (buf.drop ncap)
      pure (overwrite n npos (buf.take ncap) :: done, cur)

/-- The loop of `read`: the bytes copied out, the nodes passed, and the chain
`m_cur` then points to. -/
def readLoop : List Node → Nat → Nat →
    Except Fault (List UInt8 × List Node × List Node)
  | [], _, size => .error (.nullNode size)
  | n :: next, npos, size =>
    let ncap := n.length - npos
    if size = 0 then .ok ([], [], n :: next)
    else if size ≤ ncap then
      if n.length = npos + size then .ok (window n npos size, [n], next)
      else .ok (window n npos size, [], n :: next)
    else do
      let (out, done, cur) ← readLoop next 0 (size - ncap)
      pure (window n npos ncap ++ out, n :: done, cur)

/-- The loop of `setPosition`, started at `m_root`. -/
def seekLoop : List Node → Nat → Except Fault (List Node × List Node)
  | [], v => .error (.nullNode v)
  | n :: next, v =>
    if n.length < v then do
      let (done, cur) ← seekLoop next (v - n.length)
      pure (n :: done, cur)
    else if v = n.length then .ok ([n], next)
    else .ok ([], n :: next)

/-- An `iovec` into the chain: node number, offset in the node, length. -/
structure Iovec where
  node : Nat
  off : Nat
  len : Nat
  deriving DecidableEq, Repr

/-- The loop of `getReadBuffers` and `getWriteBuffers`: the pieces of `len` bytes from offset `npos`
of node `idx` on. -/
def iovLoop : List Node → Nat → Nat → Nat → Except Fault (List Iovec)
  | [], _, _, len => .error (.nullNode len)
  | n :: next, idx, npos, len =>
    let ncap := n.length - npos
    if len ≤ ncap then .ok [⟨idx, npos, len⟩]
    else do
      let rest ← iovLoop next (idx + 1) 0 (len - ncap)
      pure (⟨idx, npos, ncap⟩ :: rest)

/-! ## The operations -/

/-- `ByteArray::write`. -/
def write (buf : List UInt8) : BA Unit := fun s =>
  if buf.length = 0 then .ok () s
  else
    let s := s.addCapacity buf.length
    match writeLoop s.m_cur (s.m_position % s.m_baseSize) buf with
    | .error e => .error e s
    | .ok (done, cur) =>
        let m_position := s.m_position + buf.length
        .ok () { s with
          m_position := m_position
          m_size := if s.m_size < m_position then m_position else s.m_size
          passed := s.passed ++ done
          m_cur := cur }

/-- `ByteArray::read`: the bytes it leaves in `buf`. -/
def read (size : Nat) : BA (List UInt8) := fun s =>
  if s.getReadSize < size then .error .outOfRange s
  else
    match readLoop s.m_cur (s.m_position % s.m_baseSize) size with
    | .error e => .error e s
    | .ok (out, done, cur) =>
        .ok out { s with
          m_position := s.m_position + size
          passed := s.passed ++ done
          m_cur := cur }

/-- `ByteArray::setPosition`. -/
def setPosition (v : Nat) : BA Unit := fun s =>
  if s.m_capacity < v then .error .outOfRange s
  else
    let m_size := if s.m_size < v then v else s.m_size
    match seekLoop s.m_root v with
    | .error e => .error e { s with m_position := v, m_size := m_size }
    | .ok (done, cur) =>
        .ok () { s with
          m_position := v
          m_size := m_size
          passed := done
          m_cur := cur }

/-- `ByteArray::clear`. -/
def clear : BA Unit := fun s =>
  .ok () { s with
    m_position := 0
    m_size := 0
    m_capacity := s.m_baseSize
    passed := []
    m_cur := s.m_root.take 1 }

/-- `ByteArray::getWriteBuffers`. -/
def getWriteBuffers (len : Nat) : BA (List Iovec) := fun s =>
  if len = 0 then .ok [] s
  else
    let s := s.addCapacity len
    match iovLoop s.m_cur s.passed.length (s.m_position % s.m_baseSize) len with
    | .error e => .error e s
    | .ok iovs => .ok iovs s

/-- `ByteArray::getReadBuffers(buffers, len)`. -/
def getReadBuffers (len : Nat) : BA (List Iovec) := fun s =>
  let len := if s.getReadSize < len then s.getReadSize else len
  if len = 0 then .ok [] s
  else
    match iovLoop s.m_cur s.passed.length (s.m_position % s.m_baseSize) len with
    | .error e => .error e s
    | .ok iovs => .ok iovs s

/-! ## What one walk along a uniform chain does

Each loop is described once, on the flat view of the chain it walks; the
number of nodes it passes is the position divided by the block size. -/

variable {k m n : Nat} {s' : Bytearray} {b : List UInt8}

variable {npos len v : Nat}

/-- Dividing past the first block: one node, then the rest. -/
theorem div_past_block (hk : 0 < k) (h : k - npos < m) (hn : npos < k) :
    (npos + m) / k = (m - (k - npos)) / k + 1 := by
  have hsum : npos + m = (m - (k - npos)) + k := by omega
  rw [hsum, Nat.add_div_right _ hk]

/-- `write` stores its bytes at `npos` of the flat view and changes nothing
else. -/
theorem writeLoop_spec (hk : 0 < k) (c : List Node) (npos : Nat) (buf : List UInt8)
    (hu : Uniform k c) (hn : npos < k) (hb : 0 < buf.length)
    (hfit : npos + buf.length ≤ c.flatten.length) :
    ∃ done cur, writeLoop c npos buf = .ok (done, cur)
      ∧ Uniform k (done ++ cur) ∧ (done ++ cur).length = c.length
      ∧ (done ++ cur).flatten = overwrite c.flatten npos buf
      ∧ done.length = (npos + buf.length) / k := by
  induction c generalizing npos buf with
  | nil =>
    simp only [flatten_nil, length_nil] at hfit
    omega
  | cons n next ih =>
    obtain ⟨hnk, hnext⟩ := uniform_cons.mp hu
    rw [flatten_cons, length_append, hnk] at hfit
    rw [writeLoop, flatten_cons]
    by_cases hlast : buf.length ≤ n.length - npos
    · -- the rest of the buffer fits into this node
      have hin : npos + buf.length ≤ n.length := by omega
      have hlen := length_overwrite hin
      simp only [if_pos hlast]
      rw [overwrite_append_left next.flatten hin]
      by_cases hfull : n.length = npos + buf.length
      · rw [if_pos hfull]
        refine ⟨_, _, rfl, ?_, rfl, rfl, ?_⟩
        · exact uniform_cons.mpr ⟨hlen.trans hnk, hnext⟩
        · rw [← hfull, hnk, Nat.div_self hk]
          rfl
      · rw [if_neg hfull]
        refine ⟨_, _, rfl, ?_, rfl, rfl, ?_⟩
        · exact uniform_cons.mpr ⟨hlen.trans hnk, hnext⟩
        · rw [Nat.div_eq_of_lt (by omega)]
          rfl
    · -- fill this node and go on with the next one
      have hrest : (buf.drop (n.length - npos)).length
          = buf.length - (n.length - npos) := length_drop ..
      obtain ⟨done, cur, hloop, huni, hlen, hflat, hnum⟩ :=
        ih 0 (buf.drop (n.length - npos)) hnext hk (by omega) (by omega)
      simp only [if_neg hlast, hloop]
      refine ⟨_, _, rfl, ?_, ?_, ?_, ?_⟩
      · refine uniform_cons.mpr ⟨?_, huni⟩
        rw [length_overwrite (by rw [length_take]; omega), hnk]
      · rw [cons_append, length_cons, hlen, length_cons]
      · rw [cons_append, flatten_cons, hflat, overwrite_cross next.flatten (by omega) (by omega)]
      · rw [length_cons, hnum, hrest, hnk, div_past_block hk (by omega) hn, Nat.zero_add]

/-- `read` copies out the window of the flat view at `npos`. -/
theorem readLoop_spec (hk : 0 < k) (c : List Node) (npos size : Nat) (hu : Uniform k c)
    (hn : npos < k) (hb : 0 < size) (hfit : npos + size ≤ c.flatten.length) :
    ∃ done cur, readLoop c npos size = .ok (window c.flatten npos size, done, cur)
      ∧ done ++ cur = c ∧ done.length = (npos + size) / k := by
  induction c generalizing npos size with
  | nil =>
    simp only [flatten_nil, length_nil] at hfit
    omega
  | cons n next ih =>
    obtain ⟨hnk, hnext⟩ := uniform_cons.mp hu
    rw [flatten_cons, length_append, hnk] at hfit
    rw [readLoop, flatten_cons, if_neg (by omega)]
    by_cases hlast : size ≤ n.length - npos
    · rw [if_pos hlast, window_append_left next.flatten (by omega)]
      by_cases hfull : n.length = npos + size
      · rw [if_pos hfull]
        refine ⟨_, _, rfl, rfl, ?_⟩
        rw [← hfull, hnk, Nat.div_self hk]
        rfl
      · rw [if_neg hfull]
        refine ⟨_, _, rfl, rfl, ?_⟩
        rw [Nat.div_eq_of_lt (by omega)]
        rfl
    · obtain ⟨done, cur, hloop, hchain, hnum⟩ :=
        ih 0 (size - (n.length - npos)) hnext hk (by omega) (by omega)
      simp only [if_neg hlast, hloop]
      rw [window_cross next.flatten (by omega) (by omega)]
      refine ⟨_, _, rfl, ?_, ?_⟩
      · rw [cons_append, hchain]
      · rw [length_cons, hnum, hnk, div_past_block hk (by omega) hn, Nat.zero_add]

/-- `setPosition` ends on node number `v / k`. -/
theorem seekLoop_spec (hk : 0 < k) (c : List Node) (v : Nat) (hne : c ≠ []) (hu : Uniform k c)
    (hv : v ≤ c.flatten.length) :
    ∃ done cur, seekLoop c v = .ok (done, cur) ∧ done ++ cur = c ∧ done.length = v / k := by
  induction c generalizing v with
  | nil => exact absurd rfl hne
  | cons n next ih =>
    obtain ⟨hnk, hnext⟩ := uniform_cons.mp hu
    rw [flatten_cons, length_append, hnk] at hv
    rw [seekLoop]
    by_cases hfar : n.length < v
    · have hne : next ≠ [] := by
        intro h
        rw [h, flatten_nil, length_nil] at hv
        omega
      obtain ⟨done, cur, hloop, hchain, hnum⟩ := ih (v - n.length) hne hnext (by omega)
      simp only [if_pos hfar, hloop]
      refine ⟨_, _, rfl, ?_, ?_⟩
      · rw [cons_append, hchain]
      · have hsum : v = (v - k) + k := by omega
        rw [length_cons, hnum, hnk]
        conv_rhs => rw [hsum, Nat.add_div_right _ hk]
    · rw [if_neg hfar]
      by_cases hend : v = n.length
      · rw [if_pos hend]
        refine ⟨_, _, rfl, rfl, ?_⟩
        rw [hend, hnk, Nat.div_self hk]
        rfl
      · rw [if_neg hend]
        refine ⟨_, _, rfl, rfl, ?_⟩
        rw [Nat.div_eq_of_lt (by omega)]
        rfl

variable {idx : Nat} {iovs : List Iovec} {buf : List UInt8} {α β ε σ : Type} {f : α → EStateM ε σ β}
  {x : EStateM ε σ α}

/-- What the loop does at a node: the last piece, or one up to its end. -/
theorem iovLoop_cons_ok {n : Node} {next : List Node}
    (h : iovLoop (n :: next) idx npos len = .ok iovs) :
    (len ≤ n.length - npos ∧ iovs = [⟨idx, npos, len⟩])
      ∨ (n.length - npos < len ∧ ∃ rest, iovs = ⟨idx, npos, n.length - npos⟩ :: rest
        ∧ iovLoop next (idx + 1) 0 (len - (n.length - npos)) = .ok rest) := by
  rw [iovLoop] at h
  by_cases hlast : len ≤ n.length - npos
  · rw [if_pos hlast] at h
    exact Or.inl ⟨hlast, (Except.ok.inj h).symm⟩
  · rw [if_neg hlast] at h
    cases hrest : iovLoop next (idx + 1) 0 (len - (n.length - npos)) with
    | error e =>
      rw [hrest] at h
      cases h
    | ok rest =>
      rw [hrest] at h
      exact Or.inr ⟨Nat.not_le.mp hlast, rest, (Except.ok.inj h).symm, rfl⟩

/-- The pieces of an iovec list add up to what was asked for. -/
theorem iovLoop_total {c : List Node} (h : iovLoop c idx npos len = .ok iovs) :
    (iovs.map Iovec.len).sum = len := by
  induction c generalizing idx npos len iovs with
  | nil => exact nomatch h
  | cons n next ih =>
    rcases iovLoop_cons_ok h with ⟨-, rfl⟩ | ⟨hmore, rest, rfl, hrest⟩
    · exact Nat.add_zero len
    · rw [map_cons, sum_cons, ih hrest]
      show n.length - npos + (len - (n.length - npos)) = len
      omega

/-! ## Scatter and gather

What `recvmsg` and `sendmsg` do with a list of pieces. -/

/-- The bytes the pieces point to, in order. -/
def gather (chain : List Node) (iovs : List Iovec) : List UInt8 :=
  iovs.flatMap fun v => window (chain.getD v.node []) v.off v.len

/-- Fill the pieces in order with `data`. -/
def scatter : List Node → List Iovec → List UInt8 → List Node
  | chain, [], _ => chain
  | chain, v :: iovs, data =>
    scatter
      (chain.modify v.node (fun n => overwrite n v.off (data.take v.len)))
      iovs (data.drop v.len)

/-- The first piece of a walk lies in the first node of the walk. -/
theorem gather_cons (pre next : List Node) (n : Node) (off len : Nat) (iovs : List Iovec) :
    gather (pre ++ n :: next) (⟨pre.length, off, len⟩ :: iovs)
      = window n off len ++ gather (pre ++ n :: next) iovs := by
  simp [gather]

theorem scatter_cons (pre next : List Node) (n : Node) (off len : Nat)
    (iovs : List Iovec) (data : List UInt8) :
    scatter (pre ++ n :: next) (⟨pre.length, off, len⟩ :: iovs) data
      = scatter (pre ++ overwrite n off (data.take len) :: next) iovs (data.drop len) := by
  rw [scatter]
  congr 1
  rw [modify_eq_take_cons_drop (by simp)]
  simp

/-- Filling with nothing changes nothing. -/
theorem scatter_nil (iovs : List Iovec) (chain : List Node) : scatter chain iovs [] = chain := by
  induction iovs generalizing chain with
  | nil => rfl
  | cons v iovs ih =>
    rw [scatter, drop_nil, ih, take_nil]
    simp only [overwrite_nil]
    exact modify_id ..

/-- The iovec loop lists the window `[npos, npos + len)` of the chain: gathering the pieces reads
it, scattering over them overwrites its front.  Of the nodes before the walk only the number
matters, since a scatter changes them on the way. -/
theorem iovLoop_spec (hk : 0 < k) (c : List Node) (idx npos len : Nat) (hu : Uniform k c)
    (hn : npos < k) (hl : 0 < len) (hfit : npos + len ≤ c.flatten.length) :
    ∃ iovs, iovLoop c idx npos len = .ok iovs ∧ ∀ pre : List Node, pre.length = idx →
        gather (pre ++ c) iovs = window c.flatten npos len
        ∧ ∀ data : List UInt8, data.length ≤ len → ∃ c', scatter (pre ++ c) iovs data = pre ++ c'
            ∧ Uniform k c' ∧ c'.length = c.length
            ∧ c'.flatten = overwrite c.flatten npos data := by
  induction c generalizing idx npos len with
  | nil =>
    simp only [flatten_nil, length_nil] at hfit
    omega
  | cons n next ih =>
    obtain ⟨hnk, hnext⟩ := uniform_cons.mp hu
    rw [flatten_cons, length_append, hnk] at hfit
    rw [iovLoop, flatten_cons]
    by_cases hlast : len ≤ n.length - npos
    · rw [if_pos hlast]
      refine ⟨_, rfl, ?_⟩
      rintro pre rfl
      refine ⟨?_, ?_⟩
      · rw [gather_cons, window_append_left next.flatten (by omega)]
        simp [gather]
      · intro data hd
        have hin : npos + data.length ≤ n.length := by omega
        refine ⟨overwrite n npos data :: next, ?_, ?_, rfl, ?_⟩
        · rw [scatter_cons, take_of_length_le hd, scatter]
        · exact uniform_cons.mpr ⟨(length_overwrite hin).trans hnk, hnext⟩
        · rw [flatten_cons, overwrite_append_left next.flatten hin]
    · obtain ⟨iovs, hloop, hiovs⟩ :=
        ih (idx + 1) 0 (len - (n.length - npos)) hnext hk (by omega) (by omega)
      simp only [if_neg hlast, hloop]
      refine ⟨_, rfl, ?_⟩
      rintro pre rfl
      have hstep : ∀ m : Node, (pre ++ [m]).length = pre.length + 1 := by
        intro m
        rw [length_append, length_singleton]
      have hmove : ∀ (m : Node) (d : List Node), pre ++ m :: d = (pre ++ [m]) ++ d := by
        intro m d
        rw [append_assoc, singleton_append]
      refine ⟨?_, ?_⟩
      · rw [gather_cons, hmove, (hiovs _ (hstep n)).1,
          window_cross next.flatten (by omega) (by omega)]
      · intro data hd
        by_cases hshort : data.length ≤ n.length - npos
        · -- the data ends inside this node; the later pieces stay untouched
          have hin : npos + data.length ≤ n.length := by omega
          refine ⟨overwrite n npos data :: next, ?_, ?_, rfl, ?_⟩
          · rw [scatter_cons, take_of_length_le hshort, drop_eq_nil_of_le hshort, scatter_nil]
          · exact uniform_cons.mpr ⟨(length_overwrite hin).trans hnk, hnext⟩
          · rw [flatten_cons, overwrite_append_left next.flatten hin]
        · obtain ⟨c', hc', huni, hlen, hflat⟩ :=
            (hiovs _ (hstep (overwrite n npos (data.take (n.length - npos))))).2
              (data.drop (n.length - npos)) (by rw [length_drop]; omega)
          refine ⟨overwrite n npos (data.take (n.length - npos)) :: c', ?_, ?_, ?_, ?_⟩
          · rw [scatter_cons, hmove, hc', ← hmove]
          · refine uniform_cons.mpr ⟨?_, huni⟩
            rw [length_overwrite (by rw [length_take]; omega), hnk]
          · rw [length_cons, hlen, length_cons]
          · rw [flatten_cons, hflat, overwrite_cross next.flatten (by omega) (by omega)]

/-! ## The representation invariant -/

/-- The representation invariant: `m_root` is not null, the chain has
`m_capacity / m_baseSize` blocks of `m_baseSize` bytes, the position lies in
the data and the data in the chain, and `m_cur` is node number
`m_position / m_baseSize`. -/
structure WellFormed (s : Bytearray) : Prop where
  base_pos : 1 ≤ s.m_baseSize
  root_ne : s.m_root ≠ []
  uniform : Uniform s.m_baseSize s.m_root
  capacity_eq : s.m_capacity = s.m_root.length * s.m_baseSize
  position_le : s.m_position ≤ s.m_size
  size_le : s.m_size ≤ s.m_capacity
  cur_number : s.passed.length = s.m_position / s.m_baseSize

namespace WellFormed

variable {s : Bytearray}

theorem flat_length (h : WellFormed s) : s.flat.length = s.m_capacity := by
  rw [Bytearray.flat, h.uniform.length_flatten, h.capacity_eq]

theorem uniform_passed (h : WellFormed s) : Uniform s.m_baseSize s.passed :=
  (uniform_append.mp h.uniform).1

theorem uniform_cur (h : WellFormed s) : Uniform s.m_baseSize s.m_cur :=
  (uniform_append.mp h.uniform).2

theorem flat_eq (s : Bytearray) : s.flat = s.passed.flatten ++ s.m_cur.flatten := by
  rw [Bytearray.flat, Bytearray.m_root, flatten_append]

/-- The position is the bytes of the passed nodes plus the offset in the
current one. -/
theorem position_split (h : WellFormed s) :
    s.passed.flatten.length + s.m_position % s.m_baseSize = s.m_position := by
  rw [h.uniform_passed.length_flatten, h.cur_number, Nat.mul_comm]
  exact Nat.div_add_mod _ _

theorem offset_lt (h : WellFormed s) : s.m_position % s.m_baseSize < s.m_baseSize :=
  Nat.mod_lt _ h.base_pos

/-- What lies ahead of the position is what the chain from `m_cur` holds
behind the offset. -/
theorem room (h : WellFormed s) :
    s.m_position % s.m_baseSize + s.getCapacity = s.m_cur.flatten.length := by
  have hlen := h.flat_length
  rw [flat_eq, length_append] at hlen
  have hsplit := h.position_split
  have hpos := h.position_le
  have hsize := h.size_le
  rw [Bytearray.getCapacity]
  omega

/-- `m_cur` is null exactly at the end of the chain. -/
theorem cur_null_iff (h : WellFormed s) : s.m_cur = [] ↔ s.m_position = s.m_capacity := by
  have hroom := h.room
  have hpos := h.position_le
  have hsize := h.size_le
  rw [Bytearray.getCapacity] at hroom
  constructor
  · intro hnil
    rw [hnil, flatten_nil, length_nil] at hroom
    omega
  · intro hend
    cases hcur : s.m_cur with
    | nil => rfl
    | cons n next =>
      have hn := (uniform_cons.mp (hcur ▸ h.uniform_cur)).1
      have hlt := h.offset_lt
      rw [hcur, flatten_cons, length_append, hn] at hroom
      omega

/-- The number of nodes is the capacity divided by the block size. -/
theorem chain_length (h : WellFormed s) : s.m_root.length = s.m_capacity / s.m_baseSize := by
  rw [h.capacity_eq, Nat.mul_div_cancel _ h.base_pos]

variable {cur passed : List Node}

/-- A chain of the same shape, cut at the position. -/
theorem recut (h : WellFormed s) {p size : Nat} (huni : Uniform s.m_baseSize (passed ++ cur))
    (hlen : (passed ++ cur).length = s.m_root.length) (hpos : p ≤ size)
    (hsize : size ≤ s.m_capacity) (hnum : passed.length = p / s.m_baseSize) :
    WellFormed { s with m_position := p, m_size := size, passed, m_cur := cur } where
  base_pos := h.base_pos
  root_ne := length_pos_iff.mp (hlen ▸ length_pos_iff.mpr h.root_ne)
  uniform := huni
  capacity_eq := h.capacity_eq.trans (by rw [← hlen]; rfl)
  position_le := hpos
  size_le := hsize
  cur_number := hnum

/-- Fresh blocks behind the chain. -/
theorem extend (h : WellFormed s) {grown : List Node} {capacity : Nat}
    (hroot : passed ++ cur = s.m_root ++ grown) (hgrown : Uniform s.m_baseSize grown)
    (hcap : capacity = s.m_capacity + grown.length * s.m_baseSize)
    (hnum : passed.length = s.m_position / s.m_baseSize) :
    WellFormed { s with m_capacity := capacity, passed, m_cur := cur } where
  base_pos := h.base_pos
  root_ne := by
    rw [Bytearray.m_root, hroot]
    exact append_ne_nil_of_left_ne_nil h.root_ne _
  uniform := by
    rw [Bytearray.m_root, hroot]
    exact uniform_append.mpr ⟨h.uniform, hgrown⟩
  capacity_eq := by
    rw [Bytearray.m_root, hroot, length_append, Nat.add_mul, ← h.capacity_eq, hcap]
  position_le := h.position_le
  size_le := by
    have := h.size_le
    show s.m_size ≤ capacity
    omega
  cur_number := hnum

/-- The chain is cut at the position: the flat memory and the other fields say all. -/
theorem eq_of_flat_eq (h : WellFormed s) (h' : WellFormed s') (hbase : s'.m_baseSize = s.m_baseSize)
    (hpos : s'.m_position = s.m_position) (hcap : s'.m_capacity = s.m_capacity)
    (hsize : s'.m_size = s.m_size) (hend : s'.m_endian = s.m_endian) (hflat : s'.flat = s.flat) :
    s' = s := by
  have hroot : s'.m_root = s.m_root := by
    have huni := h'.uniform
    rw [hbase] at huni
    refine huni.flatten_inj h.uniform ?_ hflat
    rw [h'.chain_length, h.chain_length, hcap, hbase]
  have hlen : s'.passed.length = s.passed.length := by
    rw [h'.cur_number, h.cur_number, hpos, hbase]
  obtain ⟨hpassed, hcur⟩ := append_inj hroot hlen
  cases s
  cases s'
  simp_all

end WellFormed

/-- A fresh array satisfies the invariant. -/
theorem inv_new {base_size : Nat} (m_endian : Int8) (h : 1 ≤ base_size) :
    WellFormed (Bytearray.new base_size m_endian) where
  base_pos := h
  root_ne := by simp [Bytearray.m_root, Bytearray.new]
  uniform := uniform_cons.mpr ⟨length_replicate .., uniform_nil _⟩
  capacity_eq := (Nat.one_mul _).symm
  position_le := Nat.le_refl _
  size_le := Nat.zero_le _
  cur_number := (Nat.zero_div _).symm

/-! ## Growing -/

/-- What `addCapacity(size)` leaves: fresh blocks behind, room for `size` bytes, and less than a
block too much. -/
structure Grown (s : Bytearray) (size : Nat) (s' : Bytearray) : Prop where
  inv : WellFormed s'
  base : s'.m_baseSize = s.m_baseSize
  endian : s'.m_endian = s.m_endian
  position : s'.m_position = s.m_position
  data : s'.m_size = s.m_size
  flat : ∃ fresh, s'.flat = s.flat ++ fresh
  room : s.m_position + size ≤ s'.m_capacity
  tight : s'.m_capacity = s.m_capacity
    ∨ s'.m_capacity < s.m_position + size + s.m_baseSize

/-- The number of appended blocks covers what is missing, with less than one
block to spare. -/
theorem count_bounds (missing : Nat) {base : Nat} (hb : 1 ≤ base) :
    missing ≤ (missing + base - 1) / base * base
      ∧ (missing + base - 1) / base * base < missing + base := by
  have hmod := Nat.mod_lt (missing + base - 1) hb
  have hdiv := Nat.div_add_mod (missing + base - 1) base
  rw [Nat.mul_comm] at hdiv
  constructor <;> omega

theorem addCapacity_spec {s : Bytearray} (h : WellFormed s) (size : Nat) :
    Grown s size (s.addCapacity size) := by
  have hpos := h.position_le
  have hsize := h.size_le
  have hfree : s.getCapacity = s.m_capacity - s.m_position := rfl
  rw [Bytearray.addCapacity]
  by_cases h0 : size = 0
  · rw [if_pos h0]
    exact ⟨h, rfl, rfl, rfl, rfl, ⟨[], (append_nil _).symm⟩, by omega, Or.inl rfl⟩
  rw [if_neg h0]
  by_cases hfit : size ≤ s.getCapacity
  · simp only [if_pos hfit]
    exact ⟨h, rfl, rfl, rfl, rfl, ⟨[], (append_nil _).symm⟩, by omega, Or.inl rfl⟩
  · simp only [if_neg hfit]
    obtain ⟨hlo, hhi⟩ := count_bounds (size - s.getCapacity) h.base_pos
    generalize hcount : (size - s.getCapacity + s.m_baseSize - 1) / s.m_baseSize = count at hlo hhi
    have hgrown : Uniform s.m_baseSize (replicate count (Bytearray.newNode s.m_baseSize)) :=
      uniform_replicate (length_replicate ..)
    have hcap : s.m_capacity + count * s.m_baseSize = s.m_capacity
        + (replicate count (Bytearray.newNode s.m_baseSize)).length * s.m_baseSize := by
      rw [length_replicate]
    have hroom : s.m_position + size ≤ s.m_capacity + count * s.m_baseSize := by
      omega
    have htight : s.m_capacity + count * s.m_baseSize < s.m_position + size + s.m_baseSize := by
      omega
    by_cases hend : s.getCapacity = 0
    · -- `m_cur` was null and moves onto the first fresh block
      rw [if_pos hend]
      have hnull : s.m_cur = [] := by
        rw [h.cur_null_iff]
        omega
      have hnum : s.m_root.length = s.m_position / s.m_baseSize := by
        rw [Bytearray.m_root, hnull, append_nil]
        exact h.cur_number
      exact ⟨h.extend rfl hgrown hcap hnum, rfl, rfl, rfl, rfl, ⟨_, flatten_append⟩, hroom,
        Or.inr htight⟩
    · rw [if_neg hend]
      have hcur : s.m_cur ≠ [] := by
        intro hnil
        rw [h.cur_null_iff] at hnil
        omega
      rw [if_neg hcur]
      have hroot : s.passed ++ (s.m_cur ++ replicate count (Bytearray.newNode s.m_baseSize)) =
        s.m_root ++ replicate count (Bytearray.newNode s.m_baseSize) := by
        rw [Bytearray.m_root, append_assoc]
      refine ⟨h.extend hroot hgrown hcap h.cur_number, rfl, rfl, rfl, rfl,
        ⟨(replicate count (Bytearray.newNode s.m_baseSize)).flatten, ?_⟩, hroom, Or.inr htight⟩
      rw [Bytearray.flat, Bytearray.m_root, hroot]
      exact flatten_append

/-! ## One spec for each operation -/

/-- What storing `buf` at the position leaves, where the array may have grown
for `room` bytes. -/
structure Stored (s : Bytearray) (room : Nat) (buf : List UInt8)
    (s' : Bytearray) : Prop where
  inv : WellFormed s'
  base : s'.m_baseSize = s.m_baseSize
  endian : s'.m_endian = s.m_endian
  position : s'.m_position = s.m_position + buf.length
  data : s'.m_size = max s.m_size (s.m_position + buf.length)
  flat : ∃ fresh, s.m_position + buf.length ≤ (s.flat ++ fresh).length
    ∧ s'.flat = overwrite (s.flat ++ fresh) s.m_position buf
  tight : s'.m_capacity = s.m_capacity
    ∨ s'.m_capacity < s.m_position + room + s.m_baseSize

/-- What a call that writes `buf` leaves: no more blocks than `buf` needs. -/
abbrev Wrote (s : Bytearray) (buf : List UInt8) (s' : Bytearray) : Prop :=
  Stored s buf.length buf s'

/-- What a call that takes `n` bytes from the position leaves. -/
structure Took (s : Bytearray) (n : Nat) (s' : Bytearray) : Prop where
  inv : WellFormed s'
  base : s'.m_baseSize = s.m_baseSize
  endian : s'.m_endian = s.m_endian
  position : s'.m_position = s.m_position + n
  data : s'.m_size = s.m_size
  flat : s'.flat = s.flat
  capacity : s'.m_capacity = s.m_capacity

/-- What `setPosition(v)` leaves. -/
structure Moved (s : Bytearray) (v : Nat) (s' : Bytearray) : Prop where
  inv : WellFormed s'
  base : s'.m_baseSize = s.m_baseSize
  endian : s'.m_endian = s.m_endian
  position : s'.m_position = v
  data : s'.m_size = max s.m_size v
  flat : s'.flat = s.flat
  capacity : s'.m_capacity = s.m_capacity

/-- What storing `buf` at the position leaves of an array that has the room for it. -/
structure Overwrote (s : Bytearray) (buf : List UInt8) (s' : Bytearray) : Prop where
  inv : WellFormed s'
  base : s'.m_baseSize = s.m_baseSize
  endian : s'.m_endian = s.m_endian
  position : s'.m_position = s.m_position + buf.length
  data : s'.m_size = max s.m_size (s.m_position + buf.length)
  flat : s'.flat = overwrite s.flat s.m_position buf
  capacity : s'.m_capacity = s.m_capacity

/-- Growing and storing is a store. -/
theorem Grown.stored {s s₁ s' : Bytearray} {n : Nat} (hg : Grown s n s₁) (ho : Overwrote s₁ buf s')
    (hle : buf.length ≤ n) :
    Stored s n buf s' where
  inv := ho.inv
  base := ho.base.trans hg.base
  endian := ho.endian.trans hg.endian
  position := by rw [ho.position, hg.position]
  data := by rw [ho.data, hg.data, hg.position]
  flat := by
    obtain ⟨fresh, hfresh⟩ := hg.flat
    have hroom := hg.room
    refine ⟨fresh, ?_, ?_⟩
    · rw [← hfresh, hg.inv.flat_length]
      omega
    · rw [ho.flat, hfresh, hg.position]
  tight := by
    rw [ho.capacity]
    exact hg.tight

theorem wrote_nil {s : Bytearray} (h : WellFormed s) : Wrote s [] s where
  inv := h
  base := rfl
  endian := rfl
  position := rfl
  data := by
    have := h.position_le
    rw [length_nil]
    omega
  flat := by
    have h1 := h.position_le
    have h2 := h.size_le
    refine ⟨[], ?_, ?_⟩
    · rw [append_nil, h.flat_length, length_nil]
      omega
    · rw [append_nil, overwrite_nil]
  tight := Or.inl rfl

/-- The number of the node the position has moved to. -/
theorem cur_number_add {s : Bytearray} (h : WellFormed s) {done : List Node}
    (hd : done.length = (s.m_position % s.m_baseSize + m) / s.m_baseSize) :
    (s.passed ++ done).length = (s.m_position + m) / s.m_baseSize := by
  have hsum : s.m_position + m = s.m_position % s.m_baseSize + m
      + s.m_baseSize * (s.m_position / s.m_baseSize) := by
    have := Nat.div_add_mod s.m_position s.m_baseSize
    omega
  rw [length_append, h.cur_number, hd, hsum, Nat.add_mul_div_left _ _ h.base_pos, Nat.add_comm]

/-- `write` of at least one byte: what it leaves of the grown array. -/
theorem write_overwrites {s : Bytearray} (h : WellFormed s) (h0 : buf.length ≠ 0) :
    ∃ s', write buf s = .ok () s' ∧ Overwrote (s.addCapacity buf.length) buf s' := by
  have hg := addCapacity_spec h buf.length
  generalize hs1 : s.addCapacity buf.length = s1 at hg
  have h1 := hg.inv
  have hroom : s1.m_position % s1.m_baseSize + buf.length ≤ s1.m_cur.flatten.length := by
    have hr := h1.room
    have hcap : s1.getCapacity = s1.m_capacity - s1.m_position := rfl
    have := hg.room
    have := hg.position
    omega
  obtain ⟨done, cur, hloop, huni, hlen, hflat, hnum⟩ :=
    writeLoop_spec h1.base_pos s1.m_cur _ buf h1.uniform_cur h1.offset_lt (by omega) hroom
  have hdata : (if s1.m_size < s1.m_position + buf.length then s1.m_position + buf.length else
    s1.m_size) = max s1.m_size (s1.m_position + buf.length) := by
    split <;> omega
  have hroot : s1.passed ++ done ++ cur = s1.passed ++ (done ++ cur) := append_assoc ..
  refine ⟨{ s1 with
      m_position := s1.m_position + buf.length
      m_size := max s1.m_size (s1.m_position + buf.length)
      passed := s1.passed ++ done
      m_cur := cur }, ?_, ?_⟩
  · rw [write, if_neg h0]
    simp only [hs1, hloop, hdata]
  · have hfits := hg.room
    have hpos := hg.position
    have hsz := h1.size_le
    refine ⟨h1.recut ?_ ?_ (le_max_right _ _) (by omega) (cur_number_add h1 hnum), rfl, rfl, rfl,
      rfl, ?_, rfl⟩
    · rw [hroot]
      exact uniform_append.mpr ⟨h1.uniform_passed, huni⟩
    · rw [hroot, length_append, hlen, Bytearray.m_root, length_append]
    · rw [Bytearray.flat, Bytearray.m_root, hroot, flatten_append, hflat, ← overwrite_append_right,
        ← WellFormed.flat_eq, h1.position_split]

/-- `write` stores its argument at the position and changes no other
byte. -/
theorem write_spec {s : Bytearray} (h : WellFormed s) (buf : List UInt8) :
    ∃ s', write buf s = .ok () s' ∧ Wrote s buf s' := by
  by_cases h0 : buf.length = 0
  · refine ⟨s, ?_, ?_⟩
    · rw [write, if_pos h0]
    · rw [length_eq_zero_iff.mp h0]
      exact wrote_nil h
  · obtain ⟨s', hwrite, ho⟩ := write_overwrites h h0
    exact ⟨s', hwrite, (addCapacity_spec h buf.length).stored ho (Nat.le_refl _)⟩

/-- `read` of at least one available byte returns the window at the
position and changes no byte. -/
theorem read_spec {s : Bytearray} (h : WellFormed s) (hn : 0 < n) (hav : n ≤ s.getReadSize) :
    ∃ s', read n s = .ok (window s.flat s.m_position n) s' ∧ Took s n s' := by
  have hrs : s.getReadSize = s.m_size - s.m_position := rfl
  have hpos := h.position_le
  have hsize := h.size_le
  have hroom : s.m_position % s.m_baseSize + n ≤ s.m_cur.flatten.length := by
    have hr := h.room
    have hcap : s.getCapacity = s.m_capacity - s.m_position := rfl
    omega
  obtain ⟨done, cur, hloop, hchain, hnum⟩ :=
    readLoop_spec h.base_pos s.m_cur _ n h.uniform_cur h.offset_lt hn hroom
  have hroot : s.passed ++ done ++ cur = s.m_root := by
    rw [append_assoc, hchain, Bytearray.m_root]
  refine ⟨{ s with
      m_position := s.m_position + n
      passed := s.passed ++ done
      m_cur := cur }, ?_, ?_⟩
  · have hwin : window s.m_cur.flatten (s.m_position % s.m_baseSize) n
        = window s.flat s.m_position n := by
      rw [WellFormed.flat_eq, ← window_append_right s.passed.flatten, h.position_split]
    rw [read, if_neg (by omega), hloop, hwin]
  · refine ⟨h.recut (hroot ▸ h.uniform) (congrArg length hroot) (by omega) hsize
      (cur_number_add h hnum), rfl, rfl, rfl, rfl, ?_, rfl⟩
    rw [Bytearray.flat, Bytearray.m_root, hroot, Bytearray.flat]

/-- A `read` of more than is there throws and changes nothing. -/
theorem read_throws {s : Bytearray} (h : s.getReadSize < n) : read n s = .error .outOfRange s := by
  rw [read, if_pos h]

/-- A `read` of no bytes is a no-op in front of a node and dereferences the
null node behind the last one. -/
theorem read_zero (s : Bytearray) :
    read 0 s = if s.m_cur = [] then .error (.nullNode 0) s else .ok [] s := by
  rw [read, if_neg (Nat.not_lt_zero _)]
  cases hcur : s.m_cur with
  | nil => rfl
  | cons n next =>
    rw [readLoop, if_pos rfl, if_neg (by simp)]
    simp only [Nat.add_zero, append_nil]
    rw [← hcur]

/-- `setPosition` inside the capacity succeeds. -/
theorem setPosition_spec {s : Bytearray} (h : WellFormed s) (hv : v ≤ s.m_capacity) :
    ∃ s', setPosition v s = .ok () s' ∧ Moved s v s' := by
  have hsize := h.size_le
  obtain ⟨done, cur, hloop, hchain, hnum⟩ := seekLoop_spec h.base_pos s.m_root v h.root_ne h.uniform
      (by rw [← Bytearray.flat, h.flat_length]; exact hv)
  have hdata : (if s.m_size < v then v else s.m_size) = max s.m_size v := by
    split <;> omega
  refine ⟨{ s with
      m_position := v
      m_size := max s.m_size v
      passed := done
      m_cur := cur }, ?_, ?_⟩
  · rw [setPosition, if_neg (by omega)]
    simp only [hloop, hdata]
  · refine ⟨h.recut (hchain ▸ h.uniform) (congrArg length hchain) (le_max_right _ _) (by omega)
      hnum, rfl, rfl, rfl, rfl, ?_, rfl⟩
    rw [Bytearray.flat, Bytearray.m_root, hchain, Bytearray.flat]

theorem setPosition_throws {s : Bytearray} (h : s.m_capacity < v) :
    setPosition v s = .error .outOfRange s := by
  rw [setPosition, if_pos h]

/-- `clear` keeps the first block only. -/
theorem clear_spec {s : Bytearray} (h : WellFormed s) :
    ∃ s', clear s = .ok () s' ∧ WellFormed s' ∧ s'.m_baseSize = s.m_baseSize
      ∧ s'.m_position = 0 ∧ s'.m_size = 0
      ∧ s'.m_capacity = s.m_baseSize := by
  refine ⟨_, rfl, ⟨h.base_pos, ?_, ?_, ?_, Nat.le_refl _, Nat.zero_le _,
    (Nat.zero_div _).symm⟩, rfl, rfl, rfl, rfl⟩
  · show [] ++ s.m_root.take 1 ≠ []
    simpa using h.root_ne
  · show Uniform s.m_baseSize ([] ++ s.m_root.take 1)
    intro n hn
    exact h.uniform n (mem_of_mem_take hn)
  · show s.m_baseSize = ([] ++ s.m_root.take 1).length * s.m_baseSize
    have hne := length_pos_iff.mpr h.root_ne
    rw [nil_append, length_take, Nat.min_eq_left hne, Nat.one_mul]

/-- `getWriteBuffers` only grows the array; a scatter over its pieces overwrites the flat memory at
the position. -/
theorem getWriteBuffers_spec {s : Bytearray} (h : WellFormed s) (hlen : 0 < len) :
    ∃ iovs, getWriteBuffers len s = .ok iovs (s.addCapacity len) ∧ (iovs.map Iovec.len).sum = len
      ∧ ∀ data : List UInt8, data.length ≤ len → ∃ cur, scatter (s.addCapacity len).m_root iovs data
            = (s.addCapacity len).passed ++ cur
          ∧ Uniform (s.addCapacity len).m_baseSize cur
          ∧ cur.length = (s.addCapacity len).m_cur.length
          ∧ ((s.addCapacity len).passed ++ cur).flatten
            = overwrite (s.addCapacity len).flat s.m_position data := by
  have hg := addCapacity_spec h len
  generalize hs1 : s.addCapacity len = s1 at hg
  have h1 := hg.inv
  have hroom : s1.m_position % s1.m_baseSize + len ≤ s1.m_cur.flatten.length := by
    have hr := h1.room
    have hcap : s1.getCapacity = s1.m_capacity - s1.m_position := rfl
    have := hg.room
    have := hg.position
    omega
  obtain ⟨iovs, hloop, hiovs⟩ :=
    iovLoop_spec h1.base_pos s1.m_cur s1.passed.length _ len h1.uniform_cur h1.offset_lt hlen hroom
  refine ⟨iovs, ?_, iovLoop_total hloop, ?_⟩
  · rw [getWriteBuffers, if_neg (by omega)]
    simp only [hs1, hloop]
  · intro data hd
    obtain ⟨cur, hcur, huni, hnum, hflat⟩ := (hiovs s1.passed rfl).2 data hd
    refine ⟨cur, hcur, huni, hnum, ?_⟩
    rw [flatten_append, hflat, ← overwrite_append_right, ← WellFormed.flat_eq,
      h1.position_split, hg.position]

/-- `getReadBuffers` gathers the window at the position, cut to what is
there. -/
theorem getReadBuffers_spec {s : Bytearray} (h : WellFormed s) (len : Nat) :
    ∃ iovs, getReadBuffers len s = .ok iovs s ∧ gather s.m_root iovs
        = window s.flat s.m_position (min len s.getReadSize) := by
  have hmin : (if s.getReadSize < len then s.getReadSize else len) = min len s.getReadSize := by
    split <;> omega
  by_cases h0 : min len s.getReadSize = 0
  · refine ⟨[], ?_, ?_⟩
    · simp only [getReadBuffers, hmin, if_pos h0]
    · rw [h0, window_zero]
      rfl
  have hroom : s.m_position % s.m_baseSize + min len s.getReadSize ≤ s.m_cur.flatten.length := by
    have hr := h.room
    have hcap : s.getCapacity = s.m_capacity - s.m_position := rfl
    have hrs : s.getReadSize = s.m_size - s.m_position := rfl
    have := h.size_le
    omega
  obtain ⟨iovs, hloop, hiovs⟩ := iovLoop_spec h.base_pos s.m_cur s.passed.length _ _ h.uniform_cur
      h.offset_lt (by omega) hroom
  refine ⟨iovs, ?_, ?_⟩
  · simp only [getReadBuffers, hmin, if_neg h0, hloop]
  · rw [Bytearray.m_root, (hiovs s.passed rfl).1, WellFormed.flat_eq,
      ← window_append_right s.passed.flatten, h.position_split]

/-! ## Sequences of calls -/

/-- Running a call that returns, then the rest. -/
theorem bind_ok {s s' : σ} {a : α} (h : x s = .ok a s') : (x >>= f) s = f a s' := by
  show EStateM.bind x f s = f a s'
  rw [EStateM.bind, h]

/-- A call that fails ends the sequence. -/
theorem bind_error {s s' : σ} {e : ε} (h : x s = .error e s') : (x >>= f) s = .error e s' := by
  show EStateM.bind x f s = .error e s'
  rw [EStateM.bind, h]

/-- Two stores in a row are the store of both, when the first one made room
for the second. -/
theorem Stored.trans {s s₁ s₂ : Bytearray} {n : Nat} {a b : List UInt8}
    (h₁ : Stored s n a s₁) (hle : a.length ≤ n)
    (h₂ : Stored s₁ (n - a.length) b s₂) : Stored s n (a ++ b) s₂ where
  inv := h₂.inv
  base := h₂.base.trans h₁.base
  endian := h₂.endian.trans h₁.endian
  position := by
    rw [h₂.position, h₁.position, length_append, Nat.add_assoc]
  data := by
    rw [h₂.data, h₁.data, h₁.position, length_append]
    omega
  flat := by
    obtain ⟨f₁, hfit₁, hflat₁⟩ := h₁.flat
    obtain ⟨f₂, hfit₂, hflat₂⟩ := h₂.flat
    rw [hflat₁, h₁.position, length_append, length_overwrite hfit₁, ← length_append] at hfit₂
    refine ⟨f₁ ++ f₂, ?_, ?_⟩
    · have hab : (a ++ b).length = a.length + b.length := length_append
      rw [← append_assoc, hab]
      omega
    · have hgrow : s.m_position + a.length ≤ (s.flat ++ f₁ ++ f₂).length := by
        rw [length_append]
        omega
      rw [hflat₂, hflat₁, h₁.position, ← overwrite_append_left f₂ hfit₁,
        overwrite_overwrite b hgrow, append_assoc]
  tight := by
    have hb := h₁.base
    have hp := h₁.position
    rcases h₂.tight with h | h
    · exact h₁.tight.imp h.trans fun h' => by omega
    · right
      omega

theorem Stored.mono {s : Bytearray} (h : Stored s m b s') (hle : m ≤ n) : Stored s n b s' :=
  { h with tight := h.tight.imp_right fun ht => by omega }

/-- Two writes in a row are the write of both. -/
theorem Wrote.trans {s s₁ s₂ : Bytearray} {a : List UInt8} (h₁ : Wrote s a s₁) (h₂ : Wrote s₁ b s₂)
    :
    Wrote s (a ++ b) s₂ := by
  have hlen : (a ++ b).length = a.length + b.length := length_append
  refine Stored.trans (Stored.mono h₁ (by omega)) (by omega) ?_
  rw [hlen, Nat.add_sub_cancel_left]
  exact h₂

/-- Two takes in a row are the take of both. -/
theorem Took.trans {s s₁ s₂ : Bytearray} {m n : Nat}
    (h₁ : Took s m s₁) (h₂ : Took s₁ n s₂) : Took s (m + n) s₂ where
  inv := h₂.inv
  base := h₂.base.trans h₁.base
  endian := h₂.endian.trans h₁.endian
  position := by rw [h₂.position, h₁.position, Nat.add_assoc]
  data := h₂.data.trans h₁.data
  flat := h₂.flat.trans h₁.flat
  capacity := h₂.capacity.trans h₁.capacity

theorem took_zero {s : Bytearray} (h : WellFormed s) : Took s 0 s :=
  ⟨h, rfl, rfl, rfl, rfl, rfl, rfl⟩

/-- The data ahead of the position starts with `b`. -/
structure Holds (s : Bytearray) (b : List UInt8) : Prop where
  window_eq : window s.flat s.m_position b.length = b
  fits : s.m_position + b.length ≤ s.m_size

theorem Holds.left {s : Bytearray} {a : List UInt8} (h : Holds s (a ++ b)) : Holds s a where
  window_eq := by
    have hcut := congrArg (take a.length) h.window_eq
    rw [window, take_take, length_append, Nat.min_eq_left (Nat.le_add_right _ _), take_left] at hcut
    exact hcut
  fits := by
    have := h.fits
    rw [length_append] at this
    omega

/-- After taking the first part, the second is ahead. -/
theorem Holds.right {s s' : Bytearray} {a : List UInt8} (h : Holds s (a ++ b))
    (ht : Took s a.length s') : Holds s' b where
  window_eq := by
    have hw := h.window_eq
    have ha := h.left.window_eq
    rw [length_append, window_add, ha] at hw
    rw [ht.flat, ht.position]
    exact append_cancel_left hw
  fits := by
    have := h.fits
    rw [length_append] at this
    rw [ht.position, ht.data]
    omega

/-- Reading what is ahead. -/
theorem read_holds {s : Bytearray} (h : WellFormed s) (hb : b ≠ []) (hh : Holds s b) :
    ∃ s', read b.length s = .ok b s' ∧ Took s b.length s' := by
  have hfit := hh.fits
  have hav : b.length ≤ s.getReadSize := by
    rw [Bytearray.getReadSize]
    omega
  obtain ⟨s', hread, htook⟩ := read_spec h (length_pos_iff.mpr hb) hav
  rw [hh.window_eq] at hread
  exact ⟨s', hread, htook⟩

/-- The data ahead of the position. -/
def Bytearray.ahead (s : Bytearray) : List UInt8 := window s.flat s.m_position s.getReadSize

theorem length_ahead {s : Bytearray} (h : WellFormed s) : s.ahead.length = s.getReadSize := by
  have hpos := h.position_le
  have hsize := h.size_le
  have hrs : s.getReadSize = s.m_size - s.m_position := rfl
  rw [Bytearray.ahead, length_window]
  rw [h.flat_length]
  omega

theorem take_ahead {s : Bytearray} (hn : n ≤ s.getReadSize) :
    s.ahead.take n = window s.flat s.m_position n := by
  rw [Bytearray.ahead, window, take_take, Nat.min_eq_left hn, window]

theorem holds_of_ahead {s : Bytearray} (h : WellFormed s) {rest : List UInt8}
    (ha : s.ahead = b ++ rest) : Holds s b := by
  have hlen := length_ahead h
  have hrs : s.getReadSize = s.m_size - s.m_position := rfl
  have hpos := h.position_le
  rw [ha, length_append] at hlen
  refine ⟨?_, by omega⟩
  rw [← take_ahead (by omega), ha, take_left]

theorem Holds.ahead {s : Bytearray} (hh : Holds s b) : ∃ rest, s.ahead = b ++ rest := by
  have hfits := hh.fits
  have hrs : s.getReadSize = s.m_size - s.m_position := rfl
  refine ⟨s.ahead.drop b.length, ?_⟩
  have htake : s.ahead.take b.length = b := by
    rw [take_ahead (by omega), hh.window_eq]
  conv_lhs => rw [← take_append_drop b.length s.ahead, htake]

/-- Taking moves along the data. -/
theorem Took.ahead {s : Bytearray} (ht : Took s n s') : s'.ahead = s.ahead.drop n := by
  have hrest : s'.getReadSize = s.getReadSize - n := by
    rw [Bytearray.getReadSize, Bytearray.getReadSize, ht.data, ht.position]
    omega
  rw [Bytearray.ahead, Bytearray.ahead, ht.flat, ht.position, hrest, window, window,
    drop_take, drop_drop]

end SylarBytearray
