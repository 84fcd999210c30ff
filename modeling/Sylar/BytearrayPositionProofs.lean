import Sylar.StreamProofs

/-! # Positional reads of the byte array (`bytearray.cc`)

`read(buf, size, position) const` copies bytes out without moving the read/write
position; `toString` calls it with the current position.  Its walk starts at `m_cur`,
the node of the CURRENT position, and its bound test subtracts in a `size_t`.
`getReadBuffers(buffers, len, position) const` starts at the root instead.

* **`readAtLoop_addresses`** — whatever a walk copies, it copies from consecutive
  addresses, beginning in the node it was started at.
* **`readAt_iff`** — when a positional read is right.
* **`toString_spec`** — `toString` passes the current position, and is right.
* **`getReadBuffersAt_iff`** — the positional `getReadBuffers` walks to the right node,
  but cuts its length by what is behind the CURSOR: it is right exactly when that cut
  is the one at `position`. -/

namespace SylarBytearrayPosition

open ListWindow SylarBytearray SylarStream List

/-! ## The code -/

/-- The loop of the positional `read` from node number `idx` on: the pieces it copies from, and
their bytes. -/
def readAtLoop : List Node → Nat → Nat → Nat → Except Fault (List Iovec × List UInt8)
  | [], _, _, size => .error (.nullNode size)
  | n :: next, idx, npos, size =>
    let ncap := n.length - npos
    if size = 0 then .ok ([], [])
    else if size ≤ ncap then .ok ([⟨idx, npos, size⟩], window n npos size)
    else do
      let (pieces, out) ← readAtLoop next (idx + 1) 0 (size - ncap)
      pure (⟨idx, npos, ncap⟩ :: pieces, window n npos ncap ++ out)

/-- `ByteArray::read(buf, size, position) const`. -/
def readAt (s : Bytearray) (size position : Nat) : Except Fault (List Iovec × List UInt8) :=
  if subSizeT s.m_size position < size then .error .outOfRange
  else readAtLoop s.m_cur s.passed.length (position % s.m_baseSize) size

/-- `ByteArray::toString`. -/
def toString (s : Bytearray) : Except Fault (List UInt8) :=
  if s.getReadSize = 0 then .ok []
  else (readAt s s.getReadSize s.m_position).map Prod.snd

/-- The places of a piece in the flat memory. -/
def addresses (base : Nat) (v : Iovec) : List Nat :=
  List.range' (v.node * base + v.off) v.len

/-- What the positional read is for: the bytes `[position, position + size)` from where they are, or
`std::out_of_range`. -/
def ReadsAt (s : Bytearray) (size position : Nat) : Prop :=
  if position + size ≤ s.m_size then
    ∃ pieces, readAt s size position = .ok (pieces, window s.flat position size)
      ∧ pieces.flatMap (addresses s.m_baseSize) = List.range' position size
  else readAt s size position = .error .outOfRange

/-! ## One walk -/

theorem readAtLoop_ne_outOfRange (c : List Node) (idx npos size : Nat) :
    readAtLoop c idx npos size ≠ .error .outOfRange := by
  induction c generalizing idx npos size with
  | nil => intro h; cases h
  | cons n next ih =>
    intro h
    rw [readAtLoop] at h
    by_cases h0 : size = 0
    · rw [if_pos h0] at h
      cases h
    rw [if_neg h0] at h
    by_cases hlast : size ≤ n.length - npos
    · rw [if_pos hlast] at h
      cases h
    · rw [if_neg hlast] at h
      cases hrest : readAtLoop next (idx + 1) 0 (size - (n.length - npos)) with
      | error e =>
        rw [hrest] at h
        cases h
        exact ih _ _ _ hrest
      | ok r =>
        rw [hrest] at h
        cases h

/-- **The addresses of a walk** are consecutive from the node it starts at. -/
theorem readAtLoop_addresses {k : Nat} {c : List Node} {idx npos size : Nat} {pieces : List Iovec}
    {out : List UInt8} (hu : Uniform k c) (hn : npos ≤ k)
    (h : readAtLoop c idx npos size = .ok (pieces, out)) :
    pieces.flatMap (addresses k) = range' (idx * k + npos) size := by
  induction c generalizing idx npos size pieces out with
  | nil => cases h
  | cons n next ih =>
    obtain ⟨hnk, hnext⟩ := uniform_cons.mp hu
    rw [readAtLoop] at h
    by_cases h0 : size = 0
    · rw [if_pos h0] at h
      cases h
      rw [h0]
      rfl
    rw [if_neg h0] at h
    by_cases hlast : size ≤ n.length - npos
    · rw [if_pos hlast] at h
      cases h
      rw [flatMap_cons, flatMap_nil, append_nil, addresses]
    · rw [if_neg hlast] at h
      cases hrest : readAtLoop next (idx + 1) 0 (size - (n.length - npos)) with
      | error e =>
        rw [hrest] at h
        cases h
      | ok r =>
        rw [hrest] at h
        cases h
        have hgo : (idx + 1) * k + 0 = idx * k + npos + (n.length - npos) := by
          rw [Nat.succ_mul]
          omega
        have hall : n.length - npos + (size - (n.length - npos)) = size := by omega
        rw [flatMap_cons, ih hnext (Nat.zero_le _) hrest, addresses, hgo, range'_append_1, hall]

/-- A walk inside the chain copies the window of the flat view. -/
theorem readAtLoop_spec {k : Nat} (hk : 0 < k) (c : List Node) (idx npos size : Nat)
    (hu : Uniform k c) (hn : npos < k) (hne : c ≠ []) (hfit : npos + size ≤ c.flatten.length) :
    ∃ pieces, readAtLoop c idx npos size = .ok (pieces, window c.flatten npos size) := by
  induction c generalizing idx npos size with
  | nil => exact absurd rfl hne
  | cons n next ih =>
    obtain ⟨hnk, hnext⟩ := uniform_cons.mp hu
    rw [flatten_cons, length_append, hnk] at hfit
    rw [readAtLoop, flatten_cons]
    by_cases h0 : size = 0
    · rw [if_pos h0, h0, window_zero]
      exact ⟨_, rfl⟩
    rw [if_neg h0]
    by_cases hlast : size ≤ n.length - npos
    · rw [if_pos hlast, window_append_left next.flatten (by omega)]
      exact ⟨_, rfl⟩
    · have hne : next ≠ [] := by
        rintro rfl
        rw [flatten_nil, length_nil] at hfit
        omega
      obtain ⟨pieces, hrest⟩ := ih (idx + 1) 0 (size - (n.length - npos)) hnext hk hne (by omega)
      simp only [if_neg hlast, hrest]
      rw [window_cross next.flatten (by omega) (by omega)]
      exact ⟨_, rfl⟩

/-! ## The positional read -/

/-- It throws where it has to, or the current node is there and holds the first byte asked for. -/
def NodeMatches (s : Bytearray) (size position : Nat) : Prop :=
  if position ≤ s.m_size then
    s.m_size < position + size
      ∨ (s.m_position ≠ s.m_capacity
        ∧ (size = 0 ∨ position / s.m_baseSize = s.m_position / s.m_baseSize))
  else 2 ^ 64 + s.m_size < position + size

instance (s : Bytearray) (size position : Nat) : Decidable (NodeMatches s size position) :=
  inferInstanceAs (Decidable (ite _ _ _))

section Walk

variable {s : Bytearray} {size position : Nat}

/-- The bound test lets a read inside the data pass. -/
theorem readAt_inside (hfit : position + size ≤ s.m_size) (hlt : s.m_size < 2 ^ 64) :
    readAt s size position = readAtLoop s.m_cur s.passed.length (position % s.m_baseSize) size := by
  have hsub : subSizeT s.m_size position = s.m_size - position := subSizeT_of_le (by omega) hlt
  rw [readAt, if_neg (by omega)]

/-- Inside the current node, the position is the bytes of the passed nodes plus the
offset. -/
theorem current_split (hs : WellFormed s)
    (hnode : position / s.m_baseSize = s.m_position / s.m_baseSize) :
    s.passed.flatten.length + position % s.m_baseSize = position := by
  rw [hs.uniform_passed.length_flatten, hs.cur_number, ← hnode, Nat.mul_comm]
  exact Nat.div_add_mod _ _

/-- In the current node: the bytes asked for. -/
theorem readAt_current (hs : WellFormed s) (hlt : s.m_size < 2 ^ 64)
    (hfit : position + size ≤ s.m_size) (hcur : s.m_cur ≠ [])
    (hnode : position / s.m_baseSize = s.m_position / s.m_baseSize) :
    ∃ pieces, readAt s size position = .ok (pieces, window s.flat position size)
      ∧ pieces.flatMap (addresses s.m_baseSize) = range' position size := by
  have hsplit := current_split hs hnode
  have hmod : position % s.m_baseSize < s.m_baseSize := Nat.mod_lt _ hs.base_pos
  have hroom : position % s.m_baseSize + size ≤ s.m_cur.flatten.length := by
    have hlen := hs.flat_length
    have hsize := hs.size_le
    rw [WellFormed.flat_eq, length_append] at hlen
    omega
  obtain ⟨pieces, hloop⟩ := readAtLoop_spec hs.base_pos s.m_cur s.passed.length _ size
    hs.uniform_cur hmod hcur hroom
  have haddr := readAtLoop_addresses hs.uniform_cur (Nat.le_of_lt hmod) hloop
  refine ⟨pieces, ?_, ?_⟩
  · rw [readAt_inside hfit hlt, hloop, ← window_append_right s.passed.flatten,
      ← WellFormed.flat_eq, hsplit]
  · rw [haddr, ← hs.uniform_passed.length_flatten, hsplit]

/-- In another node: not the bytes asked for, whatever is there. -/
theorem not_readAt_elsewhere (hs : WellFormed s) (hlt : s.m_size < 2 ^ 64)
    (hfit : position + size ≤ s.m_size) (hsize : size ≠ 0)
    (hnode : position / s.m_baseSize ≠ s.m_position / s.m_baseSize) :
    ¬ ∃ pieces, readAt s size position = .ok (pieces, window s.flat position size)
      ∧ pieces.flatMap (addresses s.m_baseSize) = range' position size := by
  rintro ⟨pieces, hread, haddr⟩
  have hmod : position % s.m_baseSize < s.m_baseSize := Nat.mod_lt _ hs.base_pos
  rw [readAt_inside hfit hlt] at hread
  have hstart := readAtLoop_addresses hs.uniform_cur (Nat.le_of_lt hmod) hread
  rw [haddr, hs.cur_number] at hstart
  -- both lists begin with the address of their first byte
  obtain ⟨m, rfl⟩ := Nat.exists_eq_succ_of_ne_zero hsize
  rw [range'_succ, range'_succ] at hstart
  have hhead := (cons.inj hstart).1
  have hdiv := Nat.div_add_mod position s.m_baseSize
  rw [Nat.mul_comm] at hdiv
  exact hnode (Nat.eq_of_mul_eq_mul_right hs.base_pos (by omega))

/-- Behind the data, the bound test wraps around. -/
theorem readAt_behind (hpos : s.m_size < position) (hlt : position < 2 ^ 64) :
    readAt s size position = .error .outOfRange ↔ 2 ^ 64 + s.m_size < position + size := by
  have hsub : subSizeT s.m_size position = 2 ^ 64 + s.m_size - position := by
    rw [subSizeT]
    omega
  rw [readAt, hsub]
  constructor
  · intro h
    by_contra hle
    rw [if_neg (by omega)] at h
    exact readAtLoop_ne_outOfRange _ _ _ _ h
  · intro h
    rw [if_pos (by omega)]

end Walk

/-- **The positional read** returns `[position, position + size)` or throws, exactly when
`NodeMatches` holds. -/
theorem readAt_iff {s : Bytearray} (hs : WellFormed s) (hlt : s.m_size < 2 ^ 64)
    (size : Nat) {position : Nat} (hp : position < 2 ^ 64) :
    ReadsAt s size position ↔ NodeMatches s size position := by
  rw [ReadsAt, NodeMatches]
  by_cases hin : position ≤ s.m_size
  · rw [if_pos hin]
    by_cases hfit : position + size ≤ s.m_size
    · rw [if_pos hfit]
      have hcur : s.m_cur = [] ↔ s.m_position = s.m_capacity := hs.cur_null_iff
      by_cases hend : s.m_cur = []
      · -- the null node is dereferenced before the first test of `size`
        have hnull : readAt s size position = .error (.nullNode size) := by
          rw [readAt_inside hfit hlt, hend, readAtLoop]
        constructor
        · rintro ⟨pieces, hread, -⟩
          rw [hnull] at hread
          cases hread
        · rintro (h | ⟨hne, -⟩)
          · omega
          · exact absurd (hcur.mp hend) hne
      · have hne : s.m_position ≠ s.m_capacity := fun h => hend (hcur.mpr h)
        by_cases h0 : size = 0
        · subst h0
          refine iff_of_true ⟨[], ?_, rfl⟩ (Or.inr ⟨hne, Or.inl rfl⟩)
          obtain ⟨n, next, hcons⟩ := exists_cons_of_ne_nil hend
          rw [readAt_inside hfit hlt, hcons, readAtLoop, if_pos rfl, window_zero]
        · by_cases hnode : position / s.m_baseSize = s.m_position / s.m_baseSize
          · exact iff_of_true (readAt_current hs hlt hfit hend hnode) (Or.inr ⟨hne, Or.inr hnode⟩)
          · refine iff_of_false (not_readAt_elsewhere hs hlt hfit h0 hnode) ?_
            rintro (h | ⟨-, h | h⟩)
            · omega
            · exact h0 h
            · exact hnode h
    · rw [if_neg hfit]
      have hsub : subSizeT s.m_size position = s.m_size - position := subSizeT_of_le hin hlt
      refine iff_of_true ?_ (Or.inl (by omega))
      rw [readAt, if_pos (by omega)]
  · rw [if_neg hin, if_neg (by omega)]
    exact readAt_behind (by omega) hp

/-- Two blocks of four bytes, the position on the first byte. -/
def twoBlocks : Bytearray where
  m_baseSize := 4
  m_position := 0
  m_capacity := 8
  m_size := 8
  m_endian := 0
  passed := []
  m_cur := [[1, 2, 3, 4], [5, 6, 7, 8]]

theorem wellFormed_twoBlocks : WellFormed twoBlocks :=
  ⟨by decide, by decide, by unfold Uniform; decide, by decide, by decide, by decide, by decide⟩

/-- `twoBlocks` is what writing eight bytes and going back to the front leaves. -/
example :
    (do write [1, 2, 3, 4, 5, 6, 7, 8]; setPosition 0 : BA Unit) (Bytearray.new 4 0)
      = .ok () twoBlocks := by
  rfl

theorem readAt_iff_twoBlocks : ReadsAt twoBlocks 4 3 := by
  have h : ReadsAt twoBlocks 4 3 ↔ NodeMatches twoBlocks 4 3 :=
    readAt_iff wellFormed_twoBlocks (by decide) 4 (by decide)
  exact h.mpr (by decide)

/-- **A read from the second block returns the first one.** -/
theorem reads_at_cursor : twoBlocks.m_size = 4 + 4 ∧ window twoBlocks.flat 4 4 = [5, 6, 7, 8]
      ∧ readAt twoBlocks 4 4 = .ok ([⟨0, 0, 4⟩], [1, 2, 3, 4])
      ∧ ¬ ReadsAt twoBlocks 4 4 := by
  refine ⟨by decide, by decide, by decide, ?_⟩
  rw [ReadsAt, if_pos (by decide)]
  rintro ⟨pieces, hread, -⟩
  have hwrong : readAt twoBlocks 4 4 = .ok ([⟨0, 0, 4⟩], [1, 2, 3, 4]) := by decide
  rw [hwrong] at hread
  cases hread

/-! ## `toString` -/

/-- **`toString`** returns the bytes ahead of the position. -/
theorem toString_spec {s : Bytearray} (hs : WellFormed s) (hlt : s.m_size < 2 ^ 64) :
    toString s = .ok (window s.flat s.m_position s.getReadSize) := by
  have hpos := hs.position_le
  have hsize := hs.size_le
  rw [toString]
  by_cases h0 : s.getReadSize = 0
  · rw [if_pos h0, h0, window_zero]
  · have hrs : s.getReadSize = s.m_size - s.m_position := rfl
    have hcur : s.m_cur ≠ [] := by
      rw [Ne, hs.cur_null_iff]
      omega
    have hfit : s.m_position + s.getReadSize ≤ s.m_size := by omega
    obtain ⟨pieces, hread, -⟩ := readAt_current hs hlt hfit hcur rfl
    rw [if_neg h0, hread]
    rfl

/-! ## Positional read buffers -/

/-- `while(count > 0) { cur = cur->next; --count; }`, with `len` bytes to hand out. -/
def nodeAt (len : Nat) : List Node → Nat → Except Fault (List Node)
  | cur, 0 => .ok cur
  | [], _ + 1 => .error (.nullNode len)
  | _ :: next, count + 1 => nodeAt len next count

/-- `ByteArray::getReadBuffers(buffers, len, position) const`: its length and the pieces it appends.
-/
def getReadBuffersAt (s : Bytearray) (len position : Nat) :
    Except Fault (Nat × List Iovec) :=
  let len := if s.getReadSize < len then s.getReadSize else len
  if len = 0 then .ok (0, [])
  else
    match nodeAt len s.m_root (position / s.m_baseSize) with
    | .error e => .error e
    | .ok cur =>
        (iovLoop cur (position / s.m_baseSize) (position % s.m_baseSize) len).map (len, ·)

/-- What it is for: the bytes `[position, position + len)`, cut at the end of the data, where
they are. -/
def BuffersAt (s : Bytearray) (len position : Nat) : Prop :=
  ∃ iovs, getReadBuffersAt s len position = .ok (min len (s.m_size - position), iovs)
    ∧ iovs.flatMap (addresses s.m_baseSize)
      = List.range' position (min len (s.m_size - position))
    ∧ gather s.m_root iovs = window s.flat position (min len (s.m_size - position))

/-- The clip by the data behind the CURSOR is the clip by the data behind `position`. -/
def SameClip (s : Bytearray) (len position : Nat) : Prop :=
  position = s.m_position ∨ (len ≤ s.m_size - position ∧ len ≤ s.getReadSize)

instance (s : Bytearray) (len position : Nat) : Decidable (SameClip s len position) :=
  inferInstanceAs (Decidable (_ ∨ _))

theorem nodeAt_of_le {len : Nat} {c : List Node} {count : Nat} (h : count ≤ c.length) :
    nodeAt len c count = .ok (c.drop count) := by
  induction c generalizing count with
  | nil =>
    obtain rfl := Nat.le_zero.mp h
    rfl
  | cons n next ih =>
    cases count with
    | zero => rfl
    | succ count => exact ih (Nat.le_of_succ_le_succ h)

/-- The addresses of the pieces are consecutive from the node they start at. -/
theorem iovLoop_addresses {k : Nat} {c : List Node} {idx npos len : Nat} {iovs : List Iovec}
    (hu : Uniform k c) (hn : npos ≤ k) (h : iovLoop c idx npos len = .ok iovs) :
    iovs.flatMap (addresses k) = range' (idx * k + npos) len := by
  induction c generalizing idx npos len iovs with
  | nil => cases h
  | cons n next ih =>
    obtain ⟨hnk, hnext⟩ := uniform_cons.mp hu
    rcases iovLoop_cons_ok h with ⟨-, rfl⟩ | ⟨hmore, rest, rfl, hrest⟩
    · rw [flatMap_cons, flatMap_nil, append_nil, addresses]
    · have hgo : (idx + 1) * k + 0 = idx * k + npos + (n.length - npos) := by
        rw [Nat.succ_mul]
        omega
      have hall : n.length - npos + (len - (n.length - npos)) = len := by omega
      rw [flatMap_cons, ih hnext (Nat.zero_le _) hrest, addresses, hgo, range'_append_1, hall]

section Buffers

variable {s : Bytearray} {len position : Nat}

/-- The length it returns is clipped by the cursor, wherever `position` is. -/
theorem getReadBuffersAt_length {n : Nat} {iovs : List Iovec}
    (h : getReadBuffersAt s len position = .ok (n, iovs)) : n = min len s.getReadSize := by
  have hmin : (if s.getReadSize < len then s.getReadSize else len) = min len s.getReadSize := by
    split <;> omega
  rw [getReadBuffersAt, hmin] at h
  by_cases h0 : min len s.getReadSize = 0
  · rw [if_pos h0] at h
    cases h
    exact h0.symm
  · rw [if_neg h0] at h
    cases hnode : nodeAt (min len s.getReadSize) s.m_root (position / s.m_baseSize) with
    | error e =>
      rw [hnode] at h
      cases h
    | ok cur =>
      rw [hnode] at h
      dsimp only at h
      cases hloop : iovLoop cur (position / s.m_baseSize) (position % s.m_baseSize)
          (min len s.getReadSize) with
      | error e =>
        rw [hloop] at h
        cases h
      | ok iovs' =>
        rw [hloop] at h
        cases h
        rfl

/-- Inside the data, the walk from the root finds the node and stays in the chain. -/
theorem iovLoop_at (hs : WellFormed s) (hlen : 0 < len) (hfit : position + len ≤ s.m_size) :
    ∃ iovs, iovLoop (s.m_root.drop (position / s.m_baseSize)) (position / s.m_baseSize)
        (position % s.m_baseSize) len = .ok iovs
      ∧ position / s.m_baseSize ≤ s.m_root.length
      ∧ iovs.flatMap (addresses s.m_baseSize) = range' position len
      ∧ gather s.m_root iovs = window s.flat position len := by
  have hmod : position % s.m_baseSize < s.m_baseSize := Nat.mod_lt _ hs.base_pos
  have hdiv := Nat.div_add_mod position s.m_baseSize
  rw [Nat.mul_comm] at hdiv
  have hcount : position / s.m_baseSize ≤ s.m_root.length := by
    rw [hs.chain_length]
    exact Nat.div_le_div_right (by have := hs.size_le; omega)
  have hsplit := take_append_drop (position / s.m_baseSize) s.m_root
  have huni := hs.uniform
  rw [← hsplit] at huni
  obtain ⟨hpre, hcur⟩ := uniform_append.mp huni
  have hnum : (s.m_root.take (position / s.m_baseSize)).length = position / s.m_baseSize := by
    rw [length_take, Nat.min_eq_left hcount]
  have hbefore := hpre.length_flatten
  rw [hnum] at hbefore
  have hflat : s.flat = (s.m_root.take (position / s.m_baseSize)).flatten
      ++ (s.m_root.drop (position / s.m_baseSize)).flatten := by
    rw [Bytearray.flat, ← flatten_append, hsplit]
  have hroom : position % s.m_baseSize + len
      ≤ (s.m_root.drop (position / s.m_baseSize)).flatten.length := by
    have hall := hs.flat_length
    have hsize := hs.size_le
    rw [hflat, length_append] at hall
    omega
  obtain ⟨iovs, hloop, hiovs⟩ := iovLoop_spec hs.base_pos _ (position / s.m_baseSize) _ len
    hcur hmod hlen hroom
  refine ⟨iovs, hloop, hcount, ?_, ?_⟩
  · rw [iovLoop_addresses hcur (Nat.le_of_lt hmod) hloop, hdiv]
  · have hgather := (hiovs _ hnum).1
    rw [hsplit] at hgather
    rw [hgather, hflat, ← window_append_right
      (s.m_root.take (position / s.m_baseSize)).flatten, hbefore, hdiv]

end Buffers

/-- **Positional read buffers** are the bytes from `position` on, cut at the end of the
data, exactly when `SameClip` holds. -/
theorem getReadBuffersAt_iff {s : Bytearray} (hs : WellFormed s) (len : Nat) {position : Nat}
    (hp : position ≤ s.m_size) : BuffersAt s len position ↔ SameClip s len position := by
  have hpos := hs.position_le
  have hrs : s.getReadSize = s.m_size - s.m_position := rfl
  constructor
  · rintro ⟨iovs, hget, -⟩
    have hclip := getReadBuffersAt_length hget
    rw [SameClip]
    omega
  · intro hclip
    have hsame : min len (s.m_size - position) = min len s.getReadSize := by
      rcases hclip with rfl | ⟨h₁, h₂⟩
      · rfl
      · omega
    have hmin : (if s.getReadSize < len then s.getReadSize else len) = min len s.getReadSize := by
      split <;> omega
    rw [BuffersAt, hsame, getReadBuffersAt, hmin]
    by_cases h0 : min len s.getReadSize = 0
    · rw [if_pos h0, h0, window_zero]
      exact ⟨[], rfl, rfl, rfl⟩
    · rw [if_neg h0]
      have hfit : position + min len s.getReadSize ≤ s.m_size := by omega
      obtain ⟨iovs, hloop, hcount, haddr, hgather⟩ := iovLoop_at hs (Nat.pos_of_ne_zero h0) hfit
      refine ⟨iovs, ?_, haddr, hgather⟩
      rw [nodeAt_of_le hcount]
      dsimp only
      rw [hloop]
      rfl

/-- From the middle of the first block, five bytes in two pieces. -/
theorem getReadBuffersAt_iff_twoBlocks : BuffersAt twoBlocks 5 2 := by
  have h : BuffersAt twoBlocks 5 2 ↔ SameClip twoBlocks 5 2 :=
    getReadBuffersAt_iff wellFormed_twoBlocks 5 (by decide)
  exact h.mpr (by decide)

/-- **The walk leaves the chain**: six bytes from the fourth on, of eight; and with the cursor at
the end nothing is returned. -/
theorem buffers_by_cursor : min 6 (twoBlocks.m_size - 4) = 4
      ∧ getReadBuffersAt twoBlocks 6 4 = .error (.nullNode 2)
      ∧ getReadBuffersAt { twoBlocks with
          m_position := 8, passed := twoBlocks.m_cur, m_cur := [] } 6 4 = .ok (0, [])
      ∧ ¬ BuffersAt twoBlocks 6 4 := by
  refine ⟨by decide, by decide, by decide, ?_⟩
  rintro ⟨iovs, hget, -⟩
  have hwrong : getReadBuffersAt twoBlocks 6 4 = .error (.nullNode 2) := by decide
  rw [hwrong] at hget
  cases hget

end SylarBytearrayPosition
