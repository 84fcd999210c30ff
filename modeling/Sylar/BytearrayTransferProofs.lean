import Sylar.BytearrayPositionProofs

/-! # Scatter/gather transfers of the byte array (`bytearray.cc`, `stream.cc`)

A byte array is filled and emptied in two ways: by `write` and `read`, which copy and
move the position as they walk, and by `getWriteBuffers` and `getReadBuffers`, whose
pieces the kernel fills or empties before `setPosition` moves the position.  The
fixed-size loops of `Stream` repeat the second way until all is transferred.

* **`fill_eq_write`** — filling the pieces and moving the position leaves the same array
  as `write`.
* **`scatter_gather_iff`** — both ways agree, and the fixed-size loops move the next
  bytes in order, for every array and every length except one: a `read` of no bytes
  behind the last block dereferences the null node. -/

namespace SylarBytearrayTransfer

open ListWindow SylarBytearray SylarStream SylarBytearrayPosition

/-! ## Filling the pieces is writing -/

variable {s : Bytearray} {n : Nat}

/-- What a store leaves of an array is determined. -/
theorem overwrote_unique {s₁ s₂ : Bytearray} {buf : List UInt8} (h₁ : Overwrote s buf s₁)
    (h₂ : Overwrote s buf s₂) : s₁ = s₂ :=
  h₂.inv.eq_of_flat_eq h₁.inv (h₁.base.trans h₂.base.symm)
    (h₁.position.trans h₂.position.symm) (h₁.capacity.trans h₂.capacity.symm)
    (h₁.data.trans h₂.data.symm) (h₁.endian.trans h₂.endian.symm)
    (h₁.flat.trans h₂.flat.symm)

/-- No pieces, no data: the array stays. -/
theorem fill_nil (s : Bytearray) : fill s [] [] = s := by
  simp only [fill, scatter, Bytearray.m_root, List.take_left, List.drop_left]

/-- **Filling the pieces of `getWriteBuffers` with `b` and moving the position leaves the
array that `write(b)` leaves.** -/
theorem fill_eq_write (hs : WellFormed s) (b : List UInt8) :
    ∃ iovs s₁ s', getWriteBuffers b.length s = .ok iovs s₁
      ∧ setPosition (s.m_position + b.length) (fill s₁ iovs b) = .ok () s'
      ∧ write b s = .ok () s' := by
  by_cases hb : b = []
  · subst hb
    obtain ⟨s', hset, hm⟩ := setPosition_spec (v := s.m_position) hs
      (Nat.le_trans hs.position_le hs.size_le)
    obtain rfl : s' = s := hs.eq_of_flat_eq hm.inv hm.base hm.position hm.capacity
      (hm.data.trans (Nat.max_eq_left hs.position_le)) hm.endian hm.flat
    refine ⟨[], s', s', rfl, ?_, rfl⟩
    rw [fill_nil]
    exact hset
  · have hpos := List.length_pos_iff.mpr hb
    obtain ⟨iovs, s', hget, -, hset, -, ho⟩ := fill_overwrites hs hpos (Nat.le_refl _)
    obtain ⟨s'', hwrite, ho'⟩ := write_overwrites hs (Nat.ne_of_gt hpos)
    obtain rfl := overwrote_unique ho ho'
    exact ⟨iovs, _, s', hget, hset, hwrite⟩

/-! ## The two ways agree -/

/-- What the two ways have in common from one state on: `b` written, up to `len` bytes read, and the
fixed-size loops over any transport that moves some bytes in every call. -/
structure Agrees (s : Bytearray) (b : List UInt8) (len : Nat) : Prop where
  /-- filling the pieces is `write` -/
  fills : ∃ iovs s₁ s', getWriteBuffers b.length s = .ok iovs s₁
    ∧ setPosition (s.m_position + b.length) (fill s₁ iovs b) = .ok () s'
    ∧ write b s = .ok () s'
  /-- the pieces of `getReadBuffers` hold the next bytes -/
  gathers : ∃ iovs, getReadBuffers len s = .ok iovs s
    ∧ gather s.m_root iovs = window s.flat s.m_position (min len s.getReadSize)
  /-- `read` returns them -/
  reads : ∃ s', read (min len s.getReadSize) s
    = .ok (window s.flat s.m_position (min len s.getReadSize)) s'
  /-- `toString` returns all that is ahead -/
  shows : toString s = .ok (window s.flat s.m_position s.getReadSize)
  /-- `readFixSize(ba, n)` stores the next `n` bytes of the transport -/
  receives : ∀ {t : Transport} {want later : List UInt8}, Delivers t (want ++ later) →
    want.length < 2 ^ 64 →
    ∃ t' s', readFixSizeArray s want.length t = .ok (intOf want.length, s') t'
      ∧ Wrote s want s' ∧ Delivers t' later
  /-- `writeFixSize(ba, n)` puts the next `n` bytes of the array on the transport -/
  sends : ∀ {t : Transport} {n : Nat}, Accepts t → n ≤ s.getReadSize →
    ∃ t' s', writeFixSizeArray s n t = .ok (intOf n, s') t'
      ∧ t'.sent = t.sent ++ window s.flat s.m_position n ∧ Took s n s'

/-- The next bytes of the array are ahead. -/
theorem holds_window (hs : WellFormed s) (hn : n ≤ s.getReadSize) :
    Holds s (window s.flat s.m_position n) ∧ (window s.flat s.m_position n).length = n := by
  have hrs : s.getReadSize = s.m_size - s.m_position := rfl
  have hpos := hs.position_le
  have hsize := hs.size_le
  have hlen : (window s.flat s.m_position n).length = n := by
    apply length_window
    rw [hs.flat_length]
    omega
  refine ⟨⟨?_, ?_⟩, hlen⟩
  · rw [hlen]
  · rw [hlen]
    omega

/-- `read` of the next bytes fails only behind the last block, and only if there are
none. -/
theorem read_next_iff (hs : WellFormed s) (hn : n ≤ s.getReadSize) :
    (∃ s', read n s = .ok (window s.flat s.m_position n) s')
      ↔ 0 < n ∨ s.m_position < s.m_capacity := by
  have hpos := hs.position_le
  have hsize := hs.size_le
  by_cases h0 : n = 0
  · subst h0
    rw [read_zero, window_zero]
    by_cases hcur : s.m_cur = []
    · have hend := hs.cur_null_iff.mp hcur
      rw [if_pos hcur]
      refine iff_of_false ?_ (by omega)
      rintro ⟨s', h⟩
      cases h
    · have hend : s.m_position ≠ s.m_capacity := fun h => hcur (hs.cur_null_iff.mpr h)
      rw [if_neg hcur]
      exact iff_of_true ⟨s, rfl⟩ (Or.inr (by omega))
  · obtain ⟨s', hread, -⟩ := read_spec hs (Nat.pos_of_ne_zero h0) hn
    exact iff_of_true ⟨s', hread⟩ (Or.inl (Nat.pos_of_ne_zero h0))

/-- **Scatter/gather and sequential access agree** unless `read` is asked for no bytes
behind the last block. -/
theorem scatter_gather_iff {s : Bytearray} (hs : WellFormed s) (hlt : s.m_size < 2 ^ 64)
    (b : List UInt8) (len : Nat) :
    Agrees s b len ↔ 0 < min len s.getReadSize ∨ s.m_position < s.m_capacity := by
  have hread := read_next_iff hs (Nat.min_le_right len s.getReadSize)
  constructor
  · intro h
    exact hread.mp h.reads
  · intro h
    refine ⟨fill_eq_write hs b, getReadBuffers_spec hs len, hread.mpr h,
      toString_spec hs hlt, ?_, ?_⟩
    · intro t want later hdel hwant
      obtain ⟨t', s', hloop, hwrote, hdel', -, -⟩ := readFixSizeArray_spec hs hdel hwant
      exact ⟨t', s', hloop, hwrote, hdel'⟩
    · intro t n hacc hn
      obtain ⟨hholds, hlen⟩ := holds_window hs hn
      have hrs : s.getReadSize = s.m_size - s.m_position := rfl
      obtain ⟨t', s', hloop, htook, hsent, -, -⟩ := writeFixSizeArray_spec hacc hs hholds (by omega)
      rw [hlen] at hloop htook
      exact ⟨t', s', hloop, hsent, htook⟩

theorem scatter_gather_iff_twoBlocks : Agrees twoBlocks [1, 2, 3, 4, 5] 6 := by
  have h := scatter_gather_iff wellFormed_twoBlocks (by decide) [1, 2, 3, 4, 5] 6
  exact h.mpr (Or.inl (by decide))

/-- One full block, read to its end. -/
def fullBlock : Bytearray where
  m_baseSize := 4
  m_position := 4
  m_capacity := 4
  m_size := 4
  m_endian := 0
  passed := [[1, 2, 3, 4]]
  m_cur := []

/-- `fullBlock` is what writing four bytes into a fresh array leaves. -/
example : write [1, 2, 3, 4] (Bytearray.new 4 0) = .ok () fullBlock := by
  rfl

/-- **A `read` of no bytes behind the last block dereferences the null node**; the gather and
`toString` return nothing. -/
theorem empty_read_faults : getReadBuffers 1 fullBlock = .ok [] fullBlock
      ∧ toString fullBlock = .ok []
      ∧ read (min 1 fullBlock.getReadSize) fullBlock = .error (.nullNode 0) fullBlock
      ∧ ¬ Agrees fullBlock [] 1 := by
  have hnull : read (min 1 fullBlock.getReadSize) fullBlock = .error (.nullNode 0) fullBlock := rfl
  refine ⟨rfl, rfl, hnull, fun h => ?_⟩
  obtain ⟨s', hread⟩ := h.reads
  rw [hnull] at hread
  cases hread

end SylarBytearrayTransfer
