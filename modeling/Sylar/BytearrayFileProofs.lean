import Sylar.BytearrayPositionProofs
import Sylar.BytearrayRefinementProofs

/-! # The byte array in a file (`bytearray.cc`)

`writeToFile` hands the blocks from the current node on to an `ofstream`, one piece
per node; `readFromFile` reads blocks of `m_baseSize` bytes and `write`s them.  The
length of a piece is the smaller of the block size and what is left, LESS the offset in
the node: right for a piece that goes to the end of its node, too short for one that
does not.

* **`writeFileLoop_spec`** — from an offset, the loop writes the bytes ahead, as long
  as the first piece goes to the end of its node.
* **`readFileLoop_spec`** — reading appends the contents of the file.
* **`file_round_trip_iff`** — the file holds the bytes `[m_position, m_size)` and reads
  back exactly when `Aligned` holds. -/

namespace SylarBytearrayFile

open ListWindow SylarBytearray SylarBytearrayRefinement SylarStream SylarBytearrayPosition List

/-! ## The code -/

/-- A null node, or a piece that is not inside its node (a negative length included). -/
inductive FileFault where
  | nullNode
  | outside (diff len : Int)
  deriving DecidableEq, Repr

/-- The conversion to `int64_t`. -/
def int64Of (v : Int) : Int := (Int64.ofInt v).toInt

/-- The loop of `writeToFile` at node number `idx`: the pieces it writes, and their
bytes. -/
def writeFileLoop (m_baseSize : Nat) :
    List Node → Nat → Int → Int → Except FileFault (List Iovec × List UInt8)
  | [], _, _, read_size => if 0 < read_size then .error .nullNode else .ok ([], [])
  | n :: next, idx, pos, read_size =>
    if 0 < read_size then
      -- int diff = pos % m_baseSize;
      let diff := intOf (sizeT pos % m_baseSize)
      let len := int64Of ((if int64Of m_baseSize < read_size then (m_baseSize : Int)
        else read_size) - diff)
      if 0 ≤ diff ∧ 0 ≤ len ∧ diff + len ≤ n.length then
        match writeFileLoop m_baseSize next (idx + 1) (pos + len) (read_size - len) with
        | .error e => .error e
        | .ok (pieces, out) =>
            .ok (⟨idx, diff.toNat, len.toNat⟩ :: pieces,
              window n diff.toNat len.toNat ++ out)
      else .error (.outside diff len)
    else .ok ([], [])

/-- `ByteArray::writeToFile`: what it returns, and the pieces and bytes of the file, if it could be
`opened`. -/
def writeToFile (opened : Bool) (s : Bytearray) :
    Except FileFault (Bool × List Iovec × List UInt8) :=
  if opened then
    (writeFileLoop s.m_baseSize s.m_cur s.passed.length (int64Of s.m_position)
      (int64Of s.getReadSize)).map (true, ·)
  else .ok (false, [], [])

/-- The loop of `readFromFile`; `ifs.read` sets `eof` at the end.  `none` if it runs longer than
`fuel` rounds. -/
def readFileLoop (m_baseSize : Nat) :
    Nat → List UInt8 → Bytearray → Option (EStateM.Result Fault Bytearray Bool)
  | 0, _, _ => none
  | fuel + 1, rest, s =>
    match write (rest.take m_baseSize) s with
    | .error e s => some (.error e s)
    | .ok _ s =>
        if rest.length < m_baseSize then some (.ok true s)
        else readFileLoop m_baseSize fuel (rest.drop m_baseSize) s

/-- `ByteArray::readFromFile`; `file` are the contents, if the file could be opened. -/
def readFromFile (fuel : Nat) (file : Option (List UInt8)) (s : Bytearray) :
    Option (EStateM.Result Fault Bytearray Bool) :=
  match file with
  | none => some (.ok false s)
  | some file => readFileLoop s.m_baseSize fuel file s

/-! ## Writing -/

private theorem int64Of_of_lt {v : Int} (hlo : -2 ^ 63 ≤ v) (hhi : v < 2 ^ 63) : int64Of v = v :=
  Int64.toInt_ofInt_of_le hlo hhi

private theorem intOf_bounds (n : Nat) : -2 ^ 31 ≤ intOf n ∧ intOf n < 2 ^ 31 :=
  ⟨Int32.le_toInt _, Int32.toInt_lt _⟩

/-- Nothing is left to write. -/
theorem writeFileLoop_zero (k : Nat) (c : List Node) (idx : Nat) (pos : Int) :
    writeFileLoop k c idx pos 0 = .ok ([], []) := by
  cases c with
  | nil => exact if_neg (lt_irrefl _)
  | cons n next => exact if_neg (lt_irrefl _)

variable {k idx : Nat} {pos read_size : Int} {pieces : List Iovec} {out : List UInt8}

variable {n : Node} {next c : List Node} {diff : Nat}

/-- A round of the loop that writes something, when it goes well. -/
theorem writeFileLoop_cons {r : List Iovec × List UInt8} (h0 : 0 < read_size)
    (h : writeFileLoop k (n :: next) idx pos read_size = .ok r) :
    ∃ (diff len : Nat) (pieces : List Iovec) (out : List UInt8), intOf (sizeT pos % k) = diff
      ∧ int64Of ((if int64Of k < read_size then (k : Int) else read_size) - diff) = len
      ∧ diff + len ≤ n.length
      ∧ writeFileLoop k next (idx + 1) (pos + len) (read_size - len) = .ok (pieces, out)
      ∧ r = (⟨idx, diff, len⟩ :: pieces, window n diff len ++ out) := by
  rw [writeFileLoop, if_pos h0] at h
  dsimp only at h
  generalize hdiff : intOf (sizeT pos % k) = diff at h
  generalize hlen : int64Of ((if int64Of k < read_size then (k : Int) else read_size) - diff)
    = len at h
  by_cases hin : 0 ≤ diff ∧ 0 ≤ len ∧ diff + len ≤ n.length
  · rw [if_pos hin] at h
    obtain ⟨hd, hl, hfit⟩ := hin
    obtain ⟨d, rfl⟩ := Int.eq_ofNat_of_zero_le hd
    obtain ⟨l, rfl⟩ := Int.eq_ofNat_of_zero_le hl
    cases hrest : writeFileLoop k next (idx + 1) (pos + l) (read_size - l) with
    | error e =>
      rw [hrest] at h
      cases h
    | ok p =>
      rw [hrest] at h
      cases h
      exact ⟨d, l, p.1, p.2, rfl, hlen, by omega, hrest, rfl⟩
  · rw [if_neg hin] at h
    cases h

/-- The converse: a round whose piece is inside its node. -/
theorem writeFileLoop_of_piece {len : Nat} (h0 : 0 < read_size)
    (hdiff : intOf (sizeT pos % k) = diff)
    (hlen : int64Of ((if int64Of k < read_size then (k : Int) else read_size) - diff) = len)
    (hfit : diff + len ≤ n.length)
    (hrest : writeFileLoop k next (idx + 1) (pos + len) (read_size - len) = .ok (pieces, out)) :
    writeFileLoop k (n :: next) idx pos read_size
      = .ok (⟨idx, diff, len⟩ :: pieces, window n diff len ++ out) := by
  rw [writeFileLoop, if_pos h0]
  dsimp only
  rw [hdiff, hlen, if_pos ⟨by omega, by omega, by omega⟩, hrest]
  rfl

/-- **The bytes ahead** are written if the loop starts at a block, or its first piece goes to
the end of one. -/
theorem writeFileLoop_spec (hk : 0 < k) (c : List Node) (idx npos size : Nat) (hu : Uniform k c)
    (hn : npos < k) (hstart : npos = 0 ∨ (k ≤ size ∧ npos < 2 ^ 31))
    (hfit : npos + size ≤ c.flatten.length) (hmem : (idx + c.length) * k < 2 ^ 63) :
    ∃ pieces, writeFileLoop k c idx ((idx * k + npos : Nat) : Int) size
        = .ok (pieces, window c.flatten npos size)
      ∧ pieces.flatMap (addresses k) = range' (idx * k + npos) size := by
  induction c generalizing idx npos size with
  | nil =>
    simp only [flatten_nil, length_nil] at hfit
    obtain rfl : size = 0 := by omega
    exact ⟨[], by rw [window_zero]; exact writeFileLoop_zero .., rfl⟩
  | cons n next ih =>
    obtain ⟨hnk, hnext⟩ := uniform_cons.mp hu
    rw [flatten_cons, length_append, hnk] at hfit
    by_cases h0 : size = 0
    · subst h0
      exact ⟨[], by rw [window_zero]; exact writeFileLoop_zero .., rfl⟩
    have hspace : (idx + (n :: next).length) * k = idx * k + k + next.length * k := by
      rw [length_cons]
      ring
    have hlen := hnext.length_flatten
    have hpos : npos < 2 ^ 31 := by omega
    have hdiff : intOf (sizeT ((idx * k + npos : Nat) : Int) % k) = npos := by
      rw [sizeT_natCast (by omega), Nat.mul_comm, Nat.mul_add_mod, Nat.mod_eq_of_lt hn,
        intOf_of_lt hpos]
    have hbase : int64Of k = k := int64Of_of_lt (by omega) (by omega)
    have hpiece : int64Of ((if int64Of k < (size : Int) then (k : Int) else size) - npos)
        = (min k size - npos : Nat) := by
      rw [hbase]
      split
      · rw [int64Of_of_lt (by omega) (by omega)]
        omega
      · rw [int64Of_of_lt (by omega) (by omega)]
        omega
    by_cases hall : k ≤ size
    · -- to the end of the block, and on with the next one
      obtain ⟨pieces, hrest, haddr⟩ := ih (idx + 1) 0 (size - (k - npos)) hnext hk
        (Or.inl rfl) (by omega) (by
          rw [length_cons] at hmem
          rw [Nat.add_right_comm]
          exact hmem)
      have hgo : idx * k + npos + (k - npos) = (idx + 1) * k + 0 := by
        rw [Nat.succ_mul]
        omega
      have hsum : k - npos + (size - (k - npos)) = size := by omega
      rw [Nat.min_eq_left hall] at hpiece
      refine ⟨⟨idx, npos, k - npos⟩ :: pieces, ?_, ?_⟩
      · rw [writeFileLoop_of_piece (by omega) hdiff hpiece (by omega) (by
          rw [← Int.natCast_add, hgo, ← Int.ofNat_sub (by omega)]
          exact hrest)]
        rw [flatten_cons, window_cross next.flatten (by omega) (by omega), hnk]
      · rw [flatMap_cons, haddr, addresses, ← hgo, range'_append_1, hsum]
    · -- the data ends in this block, at whose start the piece begins
      obtain rfl : npos = 0 := by omega
      rw [Nat.min_eq_right (by omega), Nat.sub_zero] at hpiece
      refine ⟨[⟨idx, 0, size⟩], ?_, ?_⟩
      · rw [writeFileLoop_of_piece (by omega) hdiff hpiece (by omega) (by
          rw [Int.sub_self]
          exact writeFileLoop_zero ..)]
        rw [flatten_cons, window_append_left next.flatten (by omega), append_nil]
      · rw [flatMap_cons, flatMap_nil, append_nil, addresses]

/-- A piece of no bytes moves neither `pos` nor `read_size`, and so on up to the null node. -/
theorem writeFileLoop_stuck (h0 : 0 < read_size) (hdiff : intOf (sizeT pos % k) = diff)
    (hlen : int64Of ((if int64Of k < read_size then (k : Int) else read_size) - diff) = 0)
    (c : List Node) (idx : Nat) (r : List Iovec × List UInt8) :
    writeFileLoop k c idx pos read_size ≠ .ok r := by
  induction c generalizing idx r with
  | nil =>
    intro h
    rw [writeFileLoop, if_pos h0] at h
    cases h
  | cons n next ih =>
    intro h
    obtain ⟨d, l, pieces, out, hd, hl, -, hrest, -⟩ := writeFileLoop_cons h0 h
    obtain rfl : d = diff := by omega
    obtain rfl : l = 0 := by omega
    rw [Int.natCast_zero, Int.add_zero, Int.sub_zero] at hrest
    exact ih _ _ hrest

/-- The first byte of a loop that goes well is in its first node, at the offset `int diff`. -/
theorem writeFileLoop_head (h0 : 0 < read_size)
    (h : writeFileLoop k c idx pos read_size = .ok (pieces, out)) :
    ∃ (diff : Nat) (rest : List Nat), intOf (sizeT pos % k) = diff
      ∧ pieces.flatMap (addresses k) = (idx * k + diff) :: rest := by
  cases c with
  | nil =>
    rw [writeFileLoop, if_pos h0] at h
    cases h
  | cons n next =>
    obtain ⟨d, l, pieces', out', hd, hl, -, hrest, hr⟩ := writeFileLoop_cons h0 h
    obtain ⟨rfl, -⟩ := Prod.mk.inj hr
    cases l with
    | zero => exact absurd h (writeFileLoop_stuck h0 hd hl _ _ _)
    | succ l =>
      refine ⟨d, range' (idx * k + d + 1) l ++ pieces'.flatMap (addresses k), hd, ?_⟩
      rw [flatMap_cons, addresses, range'_succ, cons_append]

/-- A first piece that ends inside its block goes on in the WRONG node. -/
theorem not_writeFileLoop {npos size : Nat} (hn : npos < k) (h0 : 0 < size)
    (hbad : ¬ (npos = 0 ∨ (k ≤ size ∧ npos < 2 ^ 31))) (hmem : (idx + c.length) * k < 2 ^ 63)
    (hfit : npos + size ≤ c.length * k)
    (h : writeFileLoop k c idx ((idx * k + npos : Nat) : Int) size = .ok (pieces, out)) :
    pieces.flatMap (addresses k) ≠ range' (idx * k + npos) size := by
  intro haddr
  have h0' : (0 : Int) < size := by omega
  obtain ⟨m, rfl⟩ := Nat.exists_eq_succ_of_ne_zero (Nat.pos_iff_ne_zero.mp h0)
  -- the first byte is the right one only if `int diff` holds the offset
  obtain ⟨diff, rest, hdiff, hhead⟩ := writeFileLoop_head h0' h
  rw [haddr, range'_succ] at hhead
  obtain rfl : diff = npos := by
    have := (cons.inj hhead).1
    omega
  have hoff : sizeT ((idx * k + diff : Nat) : Int) % k = diff := by
    rw [Nat.add_mul] at hmem
    rw [sizeT_natCast (by omega), Nat.mul_comm, Nat.mul_add_mod, Nat.mod_eq_of_lt hn]
  have hsmall := (intOf_bounds diff).2
  rw [hoff] at hdiff
  cases c with
  | nil =>
    rw [writeFileLoop, if_pos h0'] at h
    cases h
  | cons n next =>
    obtain ⟨d, l, pieces', out', hd, hl, -, hrest, hr⟩ := writeFileLoop_cons h0' h
    obtain ⟨rfl, -⟩ := Prod.mk.inj hr
    have hk : k < 2 ^ 63 := by
      rw [length_cons, ← Nat.add_assoc, Nat.succ_mul] at hmem
      omega
    rw [hoff] at hd
    obtain rfl : d = diff := by omega
    rw [int64Of_of_lt (v := k) (by omega) (by omega), if_neg (by omega),
      int64Of_of_lt (by omega) (by omega)] at hl
    -- the rest of the first block is looked for in the second node
    obtain ⟨diff', rest', -, hhead'⟩ := writeFileLoop_head (by omega) hrest
    have hsplit : range' (idx * k + d) (m + 1)
        = range' (idx * k + d) l ++ range' (idx * k + d + l) d := by
      rw [range'_append_1]
      congr 1
      omega
    rw [flatMap_cons, addresses, hsplit, append_cancel_left_eq, hhead'] at haddr
    cases d with
    | zero => omega
    | succ d =>
      rw [range'_succ] at haddr
      have := (cons.inj haddr).1
      rw [Nat.succ_mul] at this
      omega

/-! ## Reading -/

/-- **Reading a file** appends its contents. -/
theorem readFileLoop_spec (hk : 1 ≤ k) (n : Nat) (file : List UInt8) {s : Bytearray}
    (hs : WellFormed s) (hn : file.length < n) :
    ∃ s', Wrote s file s' ∧ ∀ fuel, n ≤ fuel → readFileLoop k fuel file s = some (.ok true s') := by
  induction n generalizing file s with
  | zero => exact absurd hn (Nat.not_lt_zero _)
  | succ n ih =>
    obtain ⟨s₁, hwrite, hwrote⟩ := write_spec hs (file.take k)
    by_cases hend : file.length < k
    · rw [take_of_length_le (by omega)] at hwrote
      refine ⟨s₁, hwrote, fun fuel hfuel => ?_⟩
      obtain ⟨fuel, rfl⟩ := Nat.exists_eq_succ_of_ne_zero (show fuel ≠ 0 by omega)
      rw [readFileLoop, hwrite]
      exact if_pos hend
    · obtain ⟨s₂, hwrote₂, hloop⟩ := ih (file.drop k) hwrote.inv (by
        rw [length_drop]
        omega)
      refine ⟨s₂, ?_, fun fuel hfuel => ?_⟩
      · have hall := Wrote.trans hwrote hwrote₂
        rw [take_append_drop] at hall
        exact hall
      · obtain ⟨fuel, rfl⟩ := Nat.exists_eq_succ_of_ne_zero (show fuel ≠ 0 by omega)
        rw [readFileLoop, hwrite]
        dsimp only
        rw [if_neg hend]
        exact hloop fuel (by omega)

/-! ## There and back -/

/-- The file holds the bytes `[m_position, m_size)` from where they are; read into an empty array
they are given back. -/
def RoundTrips (s : Bytearray) : Prop :=
  ∃ pieces file, writeToFile true s = .ok (true, pieces, file)
    ∧ pieces.flatMap (addresses s.m_baseSize) = List.range' s.m_position s.getReadSize
    ∧ file = window s.flat s.m_position s.getReadSize
    ∧ ∀ t, WellFormed t → t.m_position = 0 → t.m_size = 0 →
      ∃ n t₁ t₂, (∀ fuel, n ≤ fuel → readFromFile fuel (some file) t = some (.ok true t₁))
        ∧ setPosition 0 t₁ = .ok () t₂ ∧ t₂.m_position = 0 ∧ t₂.m_size = file.length
        ∧ window t₂.flat 0 t₂.m_size = file

/-- Nothing is ahead, or the position is at a block, or at least a block is ahead and the offset
fits an `int`. -/
def Aligned (s : Bytearray) : Prop :=
  s.getReadSize = 0 ∨ s.m_position % s.m_baseSize = 0
    ∨ (s.m_baseSize ≤ s.getReadSize ∧ s.m_position % s.m_baseSize < 2 ^ 31)

instance (s : Bytearray) : Decidable (Aligned s) := inferInstanceAs (Decidable (_ ∨ _))

/-- Any file reads back. -/
theorem readFromFile_spec (file : List UInt8) {t : Bytearray} (ht : WellFormed t)
    (hpos : t.m_position = 0) (hsize : t.m_size = 0) :
    ∃ n t₁ t₂, (∀ fuel, n ≤ fuel → readFromFile fuel (some file) t = some (.ok true t₁))
      ∧ setPosition 0 t₁ = .ok () t₂ ∧ t₂.m_position = 0 ∧ t₂.m_size = file.length
      ∧ window t₂.flat 0 t₂.m_size = file := by
  obtain ⟨t₁, hwrote, hloop⟩ := readFileLoop_spec ht.base_pos _ file ht (Nat.lt_succ_self _)
  obtain ⟨t₂, hset, hmoved, hholds⟩ := Wrote.rewind hwrote
  have hend := hwrote.data
  have hdata := hmoved.data
  have hback := hmoved.position
  rw [hpos] at hset hback hend hdata
  have hlen : t₂.m_size = file.length := by omega
  refine ⟨_, t₁, t₂, hloop, hset, hback, hlen, ?_⟩
  have hwindow := hholds.window_eq
  rw [hback] at hwindow
  rw [hlen, hwindow]

/-- **The file round trip** holds exactly when the array is `Aligned`. -/
theorem file_round_trip_iff {s : Bytearray} (hs : WellFormed s) (hmem : s.m_capacity < 2 ^ 63) :
    RoundTrips s ↔ Aligned s := by
  have hpos := hs.position_le
  have hsize := hs.size_le
  have hrs : s.getReadSize = s.m_size - s.m_position := rfl
  have hoff := hs.offset_lt
  have hroom := hs.room
  have hsplit := hs.position_split
  rw [hs.uniform_passed.length_flatten] at hsplit
  have hchain : (s.passed.length + s.m_cur.length) * s.m_baseSize < 2 ^ 63 := by
    rw [← length_append]
    show s.m_root.length * s.m_baseSize < _
    rw [← hs.capacity_eq]
    exact hmem
  -- the content lies in the blocks from the cursor on
  have hfit : s.m_position % s.m_baseSize + s.getReadSize ≤ s.m_cur.flatten.length := by
    have hcap : s.getCapacity = s.m_capacity - s.m_position := rfl
    omega
  have hrun : writeToFile true s = (writeFileLoop s.m_baseSize s.m_cur s.passed.length
      ((s.passed.length * s.m_baseSize + s.m_position % s.m_baseSize : Nat) : Int)
      s.getReadSize).map (true, ·) := by
    rw [writeToFile, if_pos rfl, hsplit, int64Of_of_lt (by omega) (by omega),
      int64Of_of_lt (by omega) (by omega)]
  constructor
  · rintro ⟨pieces, file, hfile, haddr, -⟩
    by_contra hbad
    obtain ⟨h0, hbad⟩ := not_or.mp hbad
    rw [hrun] at hfile
    cases hloop : writeFileLoop s.m_baseSize s.m_cur s.passed.length
        ((s.passed.length * s.m_baseSize + s.m_position % s.m_baseSize : Nat) : Int)
        s.getReadSize with
    | error e =>
      rw [hloop] at hfile
      cases hfile
    | ok r =>
      rw [hloop] at hfile
      cases hfile
      rw [hs.uniform_cur.length_flatten] at hfit
      refine not_writeFileLoop hoff (Nat.pos_of_ne_zero h0) hbad hchain hfit hloop ?_
      rw [hsplit]
      exact haddr
  · intro hgood
    have hwrite : ∃ pieces, writeFileLoop s.m_baseSize s.m_cur s.passed.length
          ((s.passed.length * s.m_baseSize + s.m_position % s.m_baseSize : Nat) : Int)
          s.getReadSize
          = .ok (pieces, window s.m_cur.flatten (s.m_position % s.m_baseSize) s.getReadSize)
        ∧ pieces.flatMap (addresses s.m_baseSize) = range'
          (s.passed.length * s.m_baseSize + s.m_position % s.m_baseSize) s.getReadSize := by
      rcases hgood with h0 | hgood
      · rw [h0, window_zero]
        exact ⟨[], writeFileLoop_zero .., rfl⟩
      · exact writeFileLoop_spec hs.base_pos _ _ _ _ hs.uniform_cur hoff hgood hfit hchain
    obtain ⟨pieces, hloop, haddr⟩ := hwrite
    refine ⟨pieces, _, ?_, ?_, rfl, fun t ht => readFromFile_spec _ ht⟩
    · rw [hrun, hloop, ← window_append_right s.passed.flatten, ← WellFormed.flat_eq,
        hs.position_split]
      rfl
    · rw [haddr, hsplit]

theorem file_round_trip_iff_twoBlocks : RoundTrips twoBlocks := by
  have h := file_round_trip_iff wellFormed_twoBlocks (by decide)
  exact h.mpr (by decide)

/-- Three bytes in a block of four, the position behind the first. -/
def shortTail : Bytearray where
  m_baseSize := 4
  m_position := 1
  m_capacity := 4
  m_size := 3
  m_endian := 0
  passed := []
  m_cur := [[1, 2, 3, 0]]

/-- `shortTail` is what writing three bytes and setting the position leaves. -/
example :
    (do write [1, 2, 3]; setPosition 1 : BA Unit) (Bytearray.new 4 0) = .ok () shortTail := by
  rfl

/-- **A short tail**: one of the two bytes ahead is written, then the null node is dereferenced; one
byte at offset two has a negative length. -/
theorem short_tail_faults : WellFormed shortTail ∧ window shortTail.flat 1 2 = [2, 3]
      ∧ writeToFile true shortTail = .error .nullNode
      ∧ ¬ RoundTrips shortTail
      ∧ writeToFile true { twoBlocks with m_position := 2, m_size := 3 }
        = .error (.outside 2 (-1)) := by
  have hfault : writeToFile true shortTail = .error .nullNode := by decide
  refine ⟨⟨by decide, by decide, by unfold Uniform; decide, by decide, by decide, by decide,
    by decide⟩, by decide, hfault, ?_, by decide⟩
  rintro ⟨pieces, file, hfile, -⟩
  rw [hfault] at hfile
  cases hfile

end SylarBytearrayFile
