import Sylar.RockProtocolProofs

/-! # The vectors handed to the kernel (`socket_stream.cc`, `bytearray.cc`)

`SocketStream::read(ba, n)` gives `recvmsg` one entry for each block that the next `n`
bytes of the array touch, `write(ba, n)` gives `sendmsg` one for each block of the data
ahead.  The kernel refuses more than `IOV_MAX` entries; nothing on the way from
`readFixSize` and `writeFixSize` down cuts the request.

* **`iovLoop_length`** — the number of entries, and that none is empty.
* **`io_vectors_iff`** — a call hands over a vector the kernel takes exactly when the blocks it
  touches hold at most `4 MiB`, and there is something to send. -/

namespace SylarIoVector

open ListWindow SylarBytearray SylarStream SylarZlibStream SylarRockProtocol

/-! ## The number of entries -/

/-- The limit of the kernel (`limits.h`). -/
def IOV_MAX : Nat := 1024

/-- What a call for `n` bytes may hand to the kernel. -/
structure Bounded (n : Nat) (iovs : List Iovec) : Prop where
  some_entry : 1 ≤ iovs.length
  at_most : iovs.length ≤ IOV_MAX
  filled : ∀ v ∈ iovs, 0 < v.len
  total : (iovs.map Iovec.len).sum ≤ n

variable {k m n left : Nat} {s ba ba₁ : Bytearray} {iovs : List Iovec} {t t₁ : Transport} {rt : Int}

/-- **One entry for each block** that the bytes touch. -/
theorem iovLoop_length (hk : 0 < k) {c : List Node} {idx npos len : Nat} {iovs : List Iovec}
    (hu : Uniform k c) (hn : npos < k) (hl : 0 < len) (h : iovLoop c idx npos len = .ok iovs) :
    iovs.length = (npos + len - 1) / k + 1 ∧ ∀ v ∈ iovs, 0 < v.len := by
  induction c generalizing idx npos len iovs with
  | nil => cases h
  | cons n next ih =>
    obtain ⟨hnk, hnext⟩ := uniform_cons.mp hu
    rcases iovLoop_cons_ok h with ⟨hlast, rfl⟩ | ⟨hmore, rest, rfl, hrest⟩
    · refine ⟨?_, fun v hv => ?_⟩
      · rw [Nat.div_eq_of_lt (by omega), List.length_singleton]
      · rw [List.mem_singleton.mp hv]
        exact hl
    · obtain ⟨hcount, hfilled⟩ := ih hnext hk (by omega) hrest
      refine ⟨?_, fun v hv => ?_⟩
      · have hpast : npos + len - 1 = 0 + (len - (n.length - npos)) - 1 + k := by omega
        rw [List.length_cons, hcount, hpast, Nat.add_div_right _ hk]
      · rcases List.mem_cons.mp hv with rfl | hv
        · show 0 < n.length - npos
          omega
        · exact hfilled v hv

/-! ## One call -/

/-- The vector of `recvmsg` in `read(ba, n)`. -/
def RecvBounded (ba : Bytearray) (n : Nat) : Prop :=
  ∃ iovs ba', getWriteBuffers n ba = .ok iovs ba' ∧ Bounded n iovs

/-- The vector of `sendmsg` in `write(ba, n)`. -/
def SendBounded (ba : Bytearray) (n : Nat) : Prop :=
  ∃ iovs ba', getReadBuffers n ba = .ok iovs ba' ∧ Bounded n iovs

/-- The blocks that `n` bytes from the position on touch are not too many. -/
def Fits (ba : Bytearray) (n : Nat) : Prop :=
  ba.m_position % ba.m_baseSize + n ≤ IOV_MAX * ba.m_baseSize

instance (ba : Bytearray) (n : Nat) : Decidable (Fits ba n) := inferInstanceAs (Decidable (_ ≤ _))

theorem entries_le_iff (hk : 0 < k) (hm : 0 < m) : (m - 1) / k + 1 ≤ IOV_MAX ↔ m ≤ IOV_MAX * k := by
  have hdiv : (m - 1) / k < IOV_MAX ↔ m - 1 < IOV_MAX * k := Nat.div_lt_iff_lt_mul hk
  constructor
  · intro h
    have := hdiv.mp h
    omega
  · intro h
    exact hdiv.mpr (by omega)

/-- A vector of the loop over the chain from the position on. -/
theorem bounded_iff (hs : WellFormed s) {idx : Nat} (hm : 0 < m) (hle : m ≤ n)
    (hloop : iovLoop s.m_cur idx (s.m_position % s.m_baseSize) m = .ok iovs) :
    Bounded n iovs ↔ Fits s m := by
  obtain ⟨hcount, hfilled⟩ := iovLoop_length hs.base_pos hs.uniform_cur hs.offset_lt hm hloop
  have htotal := iovLoop_total hloop
  have hiff := entries_le_iff (m := s.m_position % s.m_baseSize + m) hs.base_pos (by omega)
  constructor
  · intro h
    exact hiff.mp (hcount ▸ h.at_most)
  · intro h
    exact ⟨hcount ▸ Nat.succ_pos _, hcount ▸ hiff.mpr h, hfilled, by omega⟩

variable {s' : Bytearray} {t' : Transport} {data : List UInt8}

/-- What `getWriteBuffers` returns is the vector of its loop. -/
theorem getWriteBuffers_loop (hn : 1 ≤ n) (h : getWriteBuffers n s = .ok iovs s') :
    iovLoop (s.addCapacity n).m_cur (s.addCapacity n).passed.length
      ((s.addCapacity n).m_position % (s.addCapacity n).m_baseSize) n = .ok iovs := by
  rw [getWriteBuffers, if_neg (by omega)] at h
  dsimp only at h
  split at h
  · cases h
  · next hloop =>
      cases h
      exact hloop

theorem getReadBuffers_loop (hn : 0 < min n s.getReadSize) (h : getReadBuffers n s = .ok iovs s') :
    iovLoop s.m_cur s.passed.length (s.m_position % s.m_baseSize) (min n s.getReadSize)
      = .ok iovs := by
  have hmin : (if s.getReadSize < n then s.getReadSize else n) = min n s.getReadSize := by
    split <;> omega
  rw [getReadBuffers, hmin, if_neg (by omega)] at h
  split at h
  · cases h
  · next hloop =>
      cases h
      exact hloop

/-- `read(ba, n)`: the vector fits exactly when the blocks do. -/
theorem recvBounded_iff (hs : WellFormed s) (hn : 1 ≤ n) : RecvBounded s n ↔ Fits s n := by
  have hg := addCapacity_spec hs n
  have hiff : ∀ {iovs : List Iovec} {s' : Bytearray}, getWriteBuffers n s = .ok iovs s' →
      (Bounded n iovs ↔ Fits s n) := by
    intro iovs s' hget
    have h := bounded_iff hg.inv hn (Nat.le_refl n) (getWriteBuffers_loop hn hget)
    rw [Fits, hg.position, hg.base] at h
    exact h
  constructor
  · rintro ⟨iovs, ba', hget, hb⟩
    exact (hiff hget).mp hb
  · intro hfits
    obtain ⟨iovs, hget, -⟩ := getWriteBuffers_spec hs hn
    exact ⟨iovs, _, hget, (hiff hget).mpr hfits⟩

/-- `write(ba, n)`: the same for the data ahead, of which there has to be some. -/
theorem sendBounded_iff (hs : WellFormed s) (hn : 1 ≤ n) :
    SendBounded s n ↔ 0 < s.getReadSize ∧ Fits s (min n s.getReadSize) := by
  obtain ⟨iovs, hget, -⟩ := getReadBuffers_spec hs n
  have hsame : SendBounded s n ↔ Bounded n iovs := by
    constructor
    · rintro ⟨iovs', ba', hget', hb⟩
      rw [hget] at hget'
      cases hget'
      exact hb
    · exact fun hb => ⟨iovs, s, hget, hb⟩
  rw [hsame]
  by_cases h0 : s.getReadSize = 0
  · refine iff_of_false (fun hb => ?_) (fun h => absurd h.1 (by omega))
    have hnone : getReadBuffers n s = .ok [] s := by
      rw [getReadBuffers, h0, if_pos (Nat.pos_of_ne_zero (by omega)), if_pos rfl]
    rw [hnone] at hget
    cases hget
    exact absurd hb.some_entry (by decide)
  · have hpos : 0 < min n s.getReadSize := by omega
    rw [bounded_iff hs hpos (Nat.min_le_left ..) (getReadBuffers_loop hpos hget)]
    exact ⟨fun h => ⟨by omega, h⟩, fun h => h.2⟩

/-! ## The calls of the fixed-size loops -/

/-- No call fails: it moves bytes or meets the end. -/
structure Answered (t : Transport) : Prop where
  connected : t.connected = true
  incoming : ∀ err, Arrival.fails err ∈ t.incoming → err = 0
  grants : ∀ g ∈ t.grants, 0 ≤ g

/-- The calls `call(ba, left)` of the loop of a fixed-size transfer: `readArray` or `writeArray`. -/
inductive LoopCall (call : Bytearray → Nat → StreamM (Int × Bytearray)) :
    Bytearray → Nat → Transport → Bytearray → Nat → Prop
  | here {ba : Bytearray} {left : Nat} {t : Transport} (hleft : left ≠ 0) :
      LoopCall call ba left t ba left
  | next {ba ba₁ ba' : Bytearray} {left left' : Nat} {t t₁ : Transport} {rt : Int}
      (hleft : left ≠ 0) (hcall : call ba left t = .ok (rt, ba₁) t₁) (hlen : sizeT rt ≠ 0)
      (rest : LoopCall call ba₁ (subSizeT left (sizeT rt)) t₁ ba' left') :
      LoopCall call ba left t ba' left'

/-- The rule for such a loop: what every round keeps holds at each call. -/
theorem LoopCall.inv {call : Bytearray → Nat → StreamM (Int × Bytearray)}
    {I : Bytearray → Nat → Transport → Prop}
    (hstep : ∀ {ba ba₁ : Bytearray} {left : Nat} {t t₁ : Transport} {rt : Int},
      I ba left t → left ≠ 0 → call ba left t = .ok (rt, ba₁) t₁ → sizeT rt ≠ 0 →
      I ba₁ (subSizeT left (sizeT rt)) t₁) {ba' : Bytearray} {left' : Nat}
    (h : LoopCall call ba left t ba' left') (hI : I ba left t) :
    left' ≠ 0 ∧ ∃ t', I ba' left' t' := by
  induction h with
  | here hleft => exact ⟨hleft, _, hI⟩
  | next hleft hcall hlen _ ih => exact ih (hstep hI hleft hcall hlen)

/-- A receive that does not fail. -/
theorem recv_answered (h : Answered t) (hrecv : t.recv n = (rt, data, t')) :
    Answered t' ∧ rt = data.length ∧ data.length ≤ n := by
  rw [Transport.recv] at hrecv
  cases hin : t.incoming with
  | nil =>
    rw [hin] at hrecv
    cases hrecv
    exact ⟨h, rfl, Nat.zero_le _⟩
  | cons a rest =>
    have hrest : ∀ err, Arrival.fails err ∈ rest → err = 0 := fun err herr =>
      h.incoming err (hin ▸ List.mem_cons_of_mem _ herr)
    rw [hin] at hrecv
    cases a with
    | fails err =>
      have herr := h.incoming err (hin ▸ List.mem_cons_self ..)
      subst herr
      cases hrecv
      exact ⟨⟨h.connected, hrest, h.grants⟩, rfl, Nat.zero_le _⟩
    | bytes seg =>
      dsimp only at hrecv
      by_cases hfit : seg.length ≤ n
      · rw [if_pos hfit] at hrecv
        cases hrecv
        exact ⟨⟨h.connected, hrest, h.grants⟩, rfl, hfit⟩
      · rw [if_neg hfit] at hrecv
        cases hrecv
        have hlen : (seg.take n).length = n := by
          rw [List.length_take]
          omega
        refine ⟨⟨h.connected, fun err herr => ?_, h.grants⟩, by rw [hlen], Nat.le_of_eq hlen⟩
        rcases List.mem_cons.mp herr with heq | herr
        · cases heq
        · exact hrest err herr

/-- A send that does not fail. -/
theorem send_answered (h : Answered t) (hsend : t.send data = (rt, t')) :
    Answered t' ∧ 0 ≤ rt ∧ rt ≤ data.length := by
  rw [Transport.send] at hsend
  cases hg : t.grants with
  | nil =>
    rw [hg] at hsend
    cases hsend
    exact ⟨⟨h.connected, h.incoming, fun x hx => absurd hx List.not_mem_nil⟩, by omega,
      Int.le_refl _⟩
  | cons g gs =>
    have hrest : ∀ x ∈ gs, 0 ≤ x := fun x hx => h.grants x (hg ▸ List.mem_cons_of_mem _ hx)
    have hpos : 0 ≤ g := h.grants g (hg ▸ List.mem_cons_self ..)
    rw [hg] at hsend
    dsimp only at hsend
    by_cases h0 : g ≤ 0
    · rw [if_pos h0] at hsend
      cases hsend
      exact ⟨⟨h.connected, h.incoming, hrest⟩, hpos, by omega⟩
    · rw [if_neg h0] at hsend
      cases hsend
      exact ⟨⟨h.connected, h.incoming, hrest⟩, by omega, by omega⟩

/-- What a call that moves `m` bytes leaves. -/
structure Moves (ba : Bytearray) (m : Nat) (ba₁ : Bytearray) : Prop where
  inv : WellFormed ba₁
  base : ba₁.m_baseSize = ba.m_baseSize
  position : ba₁.m_position = ba.m_position + m

/-- The position has moved by what is no longer asked for. -/
theorem Moves.fits (h : Moves ba m ba₁) (hm : m ≤ left) (hfits : Fits ba left) :
    Fits ba₁ (left - m) := by
  have hmod : (ba.m_position + m) % ba.m_baseSize ≤ ba.m_position % ba.m_baseSize + m := by
    rw [← Nat.mod_add_mod]
    exact Nat.mod_le _ _
  rw [Fits] at hfits ⊢
  rw [h.base, h.position]
  omega

/-- `read(ba, left)` that moves something. -/
theorem readArray_moves (hs : WellFormed ba) (ht : Answered t) (hleft : left ≠ 0)
    (hcall : readArray ba left t = .ok (rt, ba₁) t₁) (hlen : sizeT rt ≠ 0) :
    ∃ m : Nat, rt = m ∧ 0 < m ∧ m ≤ left ∧ Answered t₁ ∧ Moves ba m ba₁ := by
  obtain ⟨iovs, hget, htotal, -⟩ := getWriteBuffers_spec hs (Nat.pos_of_ne_zero hleft)
  rw [readArray, bind_ok (show (get : StreamM Transport) t = .ok t t from rfl), ht.connected,
    if_neg (by decide), bind_ok (onArray_ok hget t)] at hcall
  simp only [htotal] at hcall
  rcases hrecv : t.recv left with ⟨rt', data, t'⟩
  obtain ⟨ht', hrt, hle⟩ := recv_answered ht hrecv
  rw [hrecv] at hcall
  dsimp only at hcall
  rw [bind_ok (show (set t' : StreamM PUnit) t = .ok ⟨⟩ t' from rfl)] at hcall
  by_cases hd : 0 < data.length
  · obtain ⟨iovs', s', hget', -, hset, hpos, hstored⟩ := fill_spec hs hd hle
    rw [hget] at hget'
    cases hget'
    rw [← hpos] at hset
    rw [hrt, bind_ok (advance_ok hd hset t')] at hcall
    cases hcall
    exact ⟨data.length, rfl, hd, hle, ht', hstored.inv, hstored.base, hstored.position⟩
  · -- the end of the stream: the loop stops
    obtain rfl : rt' = 0 := by omega
    rw [advance, if_neg (by decide)] at hcall
    cases hcall
    exact absurd rfl hlen

/-- `write(ba, left)` that moves something. -/
theorem writeArray_moves (hs : WellFormed ba) (ht : Answered t) (hle : left ≤ ba.getReadSize)
    (hcall : writeArray ba left t = .ok (rt, ba₁) t₁) (hlen : sizeT rt ≠ 0) :
    ∃ m : Nat, rt = m ∧ 0 < m ∧ m ≤ left ∧ Answered t₁ ∧ Moves ba m ba₁
      ∧ ba₁.m_size = ba.m_size := by
  obtain ⟨iovs, hget, hgather⟩ := getReadBuffers_spec hs left
  have hsize := hs.size_le
  have hrs : ba.getReadSize = ba.m_size - ba.m_position := rfl
  have hlength : (gather ba.m_root iovs).length = left := by
    rw [hgather, Nat.min_eq_left hle, length_window]
    rw [hs.flat_length]
    have := hs.position_le
    omega
  rw [writeArray, bind_ok (show (get : StreamM Transport) t = .ok t t from rfl), ht.connected,
    if_neg (by decide), bind_ok (onArray_ok hget t)] at hcall
  dsimp only at hcall
  rcases hsend : t.send (gather ba.m_root iovs) with ⟨rt', t'⟩
  obtain ⟨ht', h0, hmax⟩ := send_answered ht hsend
  rw [hlength] at hmax
  rw [hsend] at hcall
  dsimp only at hcall
  rw [bind_ok (show (set t' : StreamM PUnit) t = .ok ⟨⟩ t' from rfl)] at hcall
  obtain ⟨m, rfl⟩ := Int.eq_ofNat_of_zero_le h0
  by_cases hm : 0 < m
  · obtain ⟨s', hset, hmoved⟩ := setPosition_spec (v := ba.m_position + m) hs (by omega)
    rw [bind_ok (advance_ok hm hset t')] at hcall
    cases hcall
    exact ⟨m, rfl, hm, by omega, ht', ⟨hmoved.inv, hmoved.base, hmoved.position⟩,
      hmoved.data.trans (Nat.max_eq_left (by omega))⟩
  · obtain rfl : m = 0 := by omega
    rw [advance, if_neg (by decide)] at hcall
    cases hcall
    exact absurd rfl hlen

/-- What a round of the loops keeps. -/
structure Asked (k n : Nat) (ba : Bytearray) (left : Nat) (t : Transport) : Prop where
  inv : WellFormed ba
  base : ba.m_baseSize = k
  answered : Answered t
  at_most : left ≤ n
  fits : Fits ba left

/-- A round moves the position and asks for less. -/
theorem Asked.next (h : Asked k n ba left t) (hn : n < 2 ^ 64) (hm : m ≤ left) (ht : Answered t₁)
    (hmoves : Moves ba m ba₁) :
    subSizeT left (sizeT m) = left - m ∧ Asked k n ba₁ (left - m) t₁ := by
  have hle := h.at_most
  refine ⟨?_, hmoves.inv, hmoves.base.trans h.base, ht, by omega, hmoves.fits hm h.fits⟩
  rw [sizeT_natCast (by omega), subSizeT_of_le hm (by omega)]

/-- The calls on the way of `readFixSize`. -/
theorem readFix_calls (hs : WellFormed s) (hn : n < 2 ^ 64) (hfits : Fits s n) (ht : Answered t)
    (h : LoopCall readArray s n t ba left) : left ≤ n ∧ RecvBounded ba left := by
  obtain ⟨hleft, t', hask⟩ := h.inv (I := Asked s.m_baseSize n) (by
    intro ba ba₁ left t t₁ rt hask hleft hcall hlen
    obtain ⟨m, rfl, -, hm, ht₁, hmoves⟩ := readArray_moves hask.inv hask.answered hleft hcall hlen
    obtain ⟨hsub, hnext⟩ := hask.next hn hm ht₁ hmoves
    rw [hsub]
    exact hnext) ⟨hs, rfl, ht, Nat.le_refl n, hfits⟩
  exact ⟨hask.at_most, (recvBounded_iff hask.inv (Nat.pos_of_ne_zero hleft)).mpr hask.fits⟩

/-- The calls on the way of `writeFixSize`, of no more than there is. -/
theorem writeFix_calls (hs : WellFormed s) (hn : n < 2 ^ 64) (hfits : Fits s n) (ht : Answered t)
    (hle : n ≤ s.getReadSize) (h : LoopCall writeArray s n t ba left) :
    left ≤ n ∧ SendBounded ba left := by
  obtain ⟨hleft, t', hask, hav⟩ := h.inv
    (I := fun ba left t => Asked s.m_baseSize n ba left t ∧ left ≤ ba.getReadSize) (by
    rintro ba ba₁ left t t₁ rt ⟨hask, hav⟩ hleft hcall hlen
    obtain ⟨m, rfl, -, hm, ht₁, hmoves, hsize⟩ :=
      writeArray_moves hask.inv hask.answered hav hcall hlen
    obtain ⟨hsub, hnext⟩ := hask.next hn hm ht₁ hmoves
    have hpos := hmoves.position
    rw [Bytearray.getReadSize] at hav
    rw [hsub]
    refine ⟨hnext, ?_⟩
    rw [Bytearray.getReadSize]
    omega) ⟨⟨hs, rfl, ht, Nat.le_refl n, hfits⟩, hle⟩
  refine ⟨hask.at_most, (sendBounded_iff hask.inv (Nat.pos_of_ne_zero hleft)).mpr ?_⟩
  rw [Nat.min_eq_left hav]
  exact ⟨by omega, hask.fits⟩

/-- **Bounded I/O vectors.**  A call hands over a vector that the kernel takes exactly when
the bytes it asks for touch at most `IOV_MAX` blocks, and something is there to send.  If
this holds for the whole transfer, it holds for every call of the fixed-size loops, as
long as none fails. -/
theorem io_vectors_iff {s : Bytearray} (hs : WellFormed s) (hbase : s.m_baseSize = defaultSize)
    {n : Nat} (hn : 1 ≤ n) :
    (RecvBounded s n ↔ s.m_position % 4096 + n ≤ 2 ^ 22) ∧ (SendBounded s n
        ↔ 0 < s.getReadSize ∧ s.m_position % 4096 + min n s.getReadSize ≤ 2 ^ 22)
      ∧ (s.m_position % 4096 + n ≤ 2 ^ 22 → ∀ t ba left, Answered t →
        LoopCall readArray s n t ba left → left ≤ n ∧ RecvBounded ba left)
      ∧ (s.m_position % 4096 + n ≤ 2 ^ 22 → n ≤ s.getReadSize → ∀ t ba left, Answered t →
        LoopCall writeArray s n t ba left → left ≤ n ∧ SendBounded ba left) := by
  have hfits : ∀ m, Fits s m ↔ s.m_position % 4096 + m ≤ 2 ^ 22 := by
    intro m
    rw [Fits, hbase]
    exact Iff.rfl
  refine ⟨(recvBounded_iff hs hn).trans (hfits n), ?_, ?_, ?_⟩
  · rw [sendBounded_iff hs hn, hfits]
  · intro h t ba left ht hcall
    exact readFix_calls hs (by omega) ((hfits n).mpr h) ht hcall
  · intro h hle t ba left ht hcall
    exact writeFix_calls hs (by omega) ((hfits n).mpr h) ht hle hcall

theorem io_vectors_iff_fresh : RecvBounded (Bytearray.new defaultSize 0) 4194304
      ∧ ¬ SendBounded (Bytearray.new defaultSize 0) 1 := by
  have hs := inv_new 0 (show 1 ≤ defaultSize by decide)
  have h := io_vectors_iff hs rfl (n := 4194304) (by decide)
  have h' := io_vectors_iff hs rfl (n := 1) (by decide)
  exact ⟨h.1.mpr (by decide), fun hsend => absurd (h'.2.1.mp hsend).1 (by decide)⟩

/-- **A message of the greatest length** is received into 16384 blocks at once: `recvmsg` refuses
the vector. -/
theorem max_length_refused : ({} : RockConfig).max_length.toNat = 64 * 1024 * 1024
      ∧ (∃ iovs ba, getWriteBuffers (({} : RockConfig).max_length.toNat - 1)
          (Bytearray.new defaultSize 0) = .ok iovs ba ∧ iovs.length = 16384)
      ∧ ¬ RecvBounded (Bytearray.new defaultSize 0) (({} : RockConfig).max_length.toNat - 1) := by
  have hs := inv_new 0 (show 1 ≤ defaultSize by decide)
  have hlen : ({} : RockConfig).max_length.toNat - 1 = 67108863 := by decide
  rw [hlen]
  have hpos : 0 < 67108863 := by decide
  obtain ⟨iovs, hget, -⟩ := getWriteBuffers_spec hs hpos
  refine ⟨by decide, ⟨iovs, _, hget, ?_⟩, ?_⟩
  · have hg := addCapacity_spec hs 67108863
    have hcount := (iovLoop_length hg.inv.base_pos hg.inv.uniform_cur hg.inv.offset_lt
      (by decide) (getWriteBuffers_loop (by decide) hget)).1
    rw [hg.position, hg.base] at hcount
    exact hcount
  · rw [recvBounded_iff hs (by decide)]
    decide

end SylarIoVector
