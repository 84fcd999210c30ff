import Sylar.BytearrayProofs
import Sylar.SegmentsProofs

/-! # Streams over a socket (`stream.cc`, `socket_stream.cc`)

`SocketStream` hands single `recv`/`send` calls to the kernel, on a raw
buffer or on the pieces of a byte array; `Stream::readFixSize` and
`writeFixSize` repeat them until the asked number of bytes has been moved.

The kernel's side is a `Transport`: the segments a receiver will meet, in
order, and the answers a sender will get.  Every division of a byte stream
into reads, and every sequence of short writes, is one such transport.

The results used further up: a fixed-size read takes exactly the next bytes
of the stream however they are cut, and a fixed-size write puts exactly the
bytes of the buffer on the wire. -/

namespace SylarStream

open ListWindow Segments SylarBytearray List

/-! ## The kernel -/

/-- What a receive call meets: bytes, or the end of the stream (`0`) or an
error (`-err`). -/
inductive Arrival where
  | bytes (seg : List UInt8)
  | fails (err : Nat)
  deriving DecidableEq, Repr

/-- A socket: what is still to be received, the answers to the next sends (without one a send takes
everything), and the bytes sent so far. -/
structure Transport where
  connected : Bool
  incoming : List Arrival
  grants : List Int
  sent : List UInt8
  deriving DecidableEq, Repr

/-- A byte array fault, a call on memory outside the caller's buffer, or a loop that still runs when
the kernel has nothing more to say. -/
inductive StreamFault where
  | array (e : Fault)
  | outside
  | stuck
  deriving DecidableEq, Repr

abbrev StreamM := EStateM StreamFault Transport

namespace Transport

/-- `recv` of up to `n` bytes: its result and the bytes it stored. -/
def recv (n : Nat) (t : Transport) : Int × List UInt8 × Transport :=
  match t.incoming with
  | [] => (0, [], t)
  | .fails err :: rest => (-(err : Int), [], { t with incoming := rest })
  | .bytes seg :: rest =>
    if seg.length ≤ n then (seg.length, seg, { t with incoming := rest })
    else
      (n, seg.take n, { t with incoming := .bytes (seg.drop n) :: rest })

/-- `send` of `data`: its result. -/
def send (data : List UInt8) (t : Transport) : Int × Transport :=
  match t.grants with
  | [] => (data.length, { t with sent := t.sent ++ data })
  | g :: gs =>
    if g ≤ 0 then (g, { t with grants := gs })
    else
      (min g data.length,
        { t with grants := gs, sent := t.sent ++ data.take g.toNat })

/-- The number of receive calls the incoming side can still answer. -/
def work (t : Transport) : Nat :=
  (t.incoming.map fun
    | .bytes seg => seg.length + 1
    | .fails _ => 1).sum

end Transport

/-! ## `SocketStream` -/

/-- `SocketStream::read(buffer, length)` on `buffer[offset..offset + length)`. -/
def readRaw (buffer : List UInt8) (offset length : Nat) :
    StreamM (Int × List UInt8) := fun t =>
  if buffer.length < offset + length then .error .outside t
  else if t.connected = false then .ok (-1, buffer) t
  else
    let (rt, data, t) := t.recv length
    .ok (rt, overwrite buffer offset data) t

/-- `SocketStream::write(buffer, length)` on `buffer[offset..offset + length)`. -/
def writeRaw (buffer : List UInt8) (offset length : Nat) : StreamM Int := fun t =>
  if buffer.length < offset + length then .error .outside t
  else if t.connected = false then .ok (-1) t
  else
    let (rt, t) := t.send (window buffer offset length)
    .ok rt t

/-- The kernel stores `data` into the pieces of the array. -/
def fill (s : Bytearray) (iovs : List Iovec) (data : List UInt8) : Bytearray :=
  let chain := scatter s.m_root iovs data
  { s with
    passed := chain.take s.passed.length
    m_cur := chain.drop s.passed.length }

/-- A byte array call inside a stream call. -/
def onArray {α : Type} (x : BA α) (ba : Bytearray) : StreamM (α × Bytearray) :=
  fun t =>
    match x ba with
    | .ok a ba => .ok (a, ba) t
    | .error e _ => .error (.array e) t

/-- `if(rt > 0) ba->setPosition(ba->getPosition() + rt);` -/
def advance (rt : Int) (ba : Bytearray) : StreamM Bytearray :=
  if 0 < rt then do
    let (_, ba) ← onArray (setPosition (ba.m_position + rt.toNat)) ba
    pure ba
  else pure ba

/-- `SocketStream::read(ba, length)`. -/
def readArray (ba : Bytearray) (length : Nat) : StreamM (Int × Bytearray) := do
  let t ← get
  if t.connected = false then pure (-1, ba)
  else
    let (iovs, ba) ← onArray (getWriteBuffers length) ba
    let (rt, data, t) := t.recv (iovs.map Iovec.len).sum
    set t
    let ba ← advance rt (fill ba iovs data)
    pure (rt, ba)

/-- `SocketStream::write(ba, length)`. -/
def writeArray (ba : Bytearray) (length : Nat) : StreamM (Int × Bytearray) := do
  let t ← get
  if t.connected = false then pure (-1, ba)
  else
    let (iovs, ba) ← onArray (getReadBuffers length) ba
    let (rt, t) := t.send (gather ba.m_root iovs)
    set t
    let ba ← advance rt ba
    pure (rt, ba)

/-! ## The fixed-size loops

The loops keep `len`, `offset` and `left` in a `size_t`, also when the call
returned a negative `int`. -/

/-- The conversion of an `int` to `size_t`. -/
def sizeT (rt : Int) : Nat := (rt % 2 ^ 64).toNat

/-- The conversion of a `size_t` to `int`. -/
def intOf (n : Nat) : Int := (Int32.ofNat n).toInt

def addSizeT (a b : Nat) : Nat := (a + b) % 2 ^ 64
def subSizeT (a b : Nat) : Nat := (a + 2 ^ 64 - b) % 2 ^ 64

/-- The loop of `Stream::readFixSize(buffer, length)`. -/
def readFixLoop (length : Nat) :
    Nat → List UInt8 → Nat → Nat → StreamM (Int × List UInt8)
  | 0, _, _, _ => throw .stuck
  | fuel + 1, buffer, offset, left =>
    if left = 0 then pure (intOf length, buffer)
    else do
      let (rt, buffer) ← readRaw buffer offset left
      let len := sizeT rt
      if len ≤ 0 then pure (0, buffer)
      else
        readFixLoop length fuel buffer (addSizeT offset len) (subSizeT left len)

/-- `Stream::readFixSize(buffer, length)` on a buffer of that length. -/
def readFixSize (buffer : List UInt8) : StreamM (Int × List UInt8) := do
  let t ← get
  readFixLoop buffer.length (t.work + buffer.length + 2) buffer 0 buffer.length

/-- The loop of `Stream::readFixSize(ba, length)`. -/
def readFixArrayLoop (length : Nat) :
    Nat → Bytearray → Nat → StreamM (Int × Bytearray)
  | 0, _, _ => throw .stuck
  | fuel + 1, ba, left =>
    if left = 0 then pure (intOf length, ba)
    else do
      let (rt, ba) ← readArray ba left
      let len := sizeT rt
      if len ≤ 0 then pure (0, ba)
      else readFixArrayLoop length fuel ba (subSizeT left len)

/-- `Stream::readFixSize(ba, length)`. -/
def readFixSizeArray (ba : Bytearray) (length : Nat) :
    StreamM (Int × Bytearray) := do
  let t ← get
  readFixArrayLoop length (t.work + 1) ba length

/-- The loop of `Stream::writeFixSize(buffer, length)`. -/
def writeFixLoop (buffer : List UInt8) : Nat → Nat → Nat → StreamM Int
  | 0, _, _ => throw .stuck
  | fuel + 1, offset, left =>
    if left = 0 then pure (intOf buffer.length)
    else do
      let rt ← writeRaw buffer offset left
      let len := sizeT rt
      if len ≤ 0 then pure 0
      else writeFixLoop buffer fuel (addSizeT offset len) (subSizeT left len)

/-- `Stream::writeFixSize(buffer, length)` on a buffer of that length. -/
def writeFixSize (buffer : List UInt8) : StreamM Int := do
  let t ← get
  writeFixLoop buffer (t.grants.length + buffer.length + 2) 0 buffer.length

/-- The loop of `Stream::writeFixSize(ba, length)`. -/
def writeFixArrayLoop (length : Nat) :
    Nat → Bytearray → Nat → StreamM (Int × Bytearray)
  | 0, _, _ => throw .stuck
  | fuel + 1, ba, left =>
    if left = 0 then pure (intOf length, ba)
    else do
      let (rt, ba) ← writeArray ba left
      let len := sizeT rt
      if len ≤ 0 then pure (0, ba)
      else writeFixArrayLoop length fuel ba (subSizeT left len)

/-- `Stream::writeFixSize(ba, length)`. -/
def writeFixSizeArray (ba : Bytearray) (length : Nat) :
    StreamM (Int × Bytearray) := do
  let t ← get
  writeFixArrayLoop length (t.grants.length + 2) ba length

/-! ## A transport that delivers -/

/-- The receiver will meet exactly the bytes `bs`, cut into non-empty
segments. -/
structure Delivers (t : Transport) (bs : List UInt8) : Prop where
  connected : t.connected = true
  segments : ∃ segs : List (List UInt8), t.incoming = segs.map .bytes
    ∧ (∀ seg ∈ segs, seg ≠ []) ∧ segs.flatten = bs

variable {t : Transport} {segs : List (List UInt8)} {n : Nat} {later want data left : List UInt8}
  {s : Bytearray}

variable {bs : List UInt8} {a b length : Nat} {ba ba' : Bytearray}

/-- The bytes that will be met are those of the segments. -/
theorem Delivers.bytes_eq (h : Delivers t bs) (hin : t.incoming = segs.map .bytes) :
    segs.flatten = bs := by
  obtain ⟨-, segs', hin', -, rfl⟩ := h
  have hmap : segs.map Arrival.bytes = segs'.map .bytes := hin.symm.trans hin'
  rw [map_injective_iff.mpr (fun a b hab => Arrival.bytes.inj hab) hmap]

/-- A receive that meets a whole piece. -/
theorem recv_piece {piece : List UInt8} {rest : List Arrival}
    (hin : t.incoming = .bytes piece :: rest) (hfit : piece.length ≤ n) :
    t.recv n = ((piece.length : Int), piece, { t with incoming := rest }) := by
  simp only [Transport.recv, hin, if_pos hfit]

/-- A receive brings nothing, or some bytes that fit. -/
theorem recv_cases (t : Transport) (n : Nat) : (∃ rt data t', t.recv n = (rt, data, t') ∧ rt ≤ 0)
      ∨ ∃ data t', data ≠ [] ∧ data.length ≤ n ∧ t.recv n = ((data.length : Int), data, t') := by
  rw [Transport.recv]
  split
  · exact Or.inl ⟨_, _, _, rfl, Int.le_refl _⟩
  · exact Or.inl ⟨_, _, _, rfl, by omega⟩
  · next seg rest _ =>
    by_cases hfit : seg.length ≤ n
    · rw [if_pos hfit]
      by_cases hseg : seg = []
      · subst hseg
        exact Or.inl ⟨_, _, _, rfl, Int.le_refl _⟩
      · exact Or.inr ⟨seg, _, hseg, hfit, rfl⟩
    · have hlen : (seg.take n).length = n := by
        rw [length_take]
        omega
      rw [if_neg hfit]
      by_cases hn : n = 0
      · exact Or.inl ⟨_, _, _, rfl, by omega⟩
      · exact Or.inr ⟨seg.take n, _, ne_nil_of_length_pos (by omega), by omega, by rw [hlen]⟩

/-- One receive takes cells off the front segment, at most what was asked
for. -/
theorem recv_skip {later : List Arrival} (hin : t.incoming = segs.map .bytes ++ later)
    (hsolid : Solid segs) (hsegs : segs ≠ []) (hn : 0 < n) :
    ∃ k, 0 < k ∧ k ≤ n ∧ k ≤ segs.flatten.length ∧ t.recv n = ((k : Int), segs.flatten.take k,
        { t with incoming := (skip k segs).map .bytes ++ later })
      ∧ ({ t with incoming := (skip k segs).map .bytes ++ later } : Transport).work < t.work := by
  cases segs with
  | nil => exact absurd rfl hsegs
  | cons seg rest =>
    obtain ⟨hseg, hrest⟩ := solid_cons.mp hsolid
    have hpos := length_pos_iff.mpr hseg
    rw [map_cons, cons_append] at hin
    by_cases hfit : seg.length ≤ n
    · refine ⟨seg.length, hpos, hfit, ?_, ?_, ?_⟩
      · rw [flatten_cons, length_append]
        omega
      · rw [skip_length hrest, flatten_cons, take_left]
        simp only [Transport.recv, hin, if_pos hfit]
      · rw [skip_length hrest]
        simp only [Transport.work, hin, map_cons, sum_cons]
        omega
    · refine ⟨n, hn, Nat.le_refl _, ?_, ?_, ?_⟩
      · rw [flatten_cons, length_append]
        omega
      · rw [skip, if_neg hfit, flatten_cons, take_append_of_le_length (by omega)]
        simp only [Transport.recv, hin, if_neg hfit, map_cons, cons_append]
      · rw [skip, if_neg hfit]
        simp only [Transport.work, hin, map_cons, cons_append, sum_cons, length_drop]
        omega

/-- One receive takes a non-empty part of what is left, at most what was
asked for. -/
theorem recv_delivers (h : Delivers t bs) (hbs : bs ≠ []) (hn : 0 < n) :
    ∃ a b t', bs = a ++ b ∧ a ≠ [] ∧ a.length ≤ n
      ∧ t.recv n = ((a.length : Int), a, t') ∧ Delivers t' b
      ∧ t'.work < t.work ∧ t'.grants = t.grants ∧ t'.sent = t.sent := by
  obtain ⟨hconn, segs, hin, hsolid, rfl⟩ := h
  have hsegs : segs ≠ [] := by
    rintro rfl
    exact hbs rfl
  have hnil : t.incoming = segs.map .bytes ++ [] := by rw [hin, append_nil]
  obtain ⟨k, hpos, hle, hall, hrecv, hwork⟩ := recv_skip hnil hsolid hsegs hn
  rw [append_nil] at hrecv hwork
  have hlen : (segs.flatten.take k).length = k := by
    rw [length_take]
    omega
  refine ⟨segs.flatten.take k, segs.flatten.drop k, { t with incoming := (skip k segs).map .bytes },
    (take_append_drop ..).symm, ne_nil_of_length_pos (by omega), by omega,
    ?_, ⟨hconn, skip k segs, rfl, Solid.skip hsolid k, flatten_skip segs k⟩, hwork,
    rfl, rfl⟩
  rw [hrecv, hlen]

theorem sizeT_natCast (h : n < 2 ^ 64) : sizeT (n : Int) = n := by
  rw [sizeT]
  omega

theorem intOf_of_lt (h : n < 2 ^ 31) : intOf n = n := Int32.toInt_ofNat_of_lt h

theorem subSizeT_of_le (hb : b ≤ a) (ha : a < 2 ^ 64) : subSizeT a b = a - b := by
  rw [subSizeT]
  omega

theorem addSizeT_of_lt (h : a + b < 2 ^ 64) : addSizeT a b = a + b := Nat.mod_eq_of_lt h

/-- A receive that asks for what is wanted gets a front part of it. -/
theorem recv_wanted (h : Delivers t (want ++ later)) (hw : want ≠ []) :
    ∃ a want' t', want = a ++ want' ∧ 0 < a.length ∧ t.recv want.length = ((a.length : Int), a, t')
      ∧ Delivers t' (want' ++ later)
      ∧ t'.work < t.work ∧ t'.grants = t.grants ∧ t'.sent = t.sent := by
  obtain ⟨a, b, t', hab, ha, hle, hrecv, hrest⟩ :=
    recv_delivers h (append_ne_nil_of_left_ne_nil hw later) (length_pos_iff.mpr hw)
  rcases append_eq_append_iff.mp hab with ⟨c, hc, hlater⟩ | ⟨c, hc, hb⟩
  · -- it got no more than it wanted, so it got all of it
    have hlen := congrArg length hc
    rw [length_append] at hlen
    obtain rfl : c = [] := length_eq_zero_iff.mp (by omega)
    rw [append_nil] at hc
    rw [nil_append] at hlater
    subst hc hlater
    exact ⟨a, [], t', (append_nil a).symm, length_pos_iff.mpr ha, hrecv, hrest⟩
  · subst hc hb
    exact ⟨a, c, t', rfl, length_pos_iff.mpr ha, hrecv, hrest⟩

variable {buffer : List UInt8}

/-- The raw loop, started in the middle: the buffer begins with `got`, and `want` is still
to come. -/
theorem readFixLoop_skip (length : Nat) (later : List Arrival) (fuel : Nat) (got : List UInt8)
    (hconn : t.connected = true) (hin : t.incoming = segs.map .bytes ++ later) (hsolid : Solid segs)
    (hwant : want <+: segs.flatten) (hwork : t.work < fuel)
    (hsum : got.length + want.length = buffer.length) (hsize : buffer.length < 2 ^ 64)
    (hgot : buffer.take got.length = got) :
    readFixLoop length fuel buffer got.length want.length t = .ok (intOf length, got ++ want)
        { t with incoming := (skip want.length segs).map .bytes ++ later } := by
  induction fuel generalizing got t buffer want segs with
  | zero =>
    exact absurd hwork (Nat.not_lt_zero _)
  | succ fuel ih =>
    rw [readFixLoop]
    by_cases hdone : want = []
    · subst hdone
      have hall : buffer = got := by
        rw [length_nil] at hsum
        rw [← hgot, take_of_length_le (by omega)]
      rw [if_pos length_nil, hall, append_nil, length_nil, skip_zero hsolid, ← hin]
      rfl
    · have hpos := length_pos_iff.mpr hdone
      have hsegs : segs ≠ [] := by
        rintro rfl
        exact hdone (prefix_nil.mp hwant)
      -- one `recv` returns `k` bytes, and the rest is the induction hypothesis
      obtain ⟨k, hk, hle, hall, hrecv, hless⟩ := recv_skip hin hsolid hsegs hpos
      obtain ⟨behind, hbehind⟩ := hwant
      have htake : segs.flatten.take k = want.take k := by
        rw [← hbehind, take_append_of_le_length hle]
      rw [htake] at hrecv
      have hdrop : want.drop k <+: (skip k segs).flatten := by
        refine ⟨behind, ?_⟩
        rw [flatten_skip, ← hbehind, drop_append_of_le_length hle]
      have htlen : (want.take k).length = k := by
        rw [length_take]
        omega
      have hread : readRaw buffer got.length want.length t
          = .ok ((k : Int), overwrite buffer got.length (want.take k))
            { t with incoming := (skip k segs).map .bytes ++ later } := by
        rw [readRaw, if_neg (by omega), if_neg (by rw [hconn]; decide), hrecv]
      rw [if_neg (by omega), bind_ok hread]
      have hmoved : (got ++ want.take k).length = got.length + k := by
        rw [length_append, htlen]
      have hkeep : (overwrite buffer got.length (want.take k)).length = buffer.length :=
        length_overwrite (by omega)
      have hgot' : (overwrite buffer got.length (want.take k)).take
          (got ++ want.take k).length = got ++ want.take k := by
        rw [length_append, take_add_overwrite _ (by omega), hgot]
      have hloop := ih (got ++ want.take k)
        (t := { t with incoming := (skip k segs).map .bytes ++ later }) hconn rfl
        (hsolid.skip k) hdrop (by omega)
        (by rw [hmoved, length_drop, hkeep]; omega) (by rw [hkeep]; exact hsize) hgot'
      simp only [sizeT_natCast (show k < 2 ^ 64 by omega)]
      rw [if_neg (by omega), addSizeT_of_lt (by omega),
        subSizeT_of_le (by omega) (by omega), ← hmoved, ← length_drop, hloop,
        skip_skip, length_drop, append_assoc, take_append_drop,
        Nat.add_sub_cancel' hle]

/-- `readFixSize` on a raw buffer takes exactly the next bytes and leaves the segments behind
them, and what comes later. -/
theorem readFixSize_before (buffer : List UInt8) {later : List Arrival} (hconn : t.connected = true)
    (hin : t.incoming = segs.map .bytes ++ later) (hsolid : Solid segs)
    (hwant : want <+: segs.flatten) (hlen : buffer.length = want.length)
    (hsize : want.length < 2 ^ 64) :
    readFixSize buffer t = .ok (intOf want.length, want)
      { t with incoming := (skip want.length segs).map .bytes ++ later } := by
  have hloop := readFixLoop_skip want.length later (t.work + buffer.length + 2) [] hconn
    hin hsolid hwant (by omega) ((Nat.zero_add _).trans hlen.symm) (by omega)
    (show buffer.take 0 = [] from rfl)
  show readFixLoop buffer.length (t.work + buffer.length + 2) buffer 0 buffer.length t = _
  rw [hlen] at hloop ⊢
  exact hloop

/-- The same, when nothing but segments comes. -/
theorem readFixSize_skip (buffer : List UInt8) (hconn : t.connected = true)
    (hin : t.incoming = segs.map .bytes) (hsolid : Solid segs) (hwant : want <+: segs.flatten)
    (hlen : buffer.length = want.length) (hsize : want.length < 2 ^ 64) :
    readFixSize buffer t = .ok (intOf want.length, want)
      { t with incoming := (skip want.length segs).map .bytes } := by
  have hnil : t.incoming = segs.map .bytes ++ [] := by rw [hin, append_nil]
  rw [readFixSize_before buffer hconn hnil hsolid hwant hlen hsize, append_nil]

/-- `readFixSize` on a raw buffer takes exactly the next bytes of the
stream, however they are cut. -/
theorem readFixSize_spec (buffer : List UInt8) (h : Delivers t (want ++ later))
    (hlen : buffer.length = want.length) (hsize : want.length < 2 ^ 64) :
    ∃ t', readFixSize buffer t = .ok (intOf want.length, want) t'
      ∧ Delivers t' later ∧ t'.grants = t.grants ∧ t'.sent = t.sent := by
  obtain ⟨hconn, segs, hin, hsolid, hflat⟩ := h
  refine ⟨_, readFixSize_skip buffer hconn hin hsolid ⟨later, hflat.symm⟩ hlen hsize,
    ⟨hconn, _, rfl, Solid.skip hsolid _, ?_⟩, rfl, rfl⟩
  rw [flatten_skip, hflat, drop_left]

/-! ## Receiving into a byte array -/

theorem onArray_ok {α : Type} {x : BA α} {a : α} (h : x ba = .ok a ba') (t : Transport) :
    onArray x ba t = .ok (a, ba') t := by
  rw [onArray, h]

theorem advance_ok (hn : 0 < n) (h : setPosition (ba.m_position + n) ba = .ok () ba')
    (t : Transport) : advance (n : Int) ba t = .ok ba' t := by
  have hpos : (0 : Int) < n := by omega
  rw [advance, if_pos hpos, Int.toNat_natCast, bind_ok (onArray_ok h t)]
  rfl

/-- Storing into the pieces of `getWriteBuffers(n)` and moving the position, on the grown array. -/
theorem fill_overwrites (hs : WellFormed s) (hd : 0 < data.length) (hle : data.length ≤ n) :
    ∃ iovs s', getWriteBuffers n s = .ok iovs (s.addCapacity n) ∧ (iovs.map Iovec.len).sum = n
      ∧ setPosition (s.m_position + data.length) (fill (s.addCapacity n) iovs data) = .ok () s'
      ∧ (fill (s.addCapacity n) iovs data).m_position = s.m_position
      ∧ Overwrote (s.addCapacity n) data s' := by
  obtain ⟨iovs, hget, htotal, hfill⟩ := getWriteBuffers_spec hs (by omega : 0 < n)
  obtain ⟨cur, hscatter, huni, hnum, hflat⟩ := hfill data hle
  have hg := addCapacity_spec hs n
  generalize s.addCapacity n = s₁ at *
  have hs₁ := hg.inv
  have hfilled : fill s₁ iovs data = { s₁ with m_cur := cur } := by
    simp only [fill, hscatter, take_left, drop_left]
  have hcount : (s₁.passed ++ cur).length = s₁.m_root.length := by
    rw [length_append, hnum, ← length_append]
    rfl
  -- the store changes bytes only: the invariant needs the block sizes
  have hs₂ : WellFormed { s₁ with m_cur := cur } :=
    { base_pos := hs₁.base_pos
      root_ne := by
        rw [← length_pos_iff]
        show 0 < (s₁.passed ++ cur).length
        rw [hcount]
        exact length_pos_iff.mpr hs₁.root_ne
      uniform := uniform_append.mpr ⟨hs₁.uniform_passed, huni⟩
      capacity_eq := by
        show s₁.m_capacity = (s₁.passed ++ cur).length * s₁.m_baseSize
        rw [hcount]
        exact hs₁.capacity_eq
      position_le := hs₁.position_le
      size_le := hs₁.size_le
      cur_number := hs₁.cur_number }
  have hroom : s.m_position + data.length ≤ s₁.m_capacity := by
    have := hg.room
    omega
  obtain ⟨s', hset, hm⟩ := setPosition_spec (v := s.m_position + data.length) hs₂ hroom
  refine ⟨iovs, s', hget, htotal, ?_, ?_, ?_⟩
  · rw [hfilled]
    exact hset
  · rw [hfilled]
    exact hg.position
  · exact
      { inv := hm.inv
        base := hm.base
        endian := hm.endian
        position := by rw [hm.position, hg.position]
        data := by rw [hm.data, hg.position]
        flat := by
          rw [hm.flat, hg.position]
          exact hflat
        capacity := hm.capacity }

/-- Storing into the pieces of `getWriteBuffers(n)` and moving the position is
a store of the data. -/
theorem fill_spec (hs : WellFormed s) (hd : 0 < data.length) (hle : data.length ≤ n) :
    ∃ iovs s', getWriteBuffers n s = .ok iovs (s.addCapacity n) ∧ (iovs.map Iovec.len).sum = n
      ∧ setPosition (s.m_position + data.length) (fill (s.addCapacity n) iovs data) = .ok () s'
      ∧ (fill (s.addCapacity n) iovs data).m_position = s.m_position
      ∧ Stored s n data s' := by
  obtain ⟨iovs, s', hget, htotal, hset, hpos, ho⟩ := fill_overwrites hs hd hle
  exact ⟨iovs, s', hget, htotal, hset, hpos, (addCapacity_spec hs n).stored ho hle⟩

/-- One receive into a byte array. -/
theorem readArray_spec (hs : WellFormed s) (h : Delivers t (want ++ later)) (hw : want ≠ []) :
    ∃ a want' t' s', want = a ++ want' ∧ 0 < a.length
      ∧ readArray s want.length t = .ok ((a.length : Int), s') t'
      ∧ Stored s want.length a s' ∧ Delivers t' (want' ++ later)
      ∧ t'.work < t.work ∧ t'.grants = t.grants ∧ t'.sent = t.sent := by
  obtain ⟨a, want', t', hsplit, ha, hrecv, hrest⟩ := recv_wanted h hw
  have hle : a.length ≤ want.length := by
    rw [hsplit, length_append]
    omega
  obtain ⟨iovs, s', hget, htotal, hset, hpos, hstored⟩ := fill_spec hs ha hle
  refine ⟨a, want', t', s', hsplit, ha, ?_, hstored, hrest⟩
  have hget₀ : (get : StreamM Transport) t = .ok t t := rfl
  rw [← hpos] at hset
  rw [readArray, bind_ok hget₀, h.connected, if_neg (by decide), bind_ok (onArray_ok hget t)]
  simp only [htotal, hrecv]
  rw [bind_ok (show (set t' : StreamM PUnit) t = .ok ⟨⟩ t' from rfl),
    bind_ok (advance_ok ha hset t')]
  rfl

/-- The loop over a byte array, with `want` still to come. -/
theorem readFixArrayLoop_spec (fuel : Nat) {later : List UInt8} (hs : WellFormed s)
    (hdel : Delivers t (want ++ later)) (hwork : t.work < fuel) (hlt : want.length < 2 ^ 64) :
    ∃ t' s', readFixArrayLoop length fuel s want.length t = .ok (intOf length, s') t'
      ∧ Wrote s want s' ∧ Delivers t' later
      ∧ t'.grants = t.grants ∧ t'.sent = t.sent := by
  induction fuel generalizing t s want later with
  | zero => exact absurd hwork (Nat.not_lt_zero _)
  | succ fuel ih =>
    rw [readFixArrayLoop]
    by_cases hdone : want = []
    · subst hdone
      rw [if_pos length_nil]
      exact ⟨t, s, rfl, wrote_nil hs, hdel, rfl, rfl⟩
    · have hwant := length_pos_iff.mpr hdone
      obtain ⟨a, want', t₁, s₁, rfl, ha, hread, hst, hdel₁, hwork₁, hg₁, hs₁⟩ :=
        readArray_spec hs hdel hdone
      have hlen : (a ++ want').length = a.length + want'.length := length_append
      obtain ⟨t', s', hloop, hwrote, hdel', hg', hs'⟩ := ih hst.inv hdel₁ (by omega) (by omega)
      refine ⟨t', s', ?_, ?_, hdel', hg'.trans hg₁, hs'.trans hs₁⟩
      · rw [if_neg (by omega), bind_ok hread]
        simp only [sizeT_natCast (show a.length < 2 ^ 64 by omega)]
        rw [if_neg (by omega), subSizeT_of_le (by omega) hlt, hlen, Nat.add_sub_cancel_left]
        exact hloop
      · refine hst.trans (by omega) ?_
        rw [hlen, Nat.add_sub_cancel_left]
        exact hwrote

/-- `readFixSize` on a byte array stores exactly the next bytes of the
stream, however they are cut. -/
theorem readFixSizeArray_spec (hs : WellFormed s) (h : Delivers t (want ++ later))
    (hsize : want.length < 2 ^ 64) :
    ∃ t' s', readFixSizeArray s want.length t = .ok (intOf want.length, s') t'
      ∧ Wrote s want s' ∧ Delivers t' later
      ∧ t'.grants = t.grants ∧ t'.sent = t.sent :=
  readFixArrayLoop_spec (t.work + 1) hs h (Nat.lt_succ_self _) hsize

/-! ## A transport that accepts -/

/-- Every send is accepted in part or in full. -/
structure Accepts (t : Transport) : Prop where
  connected : t.connected = true
  positive : ∀ g ∈ t.grants, 0 < g

/-- One send takes a non-empty front part of the data. -/
theorem send_accepts (h : Accepts t) (hd : data ≠ []) : ∃ a b t', data = a ++ b ∧ 0 < a.length
      ∧ t.send data = ((a.length : Int), t') ∧ Accepts t'
      ∧ t'.sent = t.sent ++ a ∧ t'.incoming = t.incoming
      ∧ (b = [] ∨ t'.grants.length < t.grants.length)
      ∧ t'.grants.length ≤ t.grants.length := by
  obtain ⟨hconn, hpos⟩ := h
  cases hg : t.grants with
  | nil =>
    refine ⟨data, [], { t with sent := t.sent ++ data },
      (append_nil _).symm, length_pos_iff.mpr hd, ?_,
      ⟨hconn, hpos⟩, rfl, rfl, Or.inl rfl, ?_⟩
    · simp only [Transport.send, hg]
    · exact Nat.le_of_eq (congrArg length hg)
  | cons g gs =>
    have hgpos : 0 < g := hpos g (hg ▸ mem_cons_self ..)
    have hlen : (data.take g.toNat).length = min g.toNat data.length := length_take
    have hdpos := length_pos_iff.mpr hd
    refine ⟨data.take g.toNat, data.drop g.toNat,
      { t with grants := gs, sent := t.sent ++ data.take g.toNat },
      (take_append_drop ..).symm, by omega, ?_, ⟨hconn, ?_⟩, rfl, rfl,
      Or.inr (Nat.lt_succ_self _), Nat.le_succ _⟩
    · simp only [Transport.send, hg, if_neg (show ¬ g ≤ 0 by omega), hlen]
      congr 1
      omega
    · exact fun x hx => hpos x (hg ▸ mem_cons_of_mem _ hx)

/-- Enough iterations: each send uses up an answer or sends everything. -/
private def Enough (fuel : Nat) (t : Transport) (left : List UInt8) : Prop :=
  (left = [] ∧ 0 < fuel) ∨ t.grants.length + 1 < fuel

theorem Enough.next {fuel : Nat} {t' : Transport} {b : List UInt8}
    (h : Enough (fuel + 1) t left) (hleft : left ≠ [])
    (hb : b = [] ∨ t'.grants.length < t.grants.length) : Enough fuel t' b := by
  have hfuel : t.grants.length + 1 < fuel + 1 := h.resolve_left fun hnil => hleft hnil.1
  rcases hb with rfl | hlt
  · exact Or.inl ⟨rfl, by omega⟩
  · exact Or.inr (by omega)

/-- The raw write loop, started in the middle: `left` is still to be sent. -/
theorem writeFixLoop_spec : ∀ (fuel : Nat) (gone left : List UInt8) {t : Transport}, Accepts t →
      Enough fuel t left → (gone ++ left).length < 2 ^ 64 →
      ∃ t', writeFixLoop (gone ++ left) fuel gone.length left.length t
          = .ok (intOf (gone ++ left).length) t'
        ∧ t'.sent = t.sent ++ left ∧ Accepts t' ∧ t'.incoming = t.incoming := by
  intro fuel
  induction fuel with
  | zero =>
    rintro gone left t _ (⟨-, h⟩ | h)
    · exact absurd h (Nat.not_lt_zero _)
    · exact absurd h (Nat.not_lt_zero _)
  | succ fuel ih =>
    intro gone left t hacc hfuel hlt
    rw [writeFixLoop]
    by_cases hdone : left = []
    · subst hdone
      rw [if_pos length_nil, append_nil]
      exact ⟨t, rfl, (append_nil _).symm, hacc, rfl⟩
    · have hpos := length_pos_iff.mpr hdone
      obtain ⟨a, b, t₁, rfl, ha, hsend, hacc₁, hsent₁, hin₁, hfew, -⟩ := send_accepts hacc hdone
      have hlen : (gone ++ (a ++ b)).length = gone.length + (a.length + b.length) := by
        rw [length_append, length_append]
      have hab : (a ++ b).length = a.length + b.length := length_append
      have hwin : window (gone ++ (a ++ b)) gone.length (a ++ b).length = a ++ b := by
        have hmove := window_append_right gone (a ++ b) 0 (a ++ b).length
        rw [Nat.add_zero] at hmove
        rw [hmove, window, drop_zero, take_length]
      have hwrite : writeRaw (gone ++ (a ++ b)) gone.length (a ++ b).length t
          = .ok (a.length : Int) t₁ := by
        rw [writeRaw, if_neg (by omega), hacc.connected, if_neg (by decide), hwin, hsend]
      obtain ⟨t', hloop, hsent', hacc', hin'⟩ := ih (gone ++ a) b hacc₁
        (hfuel.next hdone hfew) (by rw [append_assoc]; exact hlt)
      refine ⟨t', ?_, ?_, hacc', hin'.trans hin₁⟩
      · rw [if_neg (by omega), bind_ok hwrite]
        simp only [sizeT_natCast (show a.length < 2 ^ 64 by omega)]
        rw [if_neg (by omega), addSizeT_of_lt (by omega),
          subSizeT_of_le (by omega) (by omega), hab, Nat.add_sub_cancel_left,
          ← length_append]
        rw [append_assoc] at hloop
        exact hloop
      · rw [hsent', hsent₁, append_assoc]

/-- `writeFixSize` on a raw buffer puts exactly its bytes on the wire. -/
theorem writeFixSize_spec (h : Accepts t) (hsize : buffer.length < 2 ^ 64) :
    ∃ t', writeFixSize buffer t = .ok (intOf buffer.length) t'
      ∧ t'.sent = t.sent ++ buffer ∧ Accepts t' ∧ t'.incoming = t.incoming :=
  writeFixLoop_spec (t.grants.length + buffer.length + 2) [] buffer h (Or.inr (by omega)) hsize

/-- One send from a byte array that holds `left` ahead. -/
theorem writeArray_spec (h : Accepts t) (hs : WellFormed s) (hl : left ≠ []) (hh : Holds s left) :
    ∃ a b t' s', left = a ++ b ∧ 0 < a.length
      ∧ writeArray s left.length t = .ok ((a.length : Int), s') t'
      ∧ Took s a.length s' ∧ Accepts t' ∧ t'.sent = t.sent ++ a
      ∧ t'.incoming = t.incoming
      ∧ (b = [] ∨ t'.grants.length < t.grants.length) := by
  obtain ⟨a, b, t', hsplit, ha, hsend, hacc, hsent, hin, hfew, -⟩ := send_accepts h hl
  obtain ⟨iovs, hget, hgather⟩ := getReadBuffers_spec hs left.length
  have hfits := hh.fits
  have hlen : left.length = a.length + b.length := by
    rw [hsplit, length_append]
  have hrs : s.getReadSize = s.m_size - s.m_position := rfl
  have hsize := hs.size_le
  rw [Nat.min_eq_left (by omega), hh.window_eq] at hgather
  obtain ⟨s', hset, hm⟩ := setPosition_spec (v := s.m_position + a.length) hs (by omega)
  refine ⟨a, b, t', s', hsplit, ha, ?_, ?_, hacc, hsent, hin, hfew⟩
  · rw [writeArray, bind_ok (show (get : StreamM Transport) t = .ok t t from rfl),
      h.connected, if_neg (by decide), bind_ok (onArray_ok hget t)]
    simp only [hgather, hsend]
    rw [bind_ok (show (set t' : StreamM PUnit) t = .ok ⟨⟩ t' from rfl),
      bind_ok (advance_ok ha hset t')]
    rfl
  · exact ⟨hm.inv, hm.base, hm.endian, hm.position,
      hm.data.trans (Nat.max_eq_left (by omega)), hm.flat, hm.capacity⟩

theorem writeFixArrayLoop_spec : ∀ (fuel : Nat) {t : Transport} {s : Bytearray} {left : List UInt8},
      Accepts t → WellFormed s → Holds s left → Enough fuel t left →
      left.length < 2 ^ 64 →
      ∃ t' s', writeFixArrayLoop length fuel s left.length t = .ok (intOf length, s') t'
        ∧ Took s left.length s' ∧ t'.sent = t.sent ++ left ∧ Accepts t'
        ∧ t'.incoming = t.incoming := by
  intro fuel
  induction fuel with
  | zero =>
    rintro t s left _ _ _ (⟨-, h⟩ | h)
    · exact absurd h (Nat.not_lt_zero _)
    · exact absurd h (Nat.not_lt_zero _)
  | succ fuel ih =>
    intro t s left hacc hs hh hfuel hlt
    rw [writeFixArrayLoop]
    by_cases hdone : left = []
    · subst hdone
      rw [if_pos length_nil]
      exact ⟨t, s, rfl, took_zero hs, (append_nil _).symm, hacc, rfl⟩
    · have hpos := length_pos_iff.mpr hdone
      obtain ⟨a, b, t₁, s₁, rfl, ha, hwrite, htook, hacc₁, hsent₁, hin₁, hfew⟩ :=
        writeArray_spec hacc hs hdone hh
      have hab : (a ++ b).length = a.length + b.length := length_append
      obtain ⟨t', s', hloop, htook', hsent', hacc', hin'⟩ := ih hacc₁ htook.inv
        (hh.right htook) (hfuel.next hdone hfew) (by omega)
      refine ⟨t', s', ?_, ?_, ?_, hacc', hin'.trans hin₁⟩
      · rw [if_neg (by omega), bind_ok hwrite]
        simp only [sizeT_natCast (show a.length < 2 ^ 64 by omega)]
        rw [if_neg (by omega), subSizeT_of_le (by omega) hlt, hab, Nat.add_sub_cancel_left]
        exact hloop
      · rw [hab]
        exact htook.trans htook'
      · rw [hsent', hsent₁, append_assoc]

/-- `writeFixSize` on a byte array puts exactly the bytes ahead on the
wire. -/
theorem writeFixSizeArray_spec (h : Accepts t) (hs : WellFormed s) (hh : Holds s left)
    (hsize : left.length < 2 ^ 64) :
    ∃ t' s', writeFixSizeArray s left.length t = .ok (intOf left.length, s') t'
      ∧ Took s left.length s' ∧ t'.sent = t.sent ++ left ∧ Accepts t'
      ∧ t'.incoming = t.incoming :=
  writeFixArrayLoop_spec (t.grants.length + 2) h hs hh (Or.inr (by omega)) hsize

end SylarStream
