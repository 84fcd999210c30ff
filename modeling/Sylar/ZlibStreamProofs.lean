import Sylar.BytearrayRefinementProofs
import Sylar.TransducerProofs

/-! # The compression stream (`zlib_stream.cc`)

`ZlibStream` collects what `deflate` or `inflate` emits in buffers of
`m_buffSize` bytes: a `do … while(avail_out == 0)` loop per iovec, which
continues in the last buffer while it has room and appends a new one when
it has not.

zlib itself is a pair of streaming machines, used only through their
calling convention (`Transducer.Interface`).  The results: the loops end,
what the buffers hold in the end is exactly what the machine emitted for
the pieces and the final call, and `getByteArray` is a fresh array with
these bytes, positioned at its start. -/

namespace SylarZlibStream

open ListWindow Transducer SylarBytearray SylarBytearrayRefinement List

def Z_OK : Int := 0
def Z_STREAM_ERROR : Int := -2

/-- The default `buff_size`, and the default `base_size` of a `ByteArray`. -/
def defaultSize : Nat := 4096

/-- The two directions of zlib. -/
structure Zlib (σ τ : Type) where
  deflate : Machine UInt8 σ
  inflate : Machine UInt8 τ

/-- A `ZlibStream`; `m_buffs` are the stored bytes.  Faults of `malloc`, `deflateInit2` and
`inflateInit2` are left out. -/
structure ZlibStream (σ : Type) where
  m_zstream : σ
  m_buffSize : Nat
  m_buffs : List (List UInt8)

section Encode

variable {σ : Type} (M : Machine UInt8 σ)

/-- `ZlibStream::Create`. -/
def create (buff_size : Nat) : ZlibStream σ where
  m_zstream := M.init
  m_buffSize := buff_size
  m_buffs := []

/-- The buffer the next call may fill, and those before it: the last one if
it has room, a new one otherwise. -/
def currentBuff (z : ZlibStream σ) : List (List UInt8) × List UInt8 :=
  match z.m_buffs.getLast? with
  | some back =>
    if back.length ≠ z.m_buffSize then (z.m_buffs.dropLast, back)
    else (z.m_buffs, [])
  | none => (z.m_buffs, [])

/-- The `do … while(avail_out == 0)` loop on one iovec; `none` if it runs longer than `fuel` calls.
-/
def drainLoop (flush : Bool) :
    Nat → List UInt8 → ZlibStream σ → Option (Int × ZlibStream σ)
  | 0, _, _ => none
  | fuel + 1, next_in, z =>
    let (before, ivc) := currentBuff z
    let avail_out := z.m_buffSize - ivc.length
    let a := M.call z.m_zstream next_in flush avail_out
    if a.ret = Z_STREAM_ERROR then
      some (a.ret, { z with m_zstream := a.state, m_buffs := before ++ [ivc] })
    else
      let z := { z with
        m_zstream := a.state
        m_buffs := before ++ [ivc ++ a.out] }
      if avail_out - a.out.length = 0 then
        drainLoop flush fuel (next_in.drop a.consumed) z
      else some (a.ret, z)

/-- The common body of `encode` and `decode`: iovec after iovec, the last one
with `Z_FINISH` if asked for. -/
def pump (fuel : Nat) (finish : Bool) :
    List (List UInt8) → ZlibStream σ → Option (Int × ZlibStream σ)
  | [], z => some (Z_OK, z)
  | v :: vs, z =>
    match drainLoop M (finish && vs.isEmpty) fuel v z with
    | none => none
    | some (ret, z) =>
        if ret = Z_STREAM_ERROR then some (ret, z)
        else pump fuel finish vs z

/-- `ZlibStream::flush`: one empty iovec with `Z_FINISH`. -/
def flush (fuel : Nat) (z : ZlibStream σ) : Option (Int × ZlibStream σ) :=
  pump M fuel true [[]] z

end Encode

/-- `ZlibStream::encode`. -/
def encode {σ τ : Type} (Z : Zlib σ τ) := pump Z.deflate

/-- `ZlibStream::decode`. -/
def decode {σ τ : Type} (Z : Zlib σ τ) := pump Z.inflate

/-- The memory an iovec list points to, piece by piece. -/
def pieces (chain : List Node) (iovs : List Iovec) : List (List UInt8) :=
  iovs.map fun v => window (chain.getD v.node []) v.off v.len

/-- `for(auto& i : m_buffs) ba->write(i.iov_base, i.iov_len);` -/
def writeBuffs : List (List UInt8) → BA Unit
  | [] => pure ()
  | b :: bs => do
    write b
    writeBuffs bs

/-- `ZlibStream::getByteArray`, on an array whose `m_endian` is whatever the
memory holds. -/
def getByteArray {σ : Type} (m_endian : Int8) (z : ZlibStream σ) :
    EStateM.Result Fault Bytearray Unit :=
  (do
    writeBuffs z.m_buffs
    setPosition 0 : BA Unit) (Bytearray.new defaultSize m_endian)

/-! ## The buffers -/

/-- No buffer is overfull, and all but the last are full. -/
structure Packed {σ : Type} (z : ZlibStream σ) : Prop where
  size_pos : 1 ≤ z.m_buffSize
  full : ∀ b ∈ z.m_buffs.dropLast, b.length = z.m_buffSize
  le : ∀ b ∈ z.m_buffs, b.length ≤ z.m_buffSize

/-- The buffer picked for the next call has room, and those before it are
full. -/
theorem currentBuff_spec {σ : Type} {z : ZlibStream σ} (h : Packed z) :
    (currentBuff z).2.length < z.m_buffSize ∧ (∀ b ∈ (currentBuff z).1, b.length = z.m_buffSize)
      ∧ (currentBuff z).1.flatten ++ (currentBuff z).2 = z.m_buffs.flatten := by
  have hpos := h.size_pos
  rw [currentBuff]
  cases hlast : z.m_buffs.getLast? with
  | none =>
    rw [getLast?_eq_none_iff] at hlast
    rw [hlast]
    exact ⟨hpos, fun b hb => (not_mem_nil hb).elim, rfl⟩
  | some back =>
    have hsplit := dropLast_append_getLast? back hlast
    by_cases hroom : back.length ≠ z.m_buffSize
    · simp only [if_pos hroom]
      have hle := h.le back (mem_of_getLast? hlast)
      refine ⟨by omega, h.full, ?_⟩
      conv_rhs => rw [← hsplit]
      rw [flatten_append, flatten_singleton]
    · simp only [if_neg hroom]
      refine ⟨hpos, ?_, append_nil _⟩
      intro b hb
      rw [← hsplit] at hb
      rcases mem_append.mp hb with hb | hb
      · exact h.full b hb
      · rw [mem_singleton.mp hb]
        exact not_not.mp hroom

/-- `avail_out` before the next call. -/
def ZlibStream.room {σ : Type} (z : ZlibStream σ) : Nat :=
  z.m_buffSize - (currentBuff z).2.length

/-- The stream after a call: its output stands behind what the buffer held. -/
def ZlibStream.store {σ : Type} (z : ZlibStream σ) (a : Answer UInt8 σ) :
    ZlibStream σ :=
  { z with
    m_zstream := a.state
    m_buffs := (currentBuff z).1 ++ [(currentBuff z).2 ++ a.out] }

/-- One round of the loop. -/
theorem drainLoop_succ {σ : Type} (M : Machine UInt8 σ) (flush : Bool)
    (fuel : Nat) (next_in : List UInt8) (z : ZlibStream σ) :
    drainLoop M flush (fuel + 1) next_in z = let a := M.call z.m_zstream next_in flush z.room
        if a.ret = Z_STREAM_ERROR then
          some (a.ret, { z with
            m_zstream := a.state
            m_buffs := (currentBuff z).1 ++ [(currentBuff z).2] })
        else if z.room - a.out.length = 0 then
          drainLoop M flush fuel (next_in.drop a.consumed) (z.store a)
        else some (a.ret, z.store a) := rfl

theorem Packed.create {σ : Type} {M : Machine UInt8 σ} {buff_size : Nat}
    (h : 1 ≤ buff_size) : Packed (create M buff_size) :=
  ⟨h, fun _ hb => (not_mem_nil hb).elim, fun _ hb => (not_mem_nil hb).elim⟩

theorem Packed.store {σ : Type} {z : ZlibStream σ} (h : Packed z)
    {a : Answer UInt8 σ} (ha : a.out.length ≤ z.room) : Packed (z.store a) := by
  obtain ⟨hroom, hbefore, -⟩ := currentBuff_spec h
  refine ⟨h.size_pos, fun b hb => ?_, fun b hb => ?_⟩
  · rw [ZlibStream.store, dropLast_concat] at hb
    exact hbefore b hb
  · rcases mem_append.mp hb with hb | hb
    · exact Nat.le_of_eq (hbefore b hb)
    · rw [mem_singleton.mp hb, length_append]
      rw [ZlibStream.room] at ha
      show _ ≤ z.m_buffSize
      omega

theorem Packed.flatten_store {σ : Type} {z : ZlibStream σ} (h : Packed z) (a : Answer UInt8 σ) :
    (z.store a).m_buffs.flatten = z.m_buffs.flatten ++ a.out := by
  obtain ⟨-, -, hflat⟩ := currentBuff_spec h
  rw [ZlibStream.store, flatten_append, flatten_singleton, ← append_assoc, hflat]

theorem Packed.room_pos {σ : Type} {z : ZlibStream σ} (h : Packed z) : 0 < z.room :=
  Nat.sub_pos_of_lt (currentBuff_spec h).1

/-- The space of the next call is what is left of the block that the bytes
emitted so far end in. -/
theorem Packed.offset_add_room {σ : Type} {z : ZlibStream σ} (h : Packed z) :
    z.m_buffs.flatten.length % z.m_buffSize + z.room = z.m_buffSize := by
  obtain ⟨hroom, hbefore, hflat⟩ := currentBuff_spec h
  have hlen : (currentBuff z).1.flatten.length
      = (currentBuff z).1.length * z.m_buffSize := Uniform.length_flatten hbefore
  rw [← hflat, length_append, hlen, Nat.mul_comm, Nat.mul_add_mod,
    Nat.mod_eq_of_lt hroom, ZlibStream.room]
  omega

section Spec

variable {σ : Type} {M : Machine UInt8 σ} (hM : Interface M Z_STREAM_ERROR)

include hM

variable {z : ZlibStream σ}

/-- One iovec: the loop ends, and the buffers have grown by what the
machine emitted for it. -/
theorem drainLoop_spec (flush : Bool) (n : Nat) (next_in : List UInt8) (hz : Packed z)
    (hlegal : hM.legal z.m_zstream flush) (howed : hM.owed z.m_zstream next_in flush < n) :
    ∃ out ret z', ret ≠ Z_STREAM_ERROR ∧ Drains M flush z.m_zstream next_in out z'.m_zstream
      ∧ z'.m_buffs.flatten = z.m_buffs.flatten ++ out ∧ Packed z'
      ∧ ∀ fuel, n ≤ fuel → drainLoop M flush fuel next_in z = some (ret, z') := by
  induction n generalizing next_in z with
  | zero => exact absurd howed (Nat.not_lt_zero _)
  | succ n ih =>
    have hpos := hz.room_pos
    obtain ⟨hret, hlegal'⟩ := hM.legal_call next_in z.room hlegal
    have hfits := hM.fits z.m_zstream next_in flush z.room
    have hpaid := hM.paid z.m_zstream next_in flush z.room
    generalize ha : M.call z.m_zstream next_in flush z.room = a at *
    by_cases hfull : z.room - a.out.length = 0
    · -- the space is used up: at least one byte was paid, and the loop goes on
      obtain ⟨out, ret, z', hret', hdrain, hflat', hz', hloop⟩ :=
        ih (next_in.drop a.consumed) (hz.store hfits) hlegal' (by
          show hM.owed a.state _ _ < n
          omega)
      refine ⟨a.out ++ out, ret, z', hret', ?_, ?_, hz', ?_⟩
      · exact Drains.of_full ha hpos (by omega) hdrain
      · rw [hflat', hz.flatten_store, append_assoc]
      · intro fuel hfuel
        obtain ⟨fuel, rfl⟩ := Nat.exists_eq_succ_of_ne_zero (by omega : fuel ≠ 0)
        rw [drainLoop_succ, ha]
        simp only [if_neg hret, if_pos hfull]
        exact hloop fuel (by omega)
    · refine ⟨a.out, a.ret, z.store a, hret, ?_, hz.flatten_store a, hz.store hfits, ?_⟩
      · exact Drains.of_room ha (by omega)
      · intro fuel hfuel
        obtain ⟨fuel, rfl⟩ := Nat.exists_eq_succ_of_ne_zero (by omega : fuel ≠ 0)
        rw [drainLoop_succ, ha]
        simp only [if_neg hret, if_neg hfull]

/-- Piece after piece. -/
theorem pump_spec (vs : List (List UInt8)) (hz : Packed z) (hlegal : hM.legal z.m_zstream false) :
    ∃ n out z', Feeds M z.m_zstream vs out z'.m_zstream
      ∧ z'.m_buffs.flatten = z.m_buffs.flatten ++ out ∧ Packed z'
      ∧ hM.legal z'.m_zstream false
      ∧ ∀ fuel, n ≤ fuel → pump M fuel false vs z = some (Z_OK, z') := by
  induction vs generalizing z with
  | nil =>
    exact ⟨0, [], z, Feeds.nil _, (append_nil _).symm, hz, hlegal, fun _ _ => rfl⟩
  | cons v vs ih =>
    obtain ⟨out, ret, z₁, hret, hdrain, hflat, hz₁, hloop⟩ :=
      drainLoop_spec hM false _ v hz hlegal (Nat.lt_succ_self _)
    obtain ⟨n, out', z', hfeeds, hflat', hz', hlegal', hpump⟩ := ih hz₁ (hdrain.legal hM hlegal)
    refine ⟨max (hM.owed z.m_zstream v false + 1) n, out ++ out', z',
      Feeds.cons hdrain hfeeds, ?_, hz', hlegal', ?_⟩
    · rw [hflat', hflat, append_assoc]
    · intro fuel hfuel
      simp only [pump, Bool.false_and, hloop fuel (by omega), if_neg hret]
      exact hpump fuel (by omega)

/-- The final call. -/
theorem flush_spec (hz : Packed z) (hlegal : hM.legal z.m_zstream false) :
    ∃ n out z', Drains M true z.m_zstream [] out z'.m_zstream
      ∧ z'.m_buffs.flatten = z.m_buffs.flatten ++ out ∧ Packed z'
      ∧ ∀ fuel, n ≤ fuel → flush M fuel z = some (Z_OK, z') := by
  obtain ⟨out, ret, z', hret, hdrain, hflat, hz', hloop⟩ :=
    drainLoop_spec hM true _ [] hz (hM.legal_finish hlegal) (Nat.lt_succ_self _)
  refine ⟨hM.owed z.m_zstream [] true + 1, out, z', hdrain, hflat, hz', fun fuel hfuel => ?_⟩
  simp only [flush, pump, isEmpty_nil, Bool.and_self, hloop fuel hfuel, if_neg hret]

/-- A whole stream: some pieces, then `flush`.  The buffers hold what the machine produces. -/
theorem stream_spec {buff_size : Nat} (hb : 1 ≤ buff_size) (vs : List (List UInt8)) :
    ∃ n out z₁ z₂, Produces M vs out ∧ z₂.m_buffs.flatten = out ∧ Packed z₂ ∧ ∀ fuel, n ≤ fuel →
          pump M fuel false vs (create M buff_size) = some (Z_OK, z₁)
          ∧ flush M fuel z₁ = some (Z_OK, z₂) := by
  have hz : Packed (create M buff_size) := Packed.create hb
  obtain ⟨n₁, out₁, z₁, hfeeds, hflat₁, hz₁, hlegal, hpump⟩ := pump_spec hM vs hz hM.legal_init
  obtain ⟨n₂, out₂, z₂, hdrain, hflat₂, hz₂, hflush⟩ := flush_spec hM hz₁ hlegal
  refine ⟨max n₁ n₂, out₁ ++ out₂, z₁, z₂,
    ⟨_, _, out₁, out₂, hfeeds, hdrain, rfl⟩, ?_, hz₂, fun fuel hfuel => ?_⟩
  · rw [hflat₂, hflat₁]
    rfl
  · exact ⟨hpump fuel (by omega), hflush fuel (by omega)⟩

end Spec

/-! ## More fuel changes nothing -/

section Fuel

variable {σ : Type} {M : Machine UInt8 σ} {r : Int × ZlibStream σ}

variable {fuel : Nat} {z : ZlibStream σ}

theorem drainLoop_more_fuel {flush : Bool} (k : Nat) {next_in : List UInt8}
    (h : drainLoop M flush fuel next_in z = some r) :
    drainLoop M flush (fuel + k) next_in z = some r := by
  induction fuel generalizing next_in z with
  | zero => exact nomatch h
  | succ fuel ih =>
    rw [Nat.succ_add, drainLoop_succ]
    rw [drainLoop_succ] at h
    dsimp only at h ⊢
    split at h
    · next herr => rw [if_pos herr]; exact h
    · next herr =>
        rw [if_neg herr]
        split at h
        · next hfull => rw [if_pos hfull]; exact ih h
        · next hfull => rw [if_neg hfull]; exact h

theorem pump_more_fuel {finish : Bool} (k : Nat) {vs : List (List UInt8)}
    (h : pump M fuel finish vs z = some r) :
    pump M (fuel + k) finish vs z = some r := by
  induction vs generalizing z with
  | nil => exact h
  | cons v vs ih =>
    rw [pump] at h ⊢
    cases hloop : drainLoop M (finish && vs.isEmpty) fuel v z with
    | none => rw [hloop] at h; exact nomatch h
    | some p =>
      rw [hloop] at h
      rw [drainLoop_more_fuel k hloop]
      dsimp only at h ⊢
      split at h
      · next herr => rw [if_pos herr]; exact h
      · next herr => rw [if_neg herr]; exact ih h

end Fuel

/-! ## The result as a byte array -/

theorem writeBuffs_spec (bs : List (List UInt8)) {s : Bytearray} (hs : WellFormed s) :
    ∃ s', writeBuffs bs s = .ok () s' ∧ Wrote s bs.flatten s' := by
  induction bs generalizing s with
  | nil => exact ⟨s, rfl, wrote_nil hs⟩
  | cons b bs ih =>
    obtain ⟨s₁, hw, hwrote⟩ := write_spec hs b
    obtain ⟨s₂, hrest, hwrote'⟩ := ih hwrote.inv
    refine ⟨s₂, ?_, ?_⟩
    · rw [writeBuffs, bind_ok hw]
      exact hrest
    · rw [flatten_cons]
      exact hwrote.trans hwrote'

/-- `getByteArray` is a fresh array with the bytes of the buffers,
positioned at its start. -/
theorem getByteArray_spec {σ : Type} (m_endian : Int8) (z : ZlibStream σ) :
    ∃ ba, getByteArray m_endian z = .ok () ba ∧ Loaded defaultSize z.m_buffs.flatten ba := by
  obtain ⟨s₁, hwrite, hwrote⟩ := writeBuffs_spec z.m_buffs
    (inv_new m_endian (show 1 ≤ defaultSize by decide))
  obtain ⟨s₂, hset, hloaded⟩ := Wrote.loaded hwrote
  refine ⟨s₂, ?_, hloaded⟩
  rw [getByteArray, bind_ok hwrite]
  exact hset

/-- The pieces of `getReadBuffers` over all there is are the data ahead. -/
theorem readPieces_spec {base_size : Nat} {b : List UInt8} {ba : Bytearray}
    (h : Loaded base_size b ba) {len : Nat} (hlen : b.length ≤ len) :
    ∃ iovs, getReadBuffers len ba = .ok iovs ba ∧ (pieces ba.m_root iovs).flatten = b := by
  obtain ⟨iovs, hget, hgather⟩ := getReadBuffers_spec h.inv len
  refine ⟨iovs, hget, ?_⟩
  have hsize : ba.getReadSize = b.length := by
    rw [Bytearray.getReadSize, h.position, h.data, Nat.sub_zero]
  rw [hsize, Nat.min_eq_right hlen, h.holds.window_eq, gather, flatMap_def] at hgather
  exact hgather

end SylarZlibStream
