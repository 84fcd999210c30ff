import Sylar.BytearrayCodecProofs

/-! # Runs of the byte array: a flat buffer underneath

The interface of `ByteArray` as a transition system: any sequence of calls,
a thrown `std::out_of_range` included, from a fresh array.  The results:

* **`refines_flat_buffer`** — `write` and `read` act on the blocks as on one flat memory.
* **`numbers_read_back`** — a sequence of numbers written anywhere is read
  back value by value, byte by byte.
* **`values_read_back_iff`** — with strings the round trip holds unless the sequence ends with an
  EMPTY STRING exactly where a block ends. -/

namespace SylarBytearrayRefinement

open ListWindow ByteCode SylarBytearray SylarBytearrayCodec

/-! ## Calls -/

/-- `ByteArray::setIsLittleEndian`. -/
def setIsLittleEndian (val : Bool) : BA Unit := fun s =>
  .ok () { s with
    m_endian := if val then SYLAR_LITTLE_ENDIAN else SYLAR_BIG_ENDIAN }

/-- A call of the interface. -/
inductive Op where
  | write (buf : List UInt8)
  | read (n : Nat)
  | setPosition (v : Nat)
  | getWriteBuffers (len : Nat)
  | getReadBuffers (len : Nat)
  | clear
  | setIsLittleEndian (val : Bool)
  | writeValue (v : Value)
  | readValue (k : Kind)

/-- The effect of a call, its result dropped. -/
def runOp : Op → BA Unit
  | .write buf => write buf
  | .read n => do let _ ← read n
  | .setPosition v => setPosition v
  | .getWriteBuffers len => do let _ ← getWriteBuffers len
  | .getReadBuffers len => do let _ ← getReadBuffers len
  | .clear => clear
  | .setIsLittleEndian val => setIsLittleEndian val
  | .writeValue v => v.write
  | .readValue k => do let _ ← k.read

/-- The states of a run from a fresh array; a call returns, or throws and the caller goes on. -/
inductive Reachable (base_size : Nat) (m_endian : Int8) : Bytearray → Prop
  | new : Reachable base_size m_endian (Bytearray.new base_size m_endian)
  | call {s s' : Bytearray} (op : Op) (h : Reachable base_size m_endian s)
      (hrun : runOp op s = .ok () s' ∨ runOp op s = .error .outOfRange s') :
      Reachable base_size m_endian s'

/-! ## What a call can do

`Keeps R x` says everything a run needs to know of the call `x`: from a
state with the invariant it ends, returning or throwing, in a state with
the invariant that `R` relates to it, and the only other way out is a
`read` of no bytes at a null node. -/

section Keeps

variable {R : Bytearray → Bytearray → Prop} {α β : Type}

def Keeps (R : Bytearray → Bytearray → Prop) (x : BA α) : Prop :=
  ∀ s, WellFormed s → match x s with
    | .ok _ s' => WellFormed s' ∧ R s s'
    | .error e s' => WellFormed s' ∧ R s s' ∧ (e = .outOfRange ∨ e = .nullNode 0)

theorem Keeps.pure (hrefl : ∀ s, R s s) (a : α) : Keeps R (pure a : BA α) :=
  fun s hs => ⟨hs, hrefl s⟩

theorem Keeps.bind (htrans : ∀ ⦃a b c⦄, R a b → R b c → R a c)
    {x : BA α} {f : α → BA β} (hx : Keeps R x) (hf : ∀ a, Keeps R (f a)) :
    Keeps R (x >>= f) := by
  intro s hs
  have h₁ := hx s hs
  cases hxs : x s with
  | error e s₁ =>
    rw [bind_error hxs]
    rw [hxs] at h₁
    exact h₁
  | ok a s₁ =>
    rw [hxs] at h₁
    obtain ⟨hs₁, hr₁⟩ := h₁
    have h₂ := hf a s₁ hs₁
    rw [bind_ok hxs]
    cases hfs : f a s₁ with
    | error e s₂ =>
      rw [hfs] at h₂
      exact ⟨h₂.1, htrans hr₁ h₂.2.1, h₂.2.2⟩
    | ok b s₂ =>
      rw [hfs] at h₂
      exact ⟨h₂.1, htrans hr₁ h₂.2⟩

theorem Keeps.mono {Q : Bytearray → Bytearray → Prop}
    (h : ∀ ⦃a b⦄, R a b → Q a b) {x : BA α} (hx : Keeps R x) : Keeps Q x := by
  intro s hs
  have h₁ := hx s hs
  cases hxs : x s with
  | error e s₁ => rw [hxs] at h₁; exact ⟨h₁.1, h h₁.2.1, h₁.2.2⟩
  | ok a s₁ => rw [hxs] at h₁; exact ⟨h₁.1, h h₁.2⟩

theorem Keeps.of_ok {x : BA α}
    (h : ∀ s, WellFormed s → ∃ a s', x s = .ok a s' ∧ WellFormed s' ∧ R s s') :
    Keeps R x := by
  intro s hs
  obtain ⟨a, s', hx, hs', hr⟩ := h s hs
  rw [hx]
  exact ⟨hs', hr⟩

end Keeps

/-- The block size never changes. -/
def SameBase (s s' : Bytearray) : Prop := s'.m_baseSize = s.m_baseSize

theorem SameBase.refl (s : Bytearray) : SameBase s s := rfl

theorem SameBase.trans ⦃a b c : Bytearray⦄ (h₁ : SameBase a b) (h₂ : SameBase b c) : SameBase a c :=
  Eq.trans h₂ h₁

/-- Everything but the position is the same. -/
structure SameMemory (s s' : Bytearray) : Prop where
  base : s'.m_baseSize = s.m_baseSize
  endian : s'.m_endian = s.m_endian
  data : s'.m_size = s.m_size
  capacity : s'.m_capacity = s.m_capacity
  flat : s'.flat = s.flat

theorem SameMemory.refl (s : Bytearray) : SameMemory s s := ⟨rfl, rfl, rfl, rfl, rfl⟩

theorem SameMemory.trans ⦃a b c : Bytearray⦄ (h₁ : SameMemory a b)
    (h₂ : SameMemory b c) : SameMemory a c :=
  ⟨h₂.base.trans h₁.base, h₂.endian.trans h₁.endian, h₂.data.trans h₁.data,
    h₂.capacity.trans h₁.capacity, h₂.flat.trans h₁.flat⟩

/-! ## The reads keep the memory -/

theorem read_keeps (n : Nat) : Keeps SameMemory (read n) := by
  intro s hs
  by_cases hn : n = 0
  · subst hn
    rw [read_zero]
    by_cases hcur : s.m_cur = []
    · rw [if_pos hcur]
      exact ⟨hs, SameMemory.refl s, Or.inr rfl⟩
    · rw [if_neg hcur]
      exact ⟨hs, SameMemory.refl s⟩
  by_cases hav : n ≤ s.getReadSize
  · obtain ⟨s', hread, ht⟩ := read_spec hs (Nat.pos_of_ne_zero hn) hav
    rw [hread]
    exact ⟨ht.inv, ht.base, ht.endian, ht.data, ht.capacity, ht.flat⟩
  · rw [read_throws (Nat.not_le.mp hav)]
    exact ⟨hs, SameMemory.refl s, Or.inl rfl⟩

theorem get_keeps : Keeps SameMemory (get : BA Bytearray) := fun s hs => ⟨hs, SameMemory.refl s⟩

/-- A call followed by a computation on its result. -/
theorem return_keeps {α β : Type} {x : BA α} (f : α → β)
    (hx : Keeps SameMemory x) : Keeps SameMemory (do return f (← x)) :=
  hx.bind SameMemory.trans fun a => Keeps.pure SameMemory.refl (f a)

theorem readFixed_keeps (k : Nat) : Keeps SameMemory (readFixed k) := by
  refine (read_keeps k).bind SameMemory.trans fun v =>
    get_keeps.bind SameMemory.trans fun s => ?_
  split
  · exact Keeps.pure SameMemory.refl _
  · exact Keeps.pure SameMemory.refl _

theorem readVarint_keeps (w : Nat) (is : List Nat) (acc : BitVec w) :
    Keeps SameMemory (readVarint w is acc) := by
  induction is generalizing acc with
  | nil => exact Keeps.pure SameMemory.refl acc
  | cons i is ih =>
    refine (return_keeps _ (read_keeps 1)).bind SameMemory.trans fun b => ?_
    split
    · exact Keeps.pure SameMemory.refl _
    · exact ih _

theorem readUint64_keeps : Keeps SameMemory readUint64 := return_keeps _ (readVarint_keeps 64 _ _)

/-- A typed read changes no byte, whether it returns or throws. -/
theorem Kind.read_keeps (k : Kind) : Keeps SameMemory k.read := by
  have hfix (k : Nat) {β : Type} (f : BitVec (8 * k) → β) := return_keeps f (readFixed_keeps k)
  have hstr {α : Type} {x : BA α} (f : α → Nat) (hx : Keeps SameMemory x) :
      Keeps SameMemory (do SylarBytearray.read (f (← x))) :=
    hx.bind SameMemory.trans fun a => SylarBytearrayRefinement.read_keeps (f a)
  have hbyte {β : Type} (f : List UInt8 → β) :=
    return_keeps f (SylarBytearrayRefinement.read_keeps 1)
  have hu32 : Keeps SameMemory readUint32 := return_keeps _ (readVarint_keeps 32 _ _)
  cases k with
  | fint8 => exact return_keeps _ (hbyte _)
  | fuint8 => exact return_keeps _ (hbyte _)
  | fint16 => exact return_keeps _ (hfix 2 _)
  | fuint16 => exact return_keeps _ (hfix 2 _)
  | fint32 => exact return_keeps _ (hfix 4 _)
  | fuint32 => exact return_keeps _ (hfix 4 _)
  | fint64 => exact return_keeps _ (hfix 8 _)
  | fuint64 => exact return_keeps _ (hfix 8 _)
  | int32 => exact return_keeps _ (return_keeps _ hu32)
  | uint32 => exact return_keeps _ hu32
  | int64 => exact return_keeps _ (return_keeps _ readUint64_keeps)
  | uint64 => exact return_keeps _ readUint64_keeps
  | float => exact return_keeps _ (hfix 4 _)
  | double => exact return_keeps _ (hfix 8 _)
  | stringF16 => exact return_keeps _ (hstr _ (hfix 2 _))
  | stringF32 => exact return_keeps _ (hstr _ (hfix 4 _))
  | stringF64 => exact return_keeps _ (hstr _ (hfix 8 _))
  | stringVint => exact return_keeps _ (hstr _ readUint64_keeps)

/-! ## Every run keeps the invariant -/

variable {s s₁ : Bytearray} {b : List UInt8} {base_size : Nat} {m_endian : Int8}

theorem Wrote.keeps {s' : Bytearray} (h : Wrote s b s') : WellFormed s' ∧ SameBase s s' :=
  ⟨h.inv, h.base⟩

/-- The outcome of a call whose result is dropped. -/
theorem drop_keeps {α : Type} {x : BA α} (hx : Keeps SameBase x) : Keeps SameBase (do let _ ← x) :=
  hx.bind SameBase.trans fun _ => Keeps.pure SameBase.refl ()

theorem sameBase_of_sameMemory ⦃s s' : Bytearray⦄ (h : SameMemory s s') : SameBase s s' := h.base

/-- One call keeps the invariant; besides `std::out_of_range` only a `read` of no bytes at a
null node fails. -/
theorem runOp_keeps (op : Op) : Keeps SameBase (runOp op) := by
  cases op with
  | write buf =>
    refine Keeps.of_ok fun s hs => ?_
    obtain ⟨s', hw, hwrote⟩ := write_spec hs buf
    exact ⟨(), s', hw, Wrote.keeps hwrote⟩
  | read n => exact drop_keeps ((read_keeps n).mono sameBase_of_sameMemory)
  | setPosition v =>
    intro s hs
    by_cases hv : v ≤ s.m_capacity
    · obtain ⟨s', hset, hm⟩ := setPosition_spec hs hv
      rw [runOp, hset]
      exact ⟨hm.inv, hm.base⟩
    · rw [runOp, setPosition_throws (Nat.not_le.mp hv)]
      exact ⟨hs, rfl, Or.inl rfl⟩
  | getWriteBuffers len =>
    refine drop_keeps (Keeps.of_ok fun s hs => ?_)
    rcases Nat.eq_zero_or_pos len with hlen | hlen
    · exact ⟨[], s, by rw [getWriteBuffers, if_pos hlen], hs, rfl⟩
    · obtain ⟨iovs, hget, -⟩ := getWriteBuffers_spec hs hlen
      have hgrown := addCapacity_spec hs len
      exact ⟨iovs, _, hget, hgrown.inv, hgrown.base⟩
  | getReadBuffers len =>
    refine drop_keeps (Keeps.of_ok fun s hs => ?_)
    obtain ⟨iovs, hget, -⟩ := getReadBuffers_spec hs len
    exact ⟨iovs, s, hget, hs, rfl⟩
  | clear =>
    refine Keeps.of_ok fun s hs => ?_
    obtain ⟨s', hclear, hs', hbase, -⟩ := clear_spec hs
    exact ⟨(), s', hclear, hs', hbase⟩
  | setIsLittleEndian val =>
    -- no field of the invariant mentions `m_endian`
    exact fun s hs => ⟨⟨hs.base_pos, hs.root_ne, hs.uniform, hs.capacity_eq,
      hs.position_le, hs.size_le, hs.cur_number⟩, rfl⟩
  | writeValue v =>
    refine Keeps.of_ok fun s hs => ?_
    obtain ⟨s', hw, hwrote⟩ := v.write_spec hs
    exact ⟨(), s', hw, Wrote.keeps hwrote⟩
  | readValue k =>
    exact drop_keeps ((Kind.read_keeps k).mono sameBase_of_sameMemory)

/-- Every run: each reachable state satisfies the invariant. -/
theorem Reachable.wellFormed (hb : 1 ≤ base_size) (h : Reachable base_size m_endian s) :
    WellFormed s ∧ s.m_baseSize = base_size := by
  induction h with
  | new => exact ⟨inv_new m_endian hb, rfl⟩
  | call op _ hrun ih =>
    obtain ⟨hs, hbase⟩ := ih
    have hkeep := runOp_keeps op _ hs
    rcases hrun with hok | hthrow
    · rw [hok] at hkeep
      exact ⟨hkeep.1, Eq.trans hkeep.2 hbase⟩
    · rw [hthrow] at hkeep
      exact ⟨hkeep.1, Eq.trans hkeep.2.1 hbase⟩

/-! ## The flat buffer -/

/-- Inside the old memory, but outside `[p, p + n)`. -/
def Outside (s : Bytearray) (n i : Nat) : Prop :=
  i < s.flat.length ∧ (i < s.m_position ∨ s.m_position + n ≤ i)

theorem Wrote.stores {s' : Bytearray} (h : Wrote s b s') : window s'.flat s.m_position b.length = b
      ∧ ∀ i, Outside s b.length i → s'.flat[i]? = s.flat[i]? := by
  obtain ⟨fresh, hfit, hflat⟩ := h.flat
  have hpos : s.m_position ≤ (s.flat ++ fresh).length := Nat.le_trans (Nat.le_add_right _ _) hfit
  rw [hflat]
  refine ⟨window_overwrite_self hpos, ?_⟩
  rintro i ⟨hin, hout⟩
  rw [getElem?_overwrite_of_outside hfit hout]
  exact List.getElem?_append_left hin

private theorem cur_eq_drop (hs : WellFormed s) :
    s.m_cur = s.m_root.drop (s.m_position / s.m_baseSize) := by
  rw [Bytearray.m_root, ← hs.cur_number, List.drop_left]

/-- **The byte array refines a flat buffer.**  In every state of every run the
representation invariant holds; `write` stores at the position and changes no other byte,
`read` returns the window at the position, a read that throws changes nothing, no read
changes a byte, and no call ends in a fault other than a throw or a read of no bytes at
the end of the chain. -/
theorem refines_flat_buffer {base_size : Nat} {m_endian : Int8} (hb : 1 ≤ base_size) {s : Bytearray}
    (h : Reachable base_size m_endian s) :
    s.m_baseSize = base_size ∧ s.m_root.length = s.m_capacity / s.m_baseSize
      ∧ s.m_baseSize ∣ s.m_capacity
      ∧ (∀ n ∈ s.m_root, n.length = s.m_baseSize)
      ∧ s.m_position ≤ s.m_size ∧ s.m_size ≤ s.m_capacity
      ∧ s.m_cur = s.m_root.drop (s.m_position / s.m_baseSize)
      ∧ (s.m_cur = [] ↔ s.m_position = s.m_capacity)
      ∧ (∀ buf, ∃ s', write buf s = .ok () s' ∧ s'.m_position = s.m_position + buf.length
          ∧ window s'.flat s.m_position buf.length = buf
          ∧ ∀ i, Outside s buf.length i → s'.flat[i]? = s.flat[i]?)
      ∧ (∀ n, 1 ≤ n → n ≤ s.getReadSize → ∃ s', read n s = .ok (window s.flat s.m_position n) s'
            ∧ s'.m_position = s.m_position + n ∧ SameMemory s s')
      ∧ (∀ n, s.getReadSize < n → read n s = .error .outOfRange s)
      ∧ (∀ k, Keeps SameMemory (Kind.read k))
      ∧ (∀ op s' e, runOp op s = .error e s' → e = .outOfRange ∨ e = .nullNode 0) := by
  obtain ⟨hs, hbase⟩ := h.wellFormed hb
  refine ⟨hbase, hs.chain_length, ⟨s.m_root.length, ?_⟩, hs.uniform,
    hs.position_le, hs.size_le, cur_eq_drop hs, hs.cur_null_iff, ?_, ?_,
    fun n hn => read_throws hn, Kind.read_keeps, ?_⟩
  · rw [hs.capacity_eq, Nat.mul_comm]
  · intro buf
    obtain ⟨s', hw, hwrote⟩ := write_spec hs buf
    obtain ⟨hwin, hrest⟩ := Wrote.stores hwrote
    exact ⟨s', hw, hwrote.position, hwin, hrest⟩
  · intro n hn hav
    obtain ⟨s', hread, ht⟩ := read_spec hs hn hav
    exact ⟨s', hread, ht.position, ht.base, ht.endian, ht.data, ht.capacity, ht.flat⟩
  · intro op s' e hrun
    have hkeep := runOp_keeps op s hs
    rw [hrun] at hkeep
    exact hkeep.2.2

/-- A run that crosses two block boundaries and throws on the way. -/
theorem refines_flat_buffer_three :
    ∃ s, Reachable 3 SYLAR_BIG_ENDIAN s ∧ s.m_position = 2 ∧ s.m_capacity = 9
      ∧ s.m_root.length = 9 / 3
      ∧ ∃ s', read 4 s = .ok [3, 4, 5, 6] s' ∧ s'.m_position = 6 := by
  let s₁ : Bytearray := ⟨3, 7, 9, 7, 2, [[1, 2, 3], [4, 5, 6]], [[7, 0, 0]]⟩
  let s₂ : Bytearray := ⟨3, 2, 9, 7, 2, [], [[1, 2, 3], [4, 5, 6], [7, 0, 0]]⟩
  have h₁ : Reachable 3 SYLAR_BIG_ENDIAN s₁ :=
    .call (.write [1, 2, 3, 4, 5, 6, 7]) .new (Or.inl rfl)
  have h₂ : Reachable 3 SYLAR_BIG_ENDIAN s₁ := .call (.setPosition 10) h₁ (Or.inr rfl)
  have h₃ : Reachable 3 SYLAR_BIG_ENDIAN s₂ := .call (.setPosition 2) h₂ (Or.inl rfl)
  have h := refines_flat_buffer (by decide) h₃
  obtain ⟨s', hread, hpos, -⟩ := h.2.2.2.2.2.2.2.2.2.1 4 (by decide) (by decide)
  exact ⟨s₂, h₃, rfl, rfl, h.2.1, s', hread, hpos⟩

/-! ## Reading back what was written -/

/-- After a write the position can be set back, and the encoding is then
ahead of it. -/
theorem Wrote.rewind (h : Wrote s b s₁) : ∃ s₂, setPosition s.m_position s₁ = .ok () s₂
      ∧ Moved s₁ s.m_position s₂ ∧ Holds s₂ b := by
  have hsize := h.inv.size_le
  have hpos := h.inv.position_le
  have hend := h.position
  obtain ⟨s₂, hset, hm⟩ := setPosition_spec (v := s.m_position) h.inv (by omega)
  refine ⟨s₂, hset, hm, ?_, ?_⟩
  · rw [hm.flat, hm.position]
    exact (Wrote.stores h).1
  · rw [hm.position, hm.data]
    omega

/-- Values written and read back, with the bytes of the writes consumed; but for an empty string
at the end of the sequence and of the chain. -/
theorem rewind_readAll (vs : List Value) (hs : WellFormed s) (hfit : ∀ v ∈ vs, v.Fits) :
    ∃ s₁ s₂, writeAll vs s = .ok () s₁ ∧ Wrote s (encodeAll s.m_endian vs) s₁
      ∧ setPosition s.m_position s₁ = .ok () s₂
      ∧ Moved s₁ s.m_position s₂
      ∧ Holds s₂ (encodeAll s.m_endian vs)
      ∧ (¬ (EndsEmpty vs ∧ s₁.m_position = s₁.m_capacity) →
          ∃ s₃, readAll (vs.map Value.kind) s₂ = .ok vs s₃
            ∧ Took s₂ (encodeAll s.m_endian vs).length s₃)
      ∧ (EndsEmpty vs ∧ s₁.m_position = s₁.m_capacity →
          ∃ s₃, readAll (vs.map Value.kind) s₂ = .error (.nullNode 0) s₃) := by
  obtain ⟨s₁, hwrite, hwrote⟩ := writeAll_spec vs hs
  obtain ⟨s₂, hset, hm, hholds⟩ := Wrote.rewind hwrote
  have hend : s₂.m_endian = s.m_endian := hm.endian.trans hwrote.endian
  have hread := readAll_spec vs hm.inv hfit (by rw [hend]; exact hholds)
  rw [hend, hm.position, hm.capacity, ← hwrote.position] at hread
  exact ⟨s₁, s₂, hwrite, hwrote, hset, hm, hholds, hread.1, hread.2⟩

theorem not_endsEmpty {vs : List Value} (h : ∀ v ∈ vs, v.text? = none) : ¬ EndsEmpty vs := by
  intro hends
  obtain ⟨v, hv, htext⟩ := Option.bind_eq_some_iff.mp hends
  rw [h v (List.mem_of_getLast? hv)] at htext
  exact nomatch htext

theorem encodeAll_append (e : Int8) (us ws : List Value) :
    encodeAll e (us ++ ws) = encodeAll e us ++ encodeAll e ws :=
  List.flatMap_append

theorem fits_of_number {v : Value} (h : v.text? = none) : v.Fits := by
  cases v with
  | stringF16 v => exact nomatch h
  | stringF32 v => exact nomatch h
  | stringF64 v => exact nomatch h
  | stringVint v => exact nomatch h
  | _ => trivial

/-- A number behind others, written at `s` and read at `s₂`: the calls start and end
at the same places. -/
theorem number_in_step {s₂ : Bytearray} (hs : WellFormed s) (hs₂ : WellFormed s₂)
    (hend : s₂.m_endian = s.m_endian) (hpos : s₂.m_position = s.m_position) {us : List Value}
    {v : Value} (hus : ∀ u ∈ us, u.text? = none) (hv : v.text? = none)
    (hholds : Holds s₂ (encodeAll s.m_endian us ++ v.encode s.m_endian)) :
    ∃ w w' r r', writeAll us s = .ok () w ∧ v.write w = .ok () w'
      ∧ readAll (us.map Value.kind) s₂ = .ok us r ∧ v.kind.read r = .ok v r'
      ∧ r.m_position = w.m_position ∧ r'.m_position = w'.m_position
      ∧ w'.m_position = w.m_position + v.width := by
  obtain ⟨w, hw, hwus⟩ := writeAll_spec us hs
  obtain ⟨w', hw', hwv⟩ := v.write_spec hwus.inv
  obtain ⟨r, hr, htr⟩ := (readAll_spec us hs₂ (fun u hu => fits_of_number (hus u hu))
    (by rw [hend]; exact hholds.left)).1 fun h => not_endsEmpty hus h.1
  rw [hend] at htr
  obtain ⟨r', hr', htr'⟩ := (v.readsBack htr.inv (fits_of_number hv)
    (by rw [htr.endian, hend]; exact hholds.right htr)).1
    fun ht => absurd (hv.symm.trans ht) (by simp)
  have hwidth := length_encode s.m_endian (fits_of_number hv)
  have hwpos := hwus.position
  have hwpos' := hwv.position
  have hrpos := htr.position
  have hrpos' := htr'.position
  rw [hwus.endian, hwidth] at hwpos'
  rw [htr.endian, hend, hwidth] at hrpos'
  exact ⟨w, w', r, r', hw, hw', hr, hr', by omega, by omega, hwpos'⟩

/-- A write leaves the bytes before its start as they are. -/
theorem Wrote.take_before (hs : WellFormed s) (h : Wrote s b s₁) :
    s₁.flat.take s.m_position = s.flat.take s.m_position := by
  obtain ⟨fresh, hfits, hflat⟩ := h.flat
  have hin : s.m_position ≤ s.flat.length := by
    rw [hs.flat_length]
    exact hs.position_le.trans hs.size_le
  rw [hflat, take_overwrite _ (Nat.le_refl _) (Nat.le_trans (Nat.le_add_right _ _) hfits),
    List.take_append_of_le_length hin]

/-- **Decode undoes encode for numbers**, from any state of any run: the values come back in order,
each read starts and ends where its write did, a varint takes at most 5 or 10 bytes, no call faults,
and the bytes before stay. -/
theorem numbers_read_back {base_size : Nat} {m_endian : Int8} (hb : 1 ≤ base_size) {s : Bytearray}
    (h : Reachable base_size m_endian s) (vs : List Value)
    (hnum : ∀ v ∈ vs, v.text? = none) :
    ∃ s₁ s₂ s₃, writeAll vs s = .ok () s₁ ∧ setPosition s.m_position s₁ = .ok () s₂
      ∧ readAll (vs.map Value.kind) s₂ = .ok vs s₃
      ∧ (∀ us v ws, vs = us ++ v :: ws →
          ∃ w w' r r', writeAll us s = .ok () w ∧ v.write w = .ok () w'
            ∧ readAll (us.map Value.kind) s₂ = .ok us r
            ∧ v.kind.read r = .ok v r'
            ∧ r.m_position = w.m_position ∧ r'.m_position = w'.m_position
            ∧ w'.m_position = w.m_position + v.width
            ∧ ∀ room, v.varintRoom = some room → 1 ≤ v.width ∧ v.width ≤ room)
      ∧ s₁.flat.take s.m_position = s.flat.take s.m_position
      ∧ s₃.flat = s₁.flat := by
  obtain ⟨hs, -⟩ := h.wellFormed hb
  obtain ⟨s₁, s₂, hwrite, hwrote, hset, hm, hholds, hread, -⟩ :=
    rewind_readAll vs hs fun v hv => fits_of_number (hnum v hv)
  obtain ⟨s₃, hread₃, htook⟩ := hread fun h => not_endsEmpty hnum h.1
  refine ⟨s₁, s₂, s₃, hwrite, hset, hread₃, ?_, Wrote.take_before hs hwrote,
    htook.flat.trans hm.flat⟩
  rintro us v ws rfl
  obtain ⟨hus, hrest⟩ := List.forall_mem_append.mp hnum
  obtain ⟨hv, -⟩ := List.forall_mem_cons.mp hrest
  rw [encodeAll_append, encodeAll, encodeAll, List.flatMap_cons, ← List.append_assoc] at hholds
  obtain ⟨w, w', r, r', hw, hw', hr, hr', hstart, hstop, hwidth⟩ :=
    number_in_step hs hm.inv (hm.endian.trans hwrote.endian) hm.position hus hv hholds.left
  exact ⟨w, w', r, r', hw, hw', hr, hr', hstart, hstop, hwidth,
    fun room hroom => Value.width_of_varint hroom⟩

/-- Numbers of four kinds in big-endian order, over blocks of three bytes. -/
theorem numbers_read_back_straddling : let vs : List Value :=
      [.int32 (-3), .fuint32 0x01020304, .uint64 0xFFFFFFFFFFFFFFFF, .fint8 (-1)]
    ∃ s s₁ s₂ s₃, Reachable 3 SYLAR_BIG_ENDIAN s ∧ s.m_position = 2
      ∧ writeAll vs s = .ok () s₁ ∧ setPosition 2 s₁ = .ok () s₂
      ∧ readAll (vs.map Value.kind) s₂ = .ok vs s₃ := by
  intro vs
  have h : Reachable 3 SYLAR_BIG_ENDIAN ⟨3, 2, 3, 2, 2, [], [[7, 9, 0]]⟩ :=
    .call (.write [7, 9]) .new (Or.inl rfl)
  obtain ⟨s₁, s₂, s₃, hwrite, hset, hread, -⟩ := numbers_read_back (by decide) h vs (by decide)
  exact ⟨_, s₁, s₂, s₃, h, rfl, hwrite, hset, hread⟩

/-! ## Strings -/

/-- The values are written on a fresh array, the position is set back, and the
matching reads are made. -/
def roundTrip (vs : List Value) : BA (List Value) := do
  writeAll vs
  setPosition 0
  readAll (vs.map Value.kind)

/-- After writes on a fresh array the chain is full exactly when its blocks are
filled to the last byte. -/
theorem full_iff (hlen : 1 ≤ b.length) (h : Wrote (Bytearray.new base_size m_endian) b s) :
    s.m_position = s.m_capacity ↔ base_size ∣ b.length := by
  have hbase : s.m_baseSize = base_size := h.base
  have hpos : s.m_position = b.length := h.position.trans (Nat.zero_add _)
  have hcap := h.inv.capacity_eq
  rw [hbase] at hcap
  constructor
  · intro hfull
    rw [← hpos, hfull, hcap]
    exact Nat.dvd_mul_left _ _
  · rintro ⟨m, hm⟩
    have hle : s.m_position ≤ s.m_capacity := h.inv.position_le.trans h.inv.size_le
    rcases h.tight with hold | htight
    · -- nothing was appended: one block, filled by a positive multiple of it
      have hone : s.m_capacity = base_size := hold
      have hge : base_size ≤ b.length := Nat.le_of_dvd hlen ⟨m, hm⟩
      omega
    · -- two multiples less than a block apart are equal
      have hlt : s.m_root.length * base_size < (m + 1) * base_size := by
        have hbound : s.m_capacity < 0 + b.length + base_size := htight
        rw [← hcap, Nat.add_mul, Nat.one_mul, Nat.mul_comm m, ← hm]
        omega
      have hcount : s.m_root.length ≤ m := Nat.le_of_lt_succ (Nat.lt_of_mul_lt_mul_right hlt)
      have hup : s.m_capacity ≤ b.length := by
        rw [hcap, hm, Nat.mul_comm base_size]
        exact Nat.mul_le_mul_right _ hcount
      omega

/-- A fresh array that was filled with `b` and set back to its start. -/
structure Loaded (base_size : Nat) (b : List UInt8) (s : Bytearray) : Prop where
  inv : WellFormed s
  position : s.m_position = 0
  data : s.m_size = b.length
  holds : Holds s b
  full : 1 ≤ b.length → (b.length = s.m_capacity ↔ base_size ∣ b.length)

theorem Wrote.loaded (h : Wrote (Bytearray.new base_size m_endian) b s₁) :
    ∃ s₂, setPosition 0 s₁ = .ok () s₂ ∧ Loaded base_size b s₂ := by
  obtain ⟨s₂, hset, hm, hholds⟩ := Wrote.rewind h
  have hpos : s₁.m_position = b.length := h.position.trans (Nat.zero_add _)
  refine ⟨s₂, hset, hm.inv, hm.position, ?_, hholds, fun hlen => ?_⟩
  · have hdata : s₁.m_size = max 0 (0 + b.length) := h.data
    have hmax : s₂.m_size = max s₁.m_size 0 := hm.data
    omega
  · rw [hm.capacity, ← hpos]
    rw [full_iff hlen h, hpos]

/-- **Decode undoes encode for values of all kinds**, without a fault and with nothing left to read,
exactly when the sequence does not end with an empty string on a block boundary. -/
theorem values_read_back_iff {base_size : Nat} (m_endian : Int8)
    (hb : 1 ≤ base_size) {vs : List Value} (hfit : ∀ v ∈ vs, v.Fits) :
    (∃ s, roundTrip vs (Bytearray.new base_size m_endian) = .ok vs s ∧ s.getReadSize = 0)
      ↔ ¬ (EndsEmpty vs ∧ base_size ∣ (vs.map Value.width).sum) := by
  obtain ⟨s₁, s₂, hwrite, hwrote, hset, hm, hholds, hok, hnull⟩ :=
    rewind_readAll vs (inv_new m_endian hb) hfit
  have hlen := length_encodeAll m_endian hfit
  have hrun : roundTrip vs (Bytearray.new base_size m_endian) = readAll (vs.map Value.kind) s₂ := by
    rw [roundTrip, bind_ok hwrite]
    exact bind_ok hset
  -- what the source looks at is the end of the chain; on a fresh array that is
  -- a matter of the widths alone
  have hcond : (EndsEmpty vs ∧ s₁.m_position = s₁.m_capacity)
      ↔ (EndsEmpty vs ∧ base_size ∣ (vs.map Value.width).sum) := by
    refine and_congr_right fun hends => ?_
    have hne : vs ≠ [] := by
      rintro rfl
      exact nomatch hends
    rw [← hlen]
    exact full_iff (encodeAll_pos m_endian hne) hwrote
  rw [hrun, ← hcond]
  constructor
  · rintro ⟨s, hread, -⟩ hbad
    obtain ⟨s₃, hfault⟩ := hnull hbad
    rw [hread] at hfault
    exact nomatch hfault
  · intro hgood
    obtain ⟨s₃, hread, htook⟩ := hok hgood
    refine ⟨s₃, hread, ?_⟩
    have hdata : s₁.m_size = max 0 (0 + _) := hwrote.data
    have hpos : s₂.m_position = 0 := hm.position
    have hsize : s₂.m_size = max s₁.m_size 0 := hm.data
    rw [Bytearray.getReadSize, htook.position, htook.data, hpos, hsize, hdata]
    show max (max 0 (0 + (encodeAll m_endian vs).length)) 0
      - (0 + (encodeAll m_endian vs).length) = 0
    omega

/-- Two empty strings, one of them last, with a byte to spare in the block. -/
theorem values_read_back_iff_spare : ∃ s, roundTrip [.stringF16 [], .int32 (-1), .stringF64 []]
          (Bytearray.new 4 SYLAR_BIG_ENDIAN)
        = .ok [.stringF16 [], .int32 (-1), .stringF64 []] s
      ∧ s.getReadSize = 0 :=
  (values_read_back_iff _ (by decide) (by decide)).mpr (by decide)

/-- One empty string whose length prefix fills the only block: the reads
dereference the null node. -/
theorem empty_string_at_block_end : (∀ v ∈ [Value.stringF64 []], v.Fits)
      ∧ (∃ s, roundTrip [.stringF64 []] (Bytearray.new 8 SYLAR_LITTLE_ENDIAN)
          = .error (.nullNode 0) s)
      ∧ ¬ ∃ s, roundTrip [.stringF64 []] (Bytearray.new 8 SYLAR_LITTLE_ENDIAN)
          = .ok [.stringF64 []] s ∧ s.getReadSize = 0 := by
  have hfault : ∃ s, roundTrip [.stringF64 []] (Bytearray.new 8 SYLAR_LITTLE_ENDIAN)
        = .error (.nullNode 0) s := ⟨_, rfl⟩
  refine ⟨by decide, hfault, ?_⟩
  rintro ⟨s, hok, -⟩
  obtain ⟨s', hfault⟩ := hfault
  rw [hok] at hfault
  exact nomatch hfault

end SylarBytearrayRefinement
