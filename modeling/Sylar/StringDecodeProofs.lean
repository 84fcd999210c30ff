import Sylar.BytearrayRefinementProofs

/-! # Decoding strings from hostile bytes (`bytearray.cc`)

`readStringF16`, `F32`, `F64` and `Vint` read a length prefix, which moves the
position, size a `std::string` by it, and only then `read`, which checks the bound.  A
prefix that is larger than what follows has moved the position and asked for the
memory before it is refused.

* **`length_spec`**, **`length_throws`** — what the prefix readers do in front of any
  bytes.
* **`string_decoding_iff`** — a call returns what follows its prefix, or throws
  `std::out_of_range` with the position where it was, and asks for no more memory than
  there is data, exactly when `Decodable` holds. -/

namespace SylarStringDecode

open ListWindow ByteCode SylarBytearray SylarBytearrayCodec SylarBytearrayRefinement

/-! ## The code -/

/-- In the array, or because `buff.resize(len)` throws (`std::length_error`, `std::bad_alloc`). -/
inductive StringFault where
  | array (e : Fault)
  | resize (len : Nat)
  deriving DecidableEq, Repr

/-- The bytes a call asked for with `resize`, and how it ended. -/
structure Outcome where
  requests : List Nat
  result : EStateM.Result StringFault Bytearray (List UInt8)

/-- The common body: `len = length(); buff.resize(len); read(&buff[0], len);`; the memory grants
what `allocates` says. -/
def readString (allocates : Nat → Bool) (length : BA Nat) (s : Bytearray) : Outcome :=
  match length s with
  | .error e s => ⟨[], .error (.array e) s⟩
  | .ok len s =>
    if allocates len then
      match read len s with
      | .error e s => ⟨[len], .error (.array e) s⟩
      | .ok buff s => ⟨[len], .ok buff s⟩
    else ⟨[len], .error (.resize len) s⟩

/-- The four calls. -/
inductive StringKind where
  | F16 | F32 | F64 | Vint
  deriving DecidableEq, Repr

/-- The reader of the length prefix. -/
def StringKind.length : StringKind → BA Nat
  | .F16 => do return (← readFuint16).toNat
  | .F32 => do return (← readFuint32).toNat
  | .F64 => do return (← readFuint64).toNat
  | .Vint => do return (← readUint64).toNat

/-- `readStringF16`, `readStringF32`, `readStringF64`, `readStringVint`. -/
def StringKind.read (allocates : Nat → Bool) (k : StringKind) : Bytearray → Outcome :=
  readString allocates k.length

/-- The same calls in the codec, which leaves the memory out. -/
def StringKind.codec : StringKind → BA (List UInt8)
  | .F16 => readStringF16
  | .F32 => readStringF32
  | .F64 => readStringF64
  | .Vint => readStringVint

theorem readString_granted {α : Type} (x : BA α) (num : α → Nat) (s : Bytearray) :
    (readString (fun _ => true) (do return num (← x)) s).result
      = match (do read (num (← x)) : BA (List UInt8)) s with
        | .ok v s' => .ok v s'
        | .error e s' => .error (.array e) s' := by
  cases hx : x s with
  | error e s₁ => rw [readString, bind_error hx, bind_error hx]
  | ok a s₁ =>
    have hnum : (do return num (← x) : BA Nat) s = .ok (num a) s₁ := bind_ok hx
    rw [readString, hnum, bind_ok hx]
    cases hread : read (num a) s₁ with
    | error e s₂ => simp only [hread, if_pos]
    | ok v s₂ => simp only [hread, if_pos]

/-- With all memory granted, the two are the same. -/
theorem read_eq_codec (k : StringKind) (s : Bytearray) : (k.read (fun _ => true) s).result
      = match k.codec s with
        | .ok v s' => .ok v s'
        | .error e s' => .error (.array e) s' := by
  cases k with
  | F16 => exact readString_granted readFuint16 UInt16.toNat s
  | F32 => exact readString_granted readFuint32 UInt32.toNat s
  | F64 => exact readString_granted readFuint64 UInt64.toNat s
  | Vint => exact readString_granted readUint64 UInt64.toNat s

/-! ## The prefix in front of any bytes -/

/-- The number in the bytes of a fixed-width prefix, in the byte order of the array. -/
def fixedValue (m_endian : Int8) (bs : List UInt8) : Nat :=
  if m_endian = SYLAR_BYTE_ORDER then ofLeBytes bs else ofLeBytes bs.reverse

/-- The width and the number of a prefix of `w` bytes; `none` if they are not all there. -/
def fixedHeader (w : Nat) (m_endian : Int8) (bytes : List UInt8) : Option (Nat × Nat) :=
  if w ≤ bytes.length then some (w, fixedValue m_endian (bytes.take w)) else none

/-- The width and the number of the prefix at the front of some bytes. -/
def StringKind.header : StringKind → Int8 → List UInt8 → Option (Nat × Nat)
  | .F16 => fixedHeader 2
  | .F32 => fixedHeader 4
  | .F64 => fixedHeader 8
  | .Vint => fun _ bytes =>
    (lebFront 10 bytes).map fun front => (front.length, ofLeb front % 2 ^ 64)

/-- `w` bytes in front of any bytes. -/
theorem readFixed_any {s : Bytearray} (hs : WellFormed s) {w : Nat} (hw : 0 < w)
    (hav : w ≤ s.getReadSize) :
    ∃ v s', readFixed w s = .ok v s' ∧ v.toNat = fixedValue s.m_endian (s.ahead.take w)
      ∧ Took s w s' := by
  obtain ⟨s', hread, htook⟩ := read_spec hs hw hav
  have hlen : (s.ahead.take w).length = w := by
    rw [List.length_take, length_ahead hs, Nat.min_eq_left hav]
  rw [← take_ahead hav] at hread
  rw [readFixed, bind_ok hread, bind_ok (show (get : BA Bytearray) s' = .ok s' s' from rfl),
    htook.endian, fixedValue]
  by_cases he : s.m_endian = SYLAR_BYTE_ORDER
  · rw [if_pos he, if_pos he]
    exact ⟨_, s', rfl, toNat_ofMem hlen, htook⟩
  · rw [if_neg he, if_neg he, byteswap_ofMem hlen]
    exact ⟨_, s', rfl, toNat_ofMem (by rw [List.length_reverse, hlen]), htook⟩

/-- A call followed by a computation on its result. -/
theorem returns {α β : Type} {x : BA α} (f : α → β) {s s' : Bytearray} {a : α}
    (h : x s = .ok a s') : (do return f (← x) : BA β) s = .ok (f a) s' :=
  bind_ok h

/-- A prefix that is there. -/
def Reads (k : StringKind) (s : Bytearray) (w len : Nat) : Prop :=
  0 < w ∧ w ≤ s.getReadSize ∧ ∃ s', k.length s = .ok len s' ∧ Took s w s'

theorem fixed_reads {k : StringKind} {s : Bytearray} (hs : WellFormed s) {w₀ w len : Nat}
    (hw : 0 < w₀) {U : Type} (mk : BitVec (8 * w₀) → U) (num : U → Nat)
    (hnum : ∀ v, num (mk v) = v.toNat)
    (hk : k.length = do return num (← (do return mk (← readFixed w₀))))
    (hheader : fixedHeader w₀ s.m_endian s.ahead = some (w, len)) : Reads k s w len := by
  rw [fixedHeader, length_ahead hs] at hheader
  split at hheader
  · next hav =>
      obtain ⟨rfl, rfl⟩ := Prod.mk.inj (Option.some.inj hheader)
      obtain ⟨v, s', hread, hval, htook⟩ := readFixed_any hs hw hav
      refine ⟨hw, hav, s', ?_, htook⟩
      rw [hk, returns num (returns mk hread), hnum, hval]
  · cases hheader

/-- **The prefix is there**: it is read, and the position has moved behind it. -/
theorem length_spec {s : Bytearray} (hs : WellFormed s) {k : StringKind} {w len : Nat}
    (h : k.header s.m_endian s.ahead = some (w, len)) : Reads k s w len := by
  cases k with
  | F16 => exact fixed_reads hs (by decide) UInt16.ofBitVec UInt16.toNat (fun _ => rfl) rfl h
  | F32 => exact fixed_reads hs (by decide) UInt32.ofBitVec UInt32.toNat (fun _ => rfl) rfl h
  | F64 => exact fixed_reads hs (by decide) UInt64.ofBitVec UInt64.toNat (fun _ => rfl) rfl h
  | Vint =>
    obtain ⟨front, hfront, hval⟩ := Option.map_eq_some_iff.mp h
    obtain ⟨rfl, rfl⟩ := Prod.mk.inj hval
    obtain ⟨s', htook, hread⟩ := readVarint_ahead 10 0 (0 : BitVec 64) hs
    rw [hfront] at htook hread
    obtain ⟨-, rest, hrest⟩ := lebFront_spec hfront
    refine ⟨lebFront_pos hfront, ?_, s', ?_, htook⟩
    · rw [← length_ahead hs, hrest, List.length_append]
      omega
    · have hval : ((0 : BitVec 64) ||| (BitVec.ofNat 64 (ofLeb front) <<< 0)).toNat
          = ofLeb front % 2 ^ 64 := by
        rw [BitVec.shiftLeft_zero, BitVec.ofNat_eq_ofNat, BitVec.zero_or, BitVec.toNat_ofNat]
      rw [← hval]
      exact returns UInt64.toNat (returns UInt64.ofBitVec hread)

/-- A prefix that is not all there: the reader throws, and only a variable-length one has
taken something. -/
theorem length_throws {s : Bytearray} (hs : WellFormed s) {k : StringKind}
    (h : k.header s.m_endian s.ahead = none) :
    ∃ n s', k.length s = .error .outOfRange s' ∧ Took s n s'
      ∧ (n = 0 ↔ (k = .Vint → s.getReadSize = 0)) := by
  have hfixed : ∀ {w : Nat}, fixedHeader w s.m_endian s.ahead = none →
      readFixed w s = .error .outOfRange s := by
    intro w hnone
    rw [fixedHeader, length_ahead hs] at hnone
    split at hnone
    · cases hnone
    · next hlack => exact bind_error (read_throws (Nat.not_le.mp hlack))
  cases k with
  | F16 => exact ⟨0, s, bind_error (bind_error (hfixed h)), took_zero hs, by simp⟩
  | F32 => exact ⟨0, s, bind_error (bind_error (hfixed h)), took_zero hs, by simp⟩
  | F64 => exact ⟨0, s, bind_error (bind_error (hfixed h)), took_zero hs, by simp⟩
  | Vint =>
    obtain ⟨s', htook, hread⟩ := readVarint_ahead 10 0 (0 : BitVec 64) hs
    rw [Option.map_eq_none_iff.mp h] at htook hread
    rw [Option.getD_none, length_ahead hs] at htook
    exact ⟨_, s', bind_error (bind_error hread), htook, by simp⟩

/-! ## Robust decoding -/

/-- It returns the `len` bytes behind its prefix and moves behind them, or throws
`std::out_of_range` and leaves the position; it asks for no more bytes than there are. -/
structure Robust (allocates : Nat → Bool) (k : StringKind) (s : Bytearray) : Prop where
  returns : ∀ v s', (k.read allocates s).result = .ok v s' →
    ∃ w len, k.header s.m_endian s.ahead = some (w, len)
      ∧ v = window s.flat (s.m_position + w) len ∧ v.length = len
      ∧ s'.m_position = s.m_position + w + len ∧ SameMemory s s'
  throws : ∀ e s', (k.read allocates s).result = .error e s' →
    e = .array .outOfRange ∧ s'.m_position = s.m_position ∧ SameMemory s s'
  requests : ∀ n ∈ (k.read allocates s).requests, n ≤ s.getReadSize

/-- Nothing of the prefix is there (or not all of a fixed-width one), or the prefix and its string
are, and an empty string does not end with the chain. -/
def Decodable (k : StringKind) (s : Bytearray) : Prop :=
  match k.header s.m_endian s.ahead with
  | none => k = .Vint → s.getReadSize = 0
  | some (w, len) =>
    w + len ≤ s.getReadSize ∧ (len = 0 → s.m_position + w < s.m_capacity)

instance (k : StringKind) (s : Bytearray) : Decidable (Decodable k s) := by
  unfold Decodable
  split <;> infer_instance

theorem SameMemory.of_took {s s' : Bytearray} {n : Nat} (h : Took s n s') : SameMemory s s' :=
  ⟨h.base, h.endian, h.data, h.capacity, h.flat⟩

section Prefix

variable {s s₁ : Bytearray} {allocates : Nat → Bool} {k : StringKind} {w len : Nat}

/-- Behind the prefix, with the memory granted. -/
theorem read_granted (hlength : k.length s = .ok len s₁) (hgrant : allocates len = true) :
    k.read allocates s = ⟨[len], match read len s₁ with
      | .error e s₂ => .error (.array e) s₂
      | .ok v s₂ => .ok v s₂⟩ := by
  rw [StringKind.read, readString, hlength]
  dsimp only
  rw [if_pos hgrant]
  cases read len s₁ <;> rfl

/-- A call that returns the bytes behind the prefix. -/
theorem robust_of_ok {s₂ : Bytearray} {v : List UInt8}
    (hheader : k.header s.m_endian s.ahead = some (w, len))
    (hrun : k.read allocates s = ⟨[len], .ok v s₂⟩) (hfit : w + len ≤ s.getReadSize)
    (hv : v = window s.flat (s.m_position + w) len) (hlen : v.length = len)
    (htook : Took s (w + len) s₂) : Robust allocates k s := by
  refine ⟨fun v' t hok => ?_, fun e t herr => ?_, fun n hn => ?_⟩
  · rw [hrun] at hok
    cases hok
    refine ⟨w, len, hheader, hv, hlen, ?_, SameMemory.of_took htook⟩
    rw [htook.position, Nat.add_assoc]
  · rw [hrun] at herr
    cases herr
  · rw [hrun] at hn
    rw [List.mem_singleton.mp hn]
    omega

/-- A call that fails behind the prefix has moved the position. -/
theorem not_robust_of_error {requests : List Nat} {e : StringFault}
    (hw : 0 < w) (htook : Took s w s₁) (hrun : k.read allocates s = ⟨requests, .error e s₁⟩) :
    ¬ Robust allocates k s := by
  intro h
  have hback := (h.throws e s₁ (by rw [hrun])).2.1
  have hpos := htook.position
  omega

end Prefix

/-- **Robust string decoding**, for memory that grants at least as much as there is
data. -/
theorem string_decoding_iff {s : Bytearray} (hs : WellFormed s) {allocates : Nat → Bool}
    (hmem : ∀ n, n ≤ s.getReadSize → allocates n = true) (k : StringKind) :
    Robust allocates k s ↔ Decodable k s := by
  rw [Decodable]
  cases hheader : k.header s.m_endian s.ahead with
  | none =>
    obtain ⟨n, s', hlength, htook, hzero⟩ := length_throws hs hheader
    have hrun : k.read allocates s = ⟨[], .error (.array .outOfRange) s'⟩ := by
      rw [StringKind.read, readString, hlength]
    have hpos := htook.position
    constructor
    · intro h
      have hback := (h.throws _ s' (by rw [hrun])).2.1
      exact hzero.mp (by omega)
    · intro h
      have hnone := hzero.mpr h
      refine ⟨fun v t hok => ?_, fun e t herr => ?_, fun n hn => ?_⟩
      · rw [hrun] at hok
        cases hok
      · rw [hrun] at herr
        cases herr
        exact ⟨rfl, by omega, SameMemory.of_took htook⟩
      · rw [hrun] at hn
        cases hn
  | some p =>
    obtain ⟨w, len⟩ := p
    obtain ⟨hw, hav, s₁, hlength, htook⟩ := length_spec hs hheader
    have hrest : s₁.getReadSize = s.getReadSize - w := by
      rw [← length_ahead htook.inv, htook.ahead, List.length_drop, length_ahead hs]
    dsimp only
    by_cases hfit : w + len ≤ s.getReadSize
    · have hgranted := read_granted hlength (hmem len (by omega))
      by_cases h0 : len = 0
      · subst h0
        have hnull := htook.inv.cur_null_iff
        rw [htook.position, htook.capacity] at hnull
        rw [read_zero] at hgranted
        by_cases hend : s₁.m_cur = []
        · -- the null node behind the last block
          rw [if_pos hend] at hgranted
          refine iff_of_false (not_robust_of_error hw htook hgranted) fun h => ?_
          have := h.2 rfl
          have := hnull.mp hend
          omega
        · rw [if_neg hend] at hgranted
          refine iff_of_true (robust_of_ok hheader hgranted hfit (window_zero ..).symm rfl
            htook) ⟨hfit, fun _ => ?_⟩
          have hlt : s.m_position + w ≠ s.m_capacity := fun h => hend (hnull.mpr h)
          have hle := htook.inv.position_le
          have hsize := htook.inv.size_le
          rw [htook.position] at hle
          rw [htook.capacity] at hsize
          omega
      · obtain ⟨s₂, hread, htook₂⟩ :=
          read_spec htook.inv (Nat.pos_of_ne_zero h0) (show len ≤ s₁.getReadSize by omega)
        rw [htook.flat, htook.position] at hread
        rw [hread] at hgranted
        refine iff_of_true (robust_of_ok hheader hgranted hfit rfl ?_
          (htook.trans htook₂)) ⟨hfit, fun h => absurd h h0⟩
        refine length_window ?_
        have hpos := hs.position_le
        have hsize := hs.size_le
        have hrs : s.getReadSize = s.m_size - s.m_position := rfl
        rw [hs.flat_length]
        omega
    · -- refused, but the position is behind the prefix
      refine iff_of_false ?_ fun h => hfit h.1
      by_cases hgrant : allocates len = true
      · have hgranted := read_granted hlength hgrant
        rw [read_throws (by omega)] at hgranted
        exact not_robust_of_error hw htook hgranted
      · have hrun : k.read allocates s = ⟨[len], .error (.resize len) s₁⟩ := by
          rw [StringKind.read, readString, hlength]
          exact if_neg hgrant
        exact not_robust_of_error hw htook hrun

/-- One block of sixteen bytes that holds `bytes`, read from the front. -/
def block (bytes : List UInt8) : Bytearray where
  m_baseSize := 16
  m_position := 0
  m_capacity := 16
  m_size := bytes.length
  m_endian := SYLAR_LITTLE_ENDIAN
  passed := []
  m_cur := [bytes ++ List.replicate (16 - bytes.length) 0]

theorem wellFormed_block {bytes : List UInt8} (h : bytes.length ≤ 16) :
    WellFormed (block bytes) where
  base_pos := Nat.succ_pos 15
  root_ne := List.cons_ne_nil _ _
  uniform := by
    refine uniform_cons.mpr ⟨?_, uniform_nil _⟩
    rw [List.length_append, List.length_replicate]
    show bytes.length + (16 - bytes.length) = 16
    omega
  capacity_eq := rfl
  position_le := Nat.zero_le _
  size_le := h
  cur_number := (Nat.zero_div 16).symm

/-- Three bytes behind a length of two. -/
theorem string_decoding_iff_two : Robust (fun _ => true) .F16 (block [2, 0, 97, 98, 99])
      ∧ (StringKind.read (fun _ => true) .F16 (block [2, 0, 97, 98, 99])).result
        = .ok [97, 98] { block [2, 0, 97, 98, 99] with m_position := 4 } := by
  have h : Robust (fun _ => true) .F16 (block [2, 0, 97, 98, 99])
      ↔ Decodable .F16 (block [2, 0, 97, 98, 99]) :=
    string_decoding_iff (wellFormed_block (by decide)) (fun _ _ => rfl) .F16
  exact ⟨h.mpr (by decide), rfl⟩

/-- **The prefix is believed**: eight bytes ask for `2^64 - 1` before the bound is checked, and when
the call fails, with whatever exception, the position stays behind them; also for two bytes refused
with `std::out_of_range`. -/
theorem prefix_is_believed :
    StringKind.read (fun n => decide (n < 2 ^ 63)) .F64 (block (List.replicate 8 255))
        = ⟨[2 ^ 64 - 1], .error (.resize (2 ^ 64 - 1))
            { block (List.replicate 8 255) with m_position := 8 }⟩
      ∧ StringKind.read (fun n => decide (n < 2 ^ 63)) .F16 (block [255, 255])
        = ⟨[65535], .error (.array .outOfRange) { block [255, 255] with m_position := 2 }⟩
      ∧ ¬ Robust (fun n => decide (n < 2 ^ 63)) .F16 (block [255, 255]) := by
  have hrun : StringKind.read (fun n => decide (n < 2 ^ 63)) .F16 (block [255, 255])
      = ⟨[65535], .error (.array .outOfRange) { block [255, 255] with m_position := 2 }⟩ := rfl
  refine ⟨rfl, hrun, fun h => ?_⟩
  have hback := (h.throws _ _ (by rw [hrun])).2.1
  cases hback

end SylarStringDecode
