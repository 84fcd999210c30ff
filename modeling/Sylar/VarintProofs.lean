import Sylar.BytearrayRefinementProofs

/-! # Variable-length integers (`bytearray.cc`)

`writeInt32` and `writeInt64` fold the sign into bit 0 (`EncodeZigzag32/64`) and write
seven bits a byte; `readUint32` and `readUint64` read them.  The model of the codec
computes modulo `2^w`.  The source does so only in part: `-v` and `v * 2` are
expressions of the SIGNED type of `v`, for which an overflow is undefined.

* **`encodeZigzag_isSome_iff`** — the values whose encoding overflows nowhere.
* **`zigzag_short_iff`** — which values take at most `k` bytes.
* **`readVarint_consumes`** — a reader takes at most its number of bytes, whatever they
  are.
* **`varint_code_iff`** — the code is as it is to be exactly for the values for which
  nothing overflows. -/

namespace SylarVarint

open ByteCode SylarBytearray SylarBytearrayCodec

/-! ## The code, with its signed expressions -/

/-- The value of a signed expression of `w` bits; `none` if it overflows. -/
def checked (w : Nat) (v : Int) : Option Int :=
  if -2 ^ (w - 1) ≤ v ∧ v < 2 ^ (w - 1) then some v else none

/-- The common body of `EncodeZigzag32` and `EncodeZigzag64`: `-v` and `v * 2` are signed,
the rest is unsigned. -/
def encodeZigzag (w : Nat) (v : Int) : Option (BitVec w) :=
  if v < 0 then (checked w (-v)).map fun m => BitVec.ofInt w m * 2#w - 1#w
  else (checked w (v * 2)).map (BitVec.ofInt w)

def encodeZigzag32 (v : Int32) : Option UInt32 :=
  (encodeZigzag 32 v.toInt).map UInt32.ofBitVec

def encodeZigzag64 (v : Int64) : Option UInt64 :=
  (encodeZigzag 64 v.toInt).map UInt64.ofBitVec

/-- The bytes that `writeInt32` stores. -/
def int32Bytes (v : Int32) : List UInt8 := varintBytes 5 (EncodeZigzag32 v).toNat

/-- The bytes that `writeInt64` stores. -/
def int64Bytes (v : Int64) : List UInt8 := varintBytes 10 (EncodeZigzag64 v).toNat

/-! ## Overflow -/

/-- **No overflow**: the value can be negated, or doubled. -/
theorem encodeZigzag_isSome_iff {w : Nat} (v : BitVec (w + 2)) :
    (encodeZigzag (w + 2) v.toInt).isSome ↔ -2 ^ (w + 1) < v.toInt ∧ v.toInt < 2 ^ w := by
  have hlo := BitVec.le_toInt v
  have hpow : (2 : Int) ^ (w + 1) = 2 * 2 ^ w := by rw [pow_succ, Int.mul_comm]
  have hpos : (0 : Int) < 2 ^ w := by positivity
  rw [Nat.add_sub_assoc (by decide)] at hlo
  rw [encodeZigzag, checked, checked, show w + 2 - 1 = w + 1 from rfl]
  by_cases hneg : v.toInt < 0
  · rw [if_pos hneg, Option.isSome_map]
    by_cases hin : -2 ^ (w + 1) ≤ -v.toInt ∧ -v.toInt < 2 ^ (w + 1)
    · rw [if_pos hin]
      refine iff_of_true rfl ⟨?_, ?_⟩ <;> omega
    · rw [if_neg hin]
      refine iff_of_false Bool.false_ne_true ?_
      omega
  · rw [if_neg hneg, Option.isSome_map]
    by_cases hin : -2 ^ (w + 1) ≤ v.toInt * 2 ∧ v.toInt * 2 < 2 ^ (w + 1)
    · rw [if_pos hin]
      refine iff_of_true rfl ⟨?_, ?_⟩ <;> omega
    · rw [if_neg hin]
      refine iff_of_false Bool.false_ne_true ?_
      omega

/-- Where nothing overflows, the value is the wrapping one. -/
theorem encodeZigzag_eq {w : Nat} {v r : BitVec (w + 2)}
    (h : encodeZigzag (w + 2) v.toInt = some r) : r = zigzag v := by
  rw [encodeZigzag] at h
  rw [zigzag, BitVec.msb_eq_toInt]
  by_cases hneg : v.toInt < 0
  · rw [if_pos hneg] at h
    obtain ⟨m, hm, rfl⟩ := Option.map_eq_some_iff.mp h
    rw [checked] at hm
    split at hm
    · cases hm
      rw [if_pos (decide_eq_true hneg), BitVec.ofInt_neg, BitVec.ofInt_toInt]
    · cases hm
  · rw [if_neg hneg] at h
    obtain ⟨m, hm, rfl⟩ := Option.map_eq_some_iff.mp h
    rw [checked] at hm
    split at hm
    · cases hm
      rw [if_neg (by simpa using hneg), BitVec.ofInt_mul, BitVec.ofInt_toInt]
      rfl
    · cases hm

/-- Exactly where nothing overflows the encoding has its value. -/
theorem encodeZigzag_iff {w : Nat} (v : BitVec (w + 2)) :
    encodeZigzag (w + 2) v.toInt = some (zigzag v) ↔ -2 ^ (w + 1) < v.toInt ∧ v.toInt < 2 ^ w := by
  rw [← encodeZigzag_isSome_iff, Option.isSome_iff_exists]
  constructor
  · exact fun h => ⟨_, h⟩
  · rintro ⟨r, hr⟩
    rw [hr, encodeZigzag_eq hr]

/-! ## Length -/

section Bytes

variable {w room : Nat} (hfit : w + 1 ≤ 7 * room)

include hfit

private theorem leb_zigzag (v : BitVec (w + 1)) :
    leb room (zigzag v).toNat = some (varintBytes room (zigzag v).toNat) :=
  (varint_fits (zigzag v) hfit (by omega)).1

/-- **Which values take at most `k` bytes.** -/
theorem zigzag_short_iff (v : BitVec (w + 1)) {k : Nat} (hk : 1 ≤ k) :
    (varintBytes room (zigzag v).toNat).length ≤ k
      ↔ -2 ^ (7 * k - 1) ≤ v.toInt ∧ v.toInt < 2 ^ (7 * k - 1) := by
  have hpow : (128 : Nat) ^ k = 2 ^ (7 * k - 1 + 1) := by
    rw [show (128 : Nat) = 2 ^ 7 from rfl, ← Nat.pow_mul]
    congr 1
    omega
  rw [length_leb (leb_zigzag hfit v), lebLength_le_iff hk, hpow, toNat_zigzag_lt_iff]

/-- No encoding is the front part of another one. -/
theorem zigzag_prefix_free {v u : BitVec (w + 1)}
    (h : varintBytes room (zigzag v).toNat <+: varintBytes room (zigzag u).toNat) : u = v := by
  have hsame := leb_prefix_free (leb_zigzag hfit v) (leb_zigzag hfit u) h
  rw [← unzigzag_zigzag u, ← unzigzag_zigzag v, BitVec.eq_of_toNat_eq hsame]

end Bytes

/-- **What a reader consumes** of any bytes: at most `room` of them, whether it returns or
throws. -/
theorem readVarint_consumes {w room : Nat} {s : Bytearray} (hs : WellFormed s) :
    ∃ n s', n ≤ room ∧ Took s n s' ∧ ((∃ r, readVarint w (List.range' 0 room 7) 0 s = .ok r s')
        ∨ readVarint w (List.range' 0 room 7) 0 s = .error .outOfRange s') := by
  obtain ⟨s', htook, hread⟩ := readVarint_ahead room 0 (0 : BitVec w) hs
  cases hfront : lebFront room s.ahead with
  | none =>
    rw [hfront] at htook hread
    exact ⟨_, s', Nat.le_of_lt (lebFront_none hfront), htook, Or.inr hread⟩
  | some front =>
    rw [hfront] at htook hread
    exact ⟨_, s', (lebFront_spec hfront).1, htook, Or.inl ⟨_, hread⟩⟩

/-! ## The code of a value -/

/-- What the code of `v` is to be: it overflows nowhere, its bytes are written, they are few for
small values and no front part of another value's, and a reader takes at most `room` bytes of
anything. -/
structure Code {V U : Type} (toInt : V → Int) (eval : V → Option U) (encode : V → U)
    (bytes : V → List UInt8) (write : V → BA Unit) (read : BA U) (room : Nat) (v : V) :
    Prop where
  no_overflow : eval v = some (encode v)
  written : ∀ s, WellFormed s → ∃ s', write v s = .ok () s' ∧ Wrote s (bytes v) s'
  short : ∀ k, 1 ≤ k → ((bytes v).length ≤ k
    ↔ -2 ^ (7 * k - 1) ≤ toInt v ∧ toInt v < 2 ^ (7 * k - 1))
  prefix_free : ∀ u, bytes v <+: bytes u → u = v
  bounded : ∀ s, WellFormed s → ∃ n s', n ≤ room ∧ Took s n s'
    ∧ ((∃ r, read s = .ok r s') ∨ read s = .error .outOfRange s')

def Code32 : Int32 → Prop :=
  Code Int32.toInt encodeZigzag32 EncodeZigzag32 int32Bytes writeInt32 readUint32 5

def Code64 : Int64 → Prop :=
  Code Int64.toInt encodeZigzag64 EncodeZigzag64 int64Bytes writeInt64 readUint64 10

/-- A reader that converts what `readVarint` returns. -/
theorem converted_consumes {w room : Nat} {U : Type} (f : BitVec w → U)
    {s : Bytearray} (hs : WellFormed s) :
    ∃ n s', n ≤ room ∧ Took s n s'
      ∧ ((∃ r, (do return f (← readVarint w (List.range' 0 room 7) 0) : BA U) s = .ok r s')
        ∨ (do return f (← readVarint w (List.range' 0 room 7) 0) : BA U) s
          = .error .outOfRange s') := by
  obtain ⟨n, s', hn, htook, ⟨r, hread⟩ | hread⟩ := readVarint_consumes hs
  · exact ⟨n, s', hn, htook, Or.inl ⟨f r, bind_ok hread⟩⟩
  · exact ⟨n, s', hn, htook, Or.inr (bind_error hread)⟩

theorem encodeZigzag32_iff (v : Int32) :
    encodeZigzag32 v = some (EncodeZigzag32 v) ↔ -2 ^ 31 < v.toInt ∧ v.toInt < 2 ^ 30 := by
  have h := encodeZigzag_iff (w := 30) v.toBitVec
  refine Iff.trans ⟨fun heq => ?_, fun heq => ?_⟩ h
  · obtain ⟨r, hr, hval⟩ := Option.map_eq_some_iff.mp heq
    rw [← UInt32.ofBitVec.inj hval]
    exact hr
  · exact congrArg (Option.map UInt32.ofBitVec) heq

theorem encodeZigzag64_iff (v : Int64) :
    encodeZigzag64 v = some (EncodeZigzag64 v) ↔ -2 ^ 63 < v.toInt ∧ v.toInt < 2 ^ 62 := by
  have h := encodeZigzag_iff (w := 62) v.toBitVec
  refine Iff.trans ⟨fun heq => ?_, fun heq => ?_⟩ h
  · obtain ⟨r, hr, hval⟩ := Option.map_eq_some_iff.mp heq
    rw [← UInt64.ofBitVec.inj hval]
    exact hr
  · exact congrArg (Option.map UInt64.ofBitVec) heq

/-- **The variable-length code** is right exactly where nothing overflows; everything else holds for
every value. -/
theorem varint_code_iff (v : Int32) (u : Int64) : (Code32 v ↔ -2 ^ 31 < v.toInt ∧ v.toInt < 2 ^ 30)
      ∧ (Code64 u ↔ -2 ^ 63 < u.toInt ∧ u.toInt < 2 ^ 62) := by
  constructor
  · rw [← encodeZigzag32_iff]
    refine ⟨fun h => h.no_overflow, fun h => ⟨h, ?_, ?_, ?_, ?_⟩⟩
    · exact fun s hs => writeUint32_spec hs _
    · exact fun k => zigzag_short_iff (w := 31) (by decide) v.toBitVec
    · exact fun x hx => Int32.toBitVec_inj.mp (zigzag_prefix_free (w := 31) (by decide) hx)
    · exact fun s hs => converted_consumes UInt32.ofBitVec hs
  · rw [← encodeZigzag64_iff]
    refine ⟨fun h => h.no_overflow, fun h => ⟨h, ?_, ?_, ?_, ?_⟩⟩
    · exact fun s hs => writeUint64_spec hs _
    · exact fun k => zigzag_short_iff (w := 63) (by decide) u.toBitVec
    · exact fun x hx => Int64.toBitVec_inj.mp (zigzag_prefix_free (w := 63) (by decide) hx)
    · exact fun s hs => converted_consumes UInt64.ofBitVec hs

/-- **Signed overflow**: doubling `2^30` and negating the least value, also in 64 bits.  The
wrapping results would be right. -/
theorem doubling_overflows : encodeZigzag32 1073741824 = none ∧ encodeZigzag32 Int32.minValue = none
      ∧ encodeZigzag64 4611686018427387904 = none ∧ encodeZigzag64 Int64.minValue = none
      ∧ EncodeZigzag32 1073741824 = 2147483648 ∧ EncodeZigzag32 Int32.minValue = 4294967295
      ∧ ¬ Code32 1073741824 ∧ ¬ Code64 4611686018427387904 := by
  have h32 : encodeZigzag32 1073741824 = none := by decide
  have h64 : encodeZigzag64 4611686018427387904 = none := by decide
  refine ⟨h32, by decide, h64, by decide, by decide, by decide, fun h => ?_, fun h => ?_⟩
  · have := h.no_overflow
    rw [h32] at this
    cases this
  · have := h.no_overflow
    rw [h64] at this
    cases this

end SylarVarint
