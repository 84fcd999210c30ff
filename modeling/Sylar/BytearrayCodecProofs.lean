import Sylar.BytearrayProofs
import Sylar.ByteCodeProofs

/-! # Typed reads and writes on the byte array (`bytearray.cc`, `endian.h`)

Every `writeXxx` encodes its argument and calls `write`; every `readXxx`
calls `read` and decodes.  The file has the two families as the source has
them, the bytes each write produces (`encode`), and one spec lemma for the
write and the read of a value: a write appends exactly `encode`, and a read in
front of these bytes returns the value and consumes exactly them — with
one exception, an EMPTY STRING whose length prefix ends where the chain
ends, where the source dereferences the null node. -/

namespace SylarBytearrayCodec

open ListWindow ByteCode SylarBytearray List

/-! ## The source's functions -/

def SYLAR_LITTLE_ENDIAN : Int8 := 1
def SYLAR_BIG_ENDIAN : Int8 := 2

/-- `endian.h` on a little-endian host. -/
def SYLAR_BYTE_ORDER : Int8 := SYLAR_LITTLE_ENDIAN

/-- `if(m_endian != SYLAR_BYTE_ORDER) value = byteswap(value);` -/
def swapTo (m_endian : Int8) (k : Nat) (value : BitVec (8 * k)) :
    BitVec (8 * k) :=
  if m_endian ≠ SYLAR_BYTE_ORDER then byteswap k value else value

/-- The common body of `writeFint16 .. writeFuint64`: `k` bytes in the byte
order of the array. -/
def writeFixed (k : Nat) (value : BitVec (8 * k)) : BA Unit := fun s =>
  write (toMem k (swapTo s.m_endian k value)) s

def writeFint8 (value : Int8) : BA Unit := write (toMem 1 value.toBitVec)
def writeFuint8 (value : UInt8) : BA Unit := write (toMem 1 value.toBitVec)
def writeFint16 (value : Int16) : BA Unit := writeFixed 2 value.toBitVec
def writeFuint16 (value : UInt16) : BA Unit := writeFixed 2 value.toBitVec
def writeFint32 (value : Int32) : BA Unit := writeFixed 4 value.toBitVec
def writeFuint32 (value : UInt32) : BA Unit := writeFixed 4 value.toBitVec
def writeFint64 (value : Int64) : BA Unit := writeFixed 8 value.toBitVec
def writeFuint64 (value : UInt64) : BA Unit := writeFixed 8 value.toBitVec

def EncodeZigzag32 (v : Int32) : UInt32 := .ofBitVec (zigzag v.toBitVec)
def EncodeZigzag64 (v : Int64) : UInt64 := .ofBitVec (zigzag v.toBitVec)
def DecodeZigzag32 (v : UInt32) : Int32 := .ofBitVec (unzigzag v.toBitVec)
def DecodeZigzag64 (v : UInt64) : Int64 := .ofBitVec (unzigzag v.toBitVec)

/-- The loop that fills `tmp` in `writeUint32` and `writeUint64`; `room` bytes of `tmp` are left,
and a store past its end is `tmpIndex`. -/
def varintLoop {w : Nat} : Nat → BitVec w → Except Fault (List UInt8)
  | 0, _ => .error .tmpIndex
  | room + 1, value =>
    if 0x80#w ≤ value then do
      let tmp ← varintLoop room (value >>> 7)
      pure (.ofBitVec (((value &&& 0x7F#w) ||| 0x80#w).setWidth 8) :: tmp)
    else pure [.ofBitVec (value.setWidth 8)]

/-- The common body of `writeUint32` (`tmp[5]`) and `writeUint64`
(`tmp[10]`). -/
def writeVarint {w : Nat} (room : Nat) (value : BitVec w) : BA Unit := fun s =>
  match varintLoop room value with
  | .error e => .error e s
  | .ok tmp => write tmp s

def writeUint32 (value : UInt32) : BA Unit := writeVarint 5 value.toBitVec
def writeUint64 (value : UInt64) : BA Unit := writeVarint 10 value.toBitVec
def writeInt32 (value : Int32) : BA Unit := writeUint32 (EncodeZigzag32 value)
def writeInt64 (value : Int64) : BA Unit := writeUint64 (EncodeZigzag64 value)

/-- `writeFloat` and `writeDouble`, on the bit pattern `memcpy` takes. -/
def writeFloat (bits : UInt32) : BA Unit := writeFuint32 bits
def writeDouble (bits : UInt64) : BA Unit := writeFuint64 bits

def writeStringF16 (value : List UInt8) : BA Unit := do
  writeFuint16 (.ofNat value.length)
  write value

def writeStringF32 (value : List UInt8) : BA Unit := do
  writeFuint32 (.ofNat value.length)
  write value

def writeStringF64 (value : List UInt8) : BA Unit := do
  writeFuint64 (.ofNat value.length)
  write value

def writeStringVint (value : List UInt8) : BA Unit := do
  writeUint64 (.ofNat value.length)
  write value

def writeStringWithoutLength (value : List UInt8) : BA Unit := write value

/-- The macro `XX(type)`: `k` bytes, swapped back unless the array has the
host's byte order. -/
def readFixed (k : Nat) : BA (BitVec (8 * k)) := do
  let v ← read k
  let s ← get
  if s.m_endian = SYLAR_BYTE_ORDER then pure (ofMem k v)
  else pure (byteswap k (ofMem k v))

def readFint8 : BA Int8 := do return .ofBitVec (ofMem 1 (← read 1))
def readFuint8 : BA UInt8 := do return .ofBitVec (ofMem 1 (← read 1))
def readFint16 : BA Int16 := do return .ofBitVec (← readFixed 2)
def readFuint16 : BA UInt16 := do return .ofBitVec (← readFixed 2)
def readFint32 : BA Int32 := do return .ofBitVec (← readFixed 4)
def readFuint32 : BA UInt32 := do return .ofBitVec (← readFixed 4)
def readFint64 : BA Int64 := do return .ofBitVec (← readFixed 8)
def readFuint64 : BA UInt64 := do return .ofBitVec (← readFixed 8)

/-- The loop of `readUint32` and `readUint64` over the shifts
`0, 7, 14, ..`. -/
def readVarint (w : Nat) : List Nat → BitVec w → BA (BitVec w)
  | [], result => pure result
  | i :: is, result => do
    let b ← readFuint8
    if b < 0x80 then
      pure (result ||| (BitVec.ofNat w b.toNat <<< i))
    else
      readVarint w is (result ||| (BitVec.ofNat w (b &&& 0x7f).toNat <<< i))

/-- `for(int i = 0; i < 32; i += 7)`. -/
def readUint32 : BA UInt32 := do
  return .ofBitVec (← readVarint 32 (List.range' 0 5 7) 0)

/-- `for(int i = 0; i < 64; i += 7)`. -/
def readUint64 : BA UInt64 := do
  return .ofBitVec (← readVarint 64 (List.range' 0 10 7) 0)

def readInt32 : BA Int32 := do return DecodeZigzag32 (← readUint32)
def readInt64 : BA Int64 := do return DecodeZigzag64 (← readUint64)
def readFloat : BA UInt32 := readFuint32
def readDouble : BA UInt64 := readFuint64

def readStringF16 : BA (List UInt8) := do read (← readFuint16).toNat
def readStringF32 : BA (List UInt8) := do read (← readFuint32).toNat
def readStringF64 : BA (List UInt8) := do read (← readFuint64).toNat
def readStringVint : BA (List UInt8) := do read (← readUint64).toNat

/-! ## Values of all kinds -/

/-- A value with the call that writes it. -/
inductive Value where
  | fint8 (v : Int8)
  | fuint8 (v : UInt8)
  | fint16 (v : Int16)
  | fuint16 (v : UInt16)
  | fint32 (v : Int32)
  | fuint32 (v : UInt32)
  | fint64 (v : Int64)
  | fuint64 (v : UInt64)
  | int32 (v : Int32)
  | uint32 (v : UInt32)
  | int64 (v : Int64)
  | uint64 (v : UInt64)
  | float (bits : UInt32)
  | double (bits : UInt64)
  | stringF16 (v : List UInt8)
  | stringF32 (v : List UInt8)
  | stringF64 (v : List UInt8)
  | stringVint (v : List UInt8)
  deriving DecidableEq, Repr

/-- The kinds of values, each with the call that reads it. -/
inductive Kind where
  | fint8 | fuint8 | fint16 | fuint16 | fint32 | fuint32 | fint64 | fuint64
  | int32 | uint32 | int64 | uint64 | float | double
  | stringF16 | stringF32 | stringF64 | stringVint
  deriving DecidableEq, Repr

namespace Value

def kind : Value → Kind
  | .fint8 _ => .fint8
  | .fuint8 _ => .fuint8
  | .fint16 _ => .fint16
  | .fuint16 _ => .fuint16
  | .fint32 _ => .fint32
  | .fuint32 _ => .fuint32
  | .fint64 _ => .fint64
  | .fuint64 _ => .fuint64
  | .int32 _ => .int32
  | .uint32 _ => .uint32
  | .int64 _ => .int64
  | .uint64 _ => .uint64
  | .float _ => .float
  | .double _ => .double
  | .stringF16 _ => .stringF16
  | .stringF32 _ => .stringF32
  | .stringF64 _ => .stringF64
  | .stringVint _ => .stringVint

/-- The `writeXxx` of the value. -/
def write : Value → BA Unit
  | .fint8 v => writeFint8 v
  | .fuint8 v => writeFuint8 v
  | .fint16 v => writeFint16 v
  | .fuint16 v => writeFuint16 v
  | .fint32 v => writeFint32 v
  | .fuint32 v => writeFuint32 v
  | .fint64 v => writeFint64 v
  | .fuint64 v => writeFuint64 v
  | .int32 v => writeInt32 v
  | .uint32 v => writeUint32 v
  | .int64 v => writeInt64 v
  | .uint64 v => writeUint64 v
  | .float v => writeFloat v
  | .double v => writeDouble v
  | .stringF16 v => writeStringF16 v
  | .stringF32 v => writeStringF32 v
  | .stringF64 v => writeStringF64 v
  | .stringVint v => writeStringVint v

/-- The string of a string value. -/
def text? : Value → Option (List UInt8)
  | .stringF16 v => some v
  | .stringF32 v => some v
  | .stringF64 v => some v
  | .stringVint v => some v
  | _ => none

/-- The length of a string fits its length prefix. -/
def Fits : Value → Prop
  | .stringF16 v => v.length < 2 ^ 16
  | .stringF32 v => v.length < 2 ^ 32
  | .stringF64 v => v.length < 2 ^ 64
  | .stringVint v => v.length < 2 ^ 64
  | _ => True

instance (v : Value) : Decidable v.Fits := by
  cases v <;> unfold Fits <;> infer_instance

end Value

/-- The `readXxx` of the kind. -/
def Kind.read : Kind → BA Value
  | .fint8 => do return .fint8 (← readFint8)
  | .fuint8 => do return .fuint8 (← readFuint8)
  | .fint16 => do return .fint16 (← readFint16)
  | .fuint16 => do return .fuint16 (← readFuint16)
  | .fint32 => do return .fint32 (← readFint32)
  | .fuint32 => do return .fuint32 (← readFuint32)
  | .fint64 => do return .fint64 (← readFint64)
  | .fuint64 => do return .fuint64 (← readFuint64)
  | .int32 => do return .int32 (← readInt32)
  | .uint32 => do return .uint32 (← readUint32)
  | .int64 => do return .int64 (← readInt64)
  | .uint64 => do return .uint64 (← readUint64)
  | .float => do return .float (← readFloat)
  | .double => do return .double (← readDouble)
  | .stringF16 => do return .stringF16 (← readStringF16)
  | .stringF32 => do return .stringF32 (← readStringF32)
  | .stringF64 => do return .stringF64 (← readStringF64)
  | .stringVint => do return .stringVint (← readStringVint)

/-- A sequence of writes. -/
def writeAll : List Value → BA Unit
  | [] => pure ()
  | v :: vs => do v.write; writeAll vs

/-- A sequence of reads. -/
def readAll : List Kind → BA (List Value)
  | [] => pure []
  | k :: ks => do
    let v ← k.read
    let vs ← readAll ks
    pure (v :: vs)

/-! ## The bytes a write produces -/

/-- A fixed-width value in the byte order of the array. -/
def fixedBytes (m_endian : Int8) (k : Nat) (v : BitVec (8 * k)) : List UInt8 :=
  toMem k (swapTo m_endian k v)

/-- A variable-length value. -/
def varintBytes (room n : Nat) : List UInt8 := (leb room n).getD []

/-- The bytes `v.write` stores. -/
def Value.encode (m_endian : Int8) : Value → List UInt8
  | .fint8 v => toMem 1 v.toBitVec
  | .fuint8 v => toMem 1 v.toBitVec
  | .fint16 v => fixedBytes m_endian 2 v.toBitVec
  | .fuint16 v => fixedBytes m_endian 2 v.toBitVec
  | .fint32 v => fixedBytes m_endian 4 v.toBitVec
  | .fuint32 v => fixedBytes m_endian 4 v.toBitVec
  | .fint64 v => fixedBytes m_endian 8 v.toBitVec
  | .fuint64 v => fixedBytes m_endian 8 v.toBitVec
  | .int32 v => varintBytes 5 (EncodeZigzag32 v).toNat
  | .uint32 v => varintBytes 5 v.toNat
  | .int64 v => varintBytes 10 (EncodeZigzag64 v).toNat
  | .uint64 v => varintBytes 10 v.toNat
  | .float v => fixedBytes m_endian 4 v.toBitVec
  | .double v => fixedBytes m_endian 8 v.toBitVec
  | .stringF16 v => fixedBytes m_endian 2 (UInt16.ofNat v.length).toBitVec ++ v
  | .stringF32 v => fixedBytes m_endian 4 (UInt32.ofNat v.length).toBitVec ++ v
  | .stringF64 v => fixedBytes m_endian 8 (UInt64.ofNat v.length).toBitVec ++ v
  | .stringVint v => varintBytes 10 (UInt64.ofNat v.length).toNat ++ v

/-- The bytes of a sequence of writes. -/
def encodeAll (m_endian : Int8) (vs : List Value) : List UInt8 :=
  vs.flatMap (Value.encode m_endian)

@[simp] theorem length_fixedBytes (e : Int8) (k : Nat) (v : BitVec (8 * k)) :
    (fixedBytes e k v).length = k := length_toMem ..

variable {s : Bytearray} {w room : Nat} {b : List UInt8} {v : Value}

private theorem writeFixed_spec (hs : WellFormed s) (k : Nat) (v : BitVec (8 * k)) :
    ∃ s', writeFixed k v s = .ok () s' ∧ Wrote s (fixedBytes s.m_endian k v) s' :=
  write_spec hs (fixedBytes s.m_endian k v)

/-- The encoder's loop, on numbers: the source's bit operations compute
`leb`. -/
theorem varintLoop_eq (hw : 8 ≤ w) (room : Nat) (v : BitVec w) : varintLoop room v
      = match leb room v.toNat with
        | none => .error .tmpIndex
        | some bs => .ok bs := by
  induction room generalizing v with
  | zero => rfl
  | succ room ih =>
    have hpow : 2 ^ 8 ≤ 2 ^ w := Nat.pow_le_pow_right (by decide) hw
    have h80 : (0x80#w).toNat = 128 := by
      rw [BitVec.toNat_ofNat, Nat.mod_eq_of_lt (by omega)]
    have h7f : (0x7F#w).toNat = 127 := by
      rw [BitVec.toNat_ofNat, Nat.mod_eq_of_lt (by omega)]
    have hlow : (v &&& 0x7F#w).toNat = v.toNat % 128 := by
      rw [BitVec.toNat_and, h7f]
      exact Nat.and_two_pow_sub_one_eq_mod v.toNat 7
    have hshift : (v >>> 7).toNat = v.toNat / 128 := by
      rw [BitVec.toNat_ushiftRight, Nat.shiftRight_eq_div_pow]
    rw [varintLoop, leb]
    by_cases hsmall : v.toNat < 128
    · rw [if_pos hsmall, if_neg (by rw [BitVec.le_def, h80]; omega)]
      show Except.ok _ = Except.ok _
      congr 2
      apply UInt8.toNat_inj.mp
      rw [UInt8.toNat_ofBitVec, BitVec.toNat_setWidth, UInt8.toNat_ofNat']
    · rw [if_neg hsmall, if_pos (by rw [BitVec.le_def, h80]; omega), ih, hshift]
      have hbyte : UInt8.ofBitVec (((v &&& 0x7F#w) ||| 0x80#w).setWidth 8)
          = UInt8.ofNat (v.toNat % 128 + 128) := by
        have hor : v.toNat % 128 ||| 128 = v.toNat % 128 + 128 := by
          have := Nat.two_pow_add_eq_or_of_lt (show v.toNat % 128 < 2 ^ 7 by omega) 1
          rw [Nat.or_comm, Nat.add_comm]
          exact this.symm
        apply UInt8.toNat_inj.mp
        rw [UInt8.toNat_ofBitVec, BitVec.toNat_setWidth, BitVec.toNat_or,
          hlow, h80, hor, UInt8.toNat_ofNat']
      rw [hbyte]
      cases leb room (v.toNat / 128) <;> rfl

/-- A `w`-bit value fits `room` bytes of seven bits each. -/
theorem varint_fits (v : BitVec w) (h : w ≤ 7 * room) (hr : 0 < room) :
    leb room v.toNat = some (varintBytes room v.toNat) ∧ 1 ≤ (varintBytes room v.toNat).length
      ∧ (varintBytes room v.toNat).length ≤ room := by
  have hlt : v.toNat < 128 ^ room := by
    have hpow : (128 : Nat) ^ room = 2 ^ (7 * room) := by
      rw [show (128 : Nat) = 2 ^ 7 from rfl, ← Nat.pow_mul]
    rw [hpow]
    exact Nat.lt_of_lt_of_le v.isLt (Nat.pow_le_pow_right (by decide) h)
  obtain ⟨bs, hbs, h1, h2⟩ := leb_fits hlt hr
  have hval : varintBytes room v.toNat = bs := by rw [varintBytes, hbs]; rfl
  rw [hval]
  exact ⟨hbs, h1, h2⟩

/-- `tmp` is never indexed out of range: the varint writers write. -/
theorem writeVarint_spec (hs : WellFormed s) (v : BitVec w) (hw : 8 ≤ w) (h : w ≤ 7 * room)
    (hr : 0 < room) :
    ∃ s', writeVarint room v s = .ok () s' ∧ Wrote s (varintBytes room v.toNat) s' := by
  have hleb := (varint_fits v h hr).1
  have hloop : varintLoop room v = .ok (varintBytes room v.toNat) := by
    rw [varintLoop_eq hw, hleb]
  obtain ⟨s', hw', hwrote⟩ := write_spec hs (varintBytes room v.toNat)
  refine ⟨s', ?_, hwrote⟩
  rw [writeVarint, hloop]
  exact hw'

theorem writeUint32_spec (hs : WellFormed s) (v : UInt32) :
    ∃ s', writeUint32 v s = .ok () s' ∧ Wrote s (varintBytes 5 v.toNat) s' :=
  writeVarint_spec hs v.toBitVec (by decide) (by decide) (by decide)

theorem writeUint64_spec (hs : WellFormed s) (v : UInt64) :
    ∃ s', writeUint64 v s = .ok () s' ∧ Wrote s (varintBytes 10 v.toNat) s' :=
  writeVarint_spec hs v.toBitVec (by decide) (by decide) (by decide)

/-- A length prefix followed by the text. -/
theorem writeString_spec {x : BA Unit} (v : List UInt8)
    (hx : ∃ s', x s = .ok () s' ∧ Wrote s b s') :
    ∃ s', (do x; SylarBytearray.write v) s = .ok () s' ∧ Wrote s (b ++ v) s' := by
  obtain ⟨s₁, h₁, hw₁⟩ := hx
  obtain ⟨s₂, h₂, hw₂⟩ := write_spec hw₁.inv v
  refine ⟨s₂, ?_, hw₁.trans hw₂⟩
  rw [bind_ok h₁]
  exact h₂

/-- A write appends exactly the encoding of its value. -/
theorem Value.write_spec (hs : WellFormed s) (v : Value) :
    ∃ s', v.write s = .ok () s' ∧ Wrote s (v.encode s.m_endian) s' := by
  cases v with
  | fint8 v => exact SylarBytearray.write_spec hs (toMem 1 v.toBitVec)
  | fuint8 v => exact SylarBytearray.write_spec hs (toMem 1 v.toBitVec)
  | fint16 v => exact writeFixed_spec hs 2 v.toBitVec
  | fuint16 v => exact writeFixed_spec hs 2 v.toBitVec
  | fint32 v => exact writeFixed_spec hs 4 v.toBitVec
  | fuint32 v => exact writeFixed_spec hs 4 v.toBitVec
  | fint64 v => exact writeFixed_spec hs 8 v.toBitVec
  | fuint64 v => exact writeFixed_spec hs 8 v.toBitVec
  | int32 v => exact writeUint32_spec hs _
  | uint32 v => exact writeUint32_spec hs _
  | int64 v => exact writeUint64_spec hs _
  | uint64 v => exact writeUint64_spec hs _
  | float v => exact writeFixed_spec hs 4 v.toBitVec
  | double v => exact writeFixed_spec hs 8 v.toBitVec
  | stringF16 v => exact writeString_spec v (writeFixed_spec hs 2 _)
  | stringF32 v => exact writeString_spec v (writeFixed_spec hs 4 _)
  | stringF64 v => exact writeString_spec v (writeFixed_spec hs 8 _)
  | stringVint v => exact writeString_spec v (writeUint64_spec hs _)

/-- A sequence of writes appends the encodings in order. -/
theorem writeAll_spec (vs : List Value) (hs : WellFormed s) :
    ∃ s', writeAll vs s = .ok () s' ∧ Wrote s (encodeAll s.m_endian vs) s' := by
  induction vs generalizing s with
  | nil =>
    obtain ⟨s', hw, hwrote⟩ := SylarBytearray.write_spec hs []
    have hsame : s' = s := by
      have h0 : SylarBytearray.write [] s = .ok () s := rfl
      rw [h0] at hw
      cases hw
      rfl
    subst hsame
    exact ⟨s', rfl, hwrote⟩
  | cons v vs ih =>
    obtain ⟨s₁, h₁, hw₁⟩ := v.write_spec hs
    obtain ⟨s₂, h₂, hw₂⟩ := ih hw₁.inv
    rw [hw₁.endian] at hw₂
    refine ⟨s₂, ?_, hw₁.trans hw₂⟩
    rw [writeAll, bind_ok h₁]
    exact h₂

/-! ## The value a read returns -/

variable {s' s₁ : Bytearray} {m : Nat}

variable {α β : Type} {a : α} {vs : List Value}

/-- Decoding the result of a call that returns. -/
theorem return_ok {x : BA α} (f : α → β) (h : x s = .ok a s') :
    (do return f (← x) : BA β) s = .ok (f a) s' :=
  bind_ok h

private theorem return_error {x : BA α} (f : α → β) {e : Fault} (h : x s = .error e s') :
    (do return f (← x) : BA β) s = .error e s' :=
  bind_error h

/-- Byte swapping cancels for every width and both byte orders. -/
theorem readFixed_spec (hs : WellFormed s) {k : Nat} (hk : 0 < k) {v : BitVec (8 * k)}
    (hh : Holds s (fixedBytes s.m_endian k v)) : ∃ s', readFixed k s = .ok v s' ∧ Took s k s' := by
  have hne : fixedBytes s.m_endian k v ≠ [] := by
    rw [← length_pos_iff, length_fixedBytes]
    exact hk
  obtain ⟨s', hread, htook⟩ := read_holds hs hne hh
  rw [length_fixedBytes] at hread htook
  refine ⟨s', ?_, htook⟩
  rw [readFixed, bind_ok hread, bind_ok (show (get : BA Bytearray) s' = .ok s' s' from rfl),
    htook.endian, fixedBytes, swapTo]
  by_cases he : s.m_endian = SYLAR_BYTE_ORDER
  · rw [if_pos he, if_neg (not_not_intro he), ofMem_toMem]
    rfl
  · rw [if_neg he, if_pos he, ofMem_toMem, byteswap_byteswap]
    rfl

/-- One byte, never swapped. -/
theorem read_byte (hs : WellFormed s) {v : BitVec (8 * 1)} (hh : Holds s (toMem 1 v)) :
    ∃ s', read 1 s = .ok (toMem 1 v) s' ∧ Took s 1 s' :=
  read_holds hs (cons_ne_nil _ _) hh

private theorem toMem_one (b : UInt8) : toMem 1 b.toBitVec = [b] := by
  have hb : b.toBitVec.toNat % 256 = b.toNat := Nat.mod_eq_of_lt b.toNat_lt
  rw [toMem, leBytes, leBytes, hb, UInt8.ofNat_toNat]

theorem readFuint8_spec (hs : WellFormed s) {b : UInt8} (hh : Holds s [b]) :
    ∃ s', readFuint8 s = .ok b s' ∧ Took s 1 s' := by
  rw [← toMem_one] at hh
  obtain ⟨s', hread, htook⟩ := read_byte hs hh
  refine ⟨s', ?_, htook⟩
  rw [readFuint8, bind_ok hread, ofMem_toMem]
  rfl

/-- The accumulator of the varint reader: the payload of one byte is added
above the bits already there. -/
theorem toNat_or_payload {i : Nat} {acc : BitVec w} (hacc : acc.toNat < 2 ^ i)
    (hm : m * 2 ^ i < 2 ^ w) :
    (acc ||| (BitVec.ofNat w m <<< i)).toNat = acc.toNat + m * 2 ^ i := by
  have hmw : m < 2 ^ w := Nat.lt_of_le_of_lt (Nat.le_mul_of_pos_right m (Nat.two_pow_pos i)) hm
  rw [BitVec.toNat_or, BitVec.toNat_shiftLeft, BitVec.toNat_ofNat,
    Nat.mod_eq_of_lt hmw, Nat.shiftLeft_eq, Nat.mod_eq_of_lt hm, Nat.or_comm,
    Nat.mul_comm m, ← Nat.two_pow_add_eq_or_of_lt hacc, Nat.add_comm]

private theorem toNat_and_7f (b : UInt8) : (b &&& 0x7f).toNat = b.toNat % 128 := by
  rw [UInt8.toNat_and]
  exact Nat.and_two_pow_sub_one_eq_mod b.toNat 7

/-- The payload of a byte and of those behind it, as one number. -/
theorem or_payload {r : Nat} (i : Nat) (acc : BitVec w) (hm : m < 128) :
    acc ||| (BitVec.ofNat w m <<< i) ||| (BitVec.ofNat w r <<< (i + 7))
      = acc ||| (BitVec.ofNat w (m + 128 * r) <<< i) := by
  have hhigh : BitVec.ofNat w r <<< 7 = BitVec.ofNat w (2 ^ 7 * r) := by
    apply BitVec.eq_of_toNat_eq
    rw [BitVec.toNat_shiftLeft, BitVec.toNat_ofNat, BitVec.toNat_ofNat, Nat.shiftLeft_eq,
      Nat.mod_mul_mod, Nat.mul_comm]
  have hsum : m + 128 * r = m ||| 2 ^ 7 * r := by
    rw [Nat.or_comm, ← Nat.two_pow_add_eq_or_of_lt hm, Nat.add_comm]
  rw [hsum, BitVec.ofNat_or, ← hhigh, BitVec.shiftLeft_or_distrib, ← BitVec.or_assoc,
    Nat.add_comm, BitVec.shiftLeft_add]

/-- One round of the reader, in front of a byte. -/
theorem readVarint_step (room i : Nat) (acc : BitVec w) (hs : WellFormed s) {b : UInt8}
    {bs : List UInt8} (hahead : s.ahead = b :: bs) :
    ∃ s₁, Took s 1 s₁ ∧ s₁.ahead = bs ∧ readVarint w (range' i (room + 1) 7) acc s
        = if b < 0x80 then .ok (acc ||| (BitVec.ofNat w b.toNat <<< i)) s₁
          else readVarint w (range' (i + 7) room 7)
            (acc ||| (BitVec.ofNat w (b &&& 0x7f).toNat <<< i)) s₁ := by
  obtain ⟨s₁, hread, htook⟩ := readFuint8_spec hs (holds_of_ahead hs (b := [b]) hahead)
  refine ⟨s₁, htook, ?_, ?_⟩
  · rw [htook.ahead, hahead]
    rfl
  · rw [range'_succ, readVarint, bind_ok hread]
    split
    · rfl
    · rfl

/-- The reader in front of any bytes takes the code at their front, or all of them if they end
inside it, and throws. -/
theorem readVarint_ahead (room : Nat) (i : Nat) (acc : BitVec w) (hs : WellFormed s)
    :
    ∃ s', Took s ((lebFront room s.ahead).getD s.ahead).length s'
      ∧ readVarint w (range' i room 7) acc s = match lebFront room s.ahead with
          | some front => .ok (acc ||| (BitVec.ofNat w (ofLeb front) <<< i)) s'
          | none => .error .outOfRange s' := by
  induction room generalizing i acc s with
  | zero =>
    have hzero : BitVec.ofNat w (ofLeb []) <<< i = 0#w := BitVec.zero_shiftLeft i
    refine ⟨s, took_zero hs, ?_⟩
    show EStateM.Result.ok acc s = .ok (acc ||| (BitVec.ofNat w (ofLeb []) <<< i)) s
    rw [hzero, BitVec.or_zero]
  | succ room ih =>
    cases hahead : s.ahead with
    | nil =>
      have hempty := length_ahead hs
      rw [hahead, length_nil] at hempty
      have hread : readFuint8 s = .error .outOfRange s := bind_error (read_throws (by omega))
      rw [range'_succ, readVarint]
      exact ⟨s, took_zero hs, bind_error hread⟩
    | cons b bs =>
      obtain ⟨s₁, htook, hahead₁, hstep⟩ := readVarint_step room i acc hs hahead
      rw [hstep, lebFront]
      by_cases hlast : b < 0x80
      · rw [if_pos hlast, if_pos hlast]
        have hval : ofLeb [b] = b.toNat := by
          have hlt : b.toNat < 128 := UInt8.lt_iff_toNat_lt.mp hlast
          rw [ofLeb, ofLeb]
          omega
        rw [← hval]
        exact ⟨s₁, htook, rfl⟩
      · rw [if_neg hlast, if_neg hlast]
        obtain ⟨s₂, htook₂, hrest⟩ := ih (i + 7)
          (acc ||| (BitVec.ofNat w (b &&& 0x7f).toNat <<< i)) htook.inv
        have hboth := htook.trans htook₂
        rw [hahead₁, Nat.add_comm] at hboth
        rw [hrest, hahead₁]
        refine ⟨s₂, ?_⟩
        cases hfront : lebFront room bs with
        | none =>
          rw [hfront] at hboth
          exact ⟨hboth, rfl⟩
        | some tl =>
          rw [hfront] at hboth
          refine ⟨hboth, ?_⟩
          dsimp only [Option.map_some]
          rw [toNat_and_7f, or_payload i acc (Nat.mod_lt _ (by decide)), ofLeb]

/-- The reader stops on exactly the byte the encoder stopped on. -/
theorem readVarint_spec (room : Nat) (i n : Nat) (acc : BitVec w) (bs : List UInt8) (s : Bytearray)
    (hs : WellFormed s) (hleb : leb room n = some bs) (hh : Holds s bs) (hacc : acc.toNat < 2 ^ i)
    (hn : n * 2 ^ i < 2 ^ w) :
    ∃ s', readVarint w (range' i room 7) acc s = .ok (BitVec.ofNat w (acc.toNat + n * 2 ^ i)) s'
      ∧ Took s bs.length s' := by
  obtain ⟨rest, hahead⟩ := hh.ahead
  obtain ⟨hfront, hval⟩ := lebFront_leb rest hleb
  rw [← hahead] at hfront
  obtain ⟨s', htook, hread⟩ := readVarint_ahead room i acc hs
  rw [hfront] at htook hread
  refine ⟨s', ?_, htook⟩
  have hor := toNat_or_payload hacc hn
  rw [hread]
  dsimp only
  rw [hval]
  congr 1
  apply BitVec.eq_of_toNat_eq
  rw [hor, BitVec.toNat_ofNat, ← hor, Nat.mod_eq_of_lt (BitVec.isLt _)]

/-- What the variable-length readers return in front of an encoding. -/
theorem readVarint_of_holds (hs : WellFormed s) (v : BitVec w) (h : w ≤ 7 * room)
    (hr : 0 < room) (hh : Holds s (varintBytes room v.toNat)) :
    ∃ s', readVarint w (range' 0 room 7) 0 s = .ok v s'
      ∧ Took s (varintBytes room v.toNat).length s' := by
  obtain ⟨s', hread, htook⟩ :=
    readVarint_spec (w := w) room 0 v.toNat 0 _ s hs (varint_fits v h hr).1 hh
      (by rw [BitVec.ofNat_eq_ofNat, BitVec.toNat_ofNat, Nat.zero_mod]; decide)
      (by rw [pow_zero, Nat.mul_one]; exact v.isLt)
  refine ⟨s', ?_, htook⟩
  rw [hread, pow_zero, Nat.mul_one, BitVec.ofNat_eq_ofNat, BitVec.toNat_ofNat,
    Nat.zero_mod, Nat.zero_add, BitVec.ofNat_toNat, BitVec.setWidth_eq]

theorem readUint32_spec (hs : WellFormed s) {v : UInt32} (hh : Holds s (varintBytes 5 v.toNat)) :
    ∃ s', readUint32 s = .ok v s' ∧ Took s (varintBytes 5 v.toNat).length s' := by
  obtain ⟨s', hread, htook⟩ := readVarint_of_holds hs v.toBitVec (by decide) (by decide) hh
  exact ⟨s', bind_ok hread, htook⟩

theorem readUint64_spec (hs : WellFormed s) {v : UInt64} (hh : Holds s (varintBytes 10 v.toNat)) :
    ∃ s', readUint64 s = .ok v s' ∧ Took s (varintBytes 10 v.toNat).length s' := by
  obtain ⟨s', hread, htook⟩ := readVarint_of_holds hs v.toBitVec (by decide) (by decide) hh
  exact ⟨s', bind_ok hread, htook⟩

theorem DecodeZigzag32_EncodeZigzag32 (v : Int32) : DecodeZigzag32 (EncodeZigzag32 v) = v := by
  show Int32.ofBitVec (unzigzag (zigzag v.toBitVec)) = v
  rw [unzigzag_zigzag (w := 31), Int32.ofBitVec_toBitVec]

theorem DecodeZigzag64_EncodeZigzag64 (v : Int64) : DecodeZigzag64 (EncodeZigzag64 v) = v := by
  show Int64.ofBitVec (unzigzag (zigzag v.toBitVec)) = v
  rw [unzigzag_zigzag (w := 63), Int64.ofBitVec_toBitVec]

/-- A string behind its length prefix: the text is read unless it is empty and
`m_cur` is null there. -/
theorem readString_spec {x : BA α} {len : α → Nat} {v : List UInt8} (hlen : len a = v.length)
    (hx : x s = .ok a s₁) (ht : Took s b.length s₁) (hh : Holds s (b ++ v)) :
    ((v ≠ [] ∨ s.m_position + b.length < s.m_capacity) →
      ∃ s', (do SylarBytearray.read (len (← x)) : BA (List UInt8)) s = .ok v s'
        ∧ Took s (b ++ v).length s')
    ∧ ((v = [] ∧ s.m_position + b.length = s.m_capacity) →
      (do SylarBytearray.read (len (← x)) : BA (List UInt8)) s = .error (.nullNode 0) s₁) := by
  have hnull := ht.inv.cur_null_iff
  rw [ht.position, ht.capacity] at hnull
  constructor
  · intro hcond
    by_cases hv : v = []
    · subst hv
      have hlt : s.m_position + b.length < s.m_capacity := by
        rcases hcond with h | h
        · exact absurd rfl h
        · exact h
      refine ⟨s₁, ?_, ?_⟩
      · rw [bind_ok hx, hlen, length_nil, read_zero, if_neg (fun h => by rw [hnull] at h; omega)]
      · rw [append_nil]
        exact ht
    · obtain ⟨s', hread, htook⟩ := read_holds ht.inv hv (hh.right ht)
      refine ⟨s', ?_, ?_⟩
      · rw [bind_ok hx, hlen]
        exact hread
      · rw [length_append]
        exact ht.trans htook
  · rintro ⟨rfl, hend⟩
    rw [bind_ok hx, hlen, length_nil, read_zero, if_pos (hnull.mpr hend)]

/-- Every write stores at least one byte. -/
theorem encode_pos (e : Int8) (v : Value) : 1 ≤ (v.encode e).length := by
  have h5 : ∀ x : UInt32, 1 ≤ (varintBytes 5 x.toNat).length := fun x =>
    (varint_fits x.toBitVec (by decide) (by decide)).2.1
  have h10 : ∀ x : UInt64, 1 ≤ (varintBytes 10 x.toNat).length := fun x =>
    (varint_fits x.toBitVec (by decide) (by decide)).2.1
  cases v with
  | int32 v => exact h5 _
  | uint32 v => exact h5 _
  | int64 v => exact h10 _
  | uint64 v => exact h10 _
  | stringF16 v =>
    rw [Value.encode, length_append, length_fixedBytes]
    omega
  | stringF32 v =>
    rw [Value.encode, length_append, length_fixedBytes]
    omega
  | stringF64 v =>
    rw [Value.encode, length_append, length_fixedBytes]
    omega
  | stringVint v =>
    have := h10 (UInt64.ofNat v.length)
    rw [Value.encode, length_append]
    omega
  | _ => simp [Value.encode]

/-- A read in front of the encoding of `v` returns `v` and consumes the encoding, unless it reads an
empty string up to the end of the chain, at the null node. -/
def ReadsBack (s : Bytearray) (v : Value) : Prop :=
  ((v.text? = some [] →
      s.m_position + (v.encode s.m_endian).length < s.m_capacity) →
    ∃ s', v.kind.read s = .ok v s' ∧ Took s (v.encode s.m_endian).length s')
  ∧ ((v.text? = some []
      ∧ s.m_position + (v.encode s.m_endian).length = s.m_capacity) →
    ∃ s', v.kind.read s = .error (.nullNode 0) s')

theorem readsBack_number (ht : v.text? = none)
    (h : ∃ s', v.kind.read s = .ok v s' ∧ Took s (v.encode s.m_endian).length s') :
    ReadsBack s v := by
  refine ⟨fun _ => h, ?_⟩
  rintro ⟨hsome, -⟩
  rw [ht] at hsome
  exact nomatch hsome

/-- The string kinds: `x` reads the length prefix `b`. -/
theorem readsBack_string {x : BA α} {t : List UInt8} (len : α → Nat) (mk : List UInt8 → Value)
    (hmk : v = mk t) (hkind : v.kind.read = (do return mk (← (do SylarBytearray.read (len (← x))))))
    (htext : v.text? = some t) (henc : v.encode s.m_endian = b ++ t) (hlen : len a = t.length)
    (hx : x s = .ok a s₁) (ht : Took s b.length s₁) (hh : Holds s (b ++ t)) : ReadsBack s v := by
  obtain ⟨hok, hnull⟩ := readString_spec hlen hx ht hh
  rw [ReadsBack, htext, henc, hkind]
  constructor
  · intro hcond
    have hcase : t ≠ [] ∨ s.m_position + b.length < s.m_capacity := by
      by_cases h0 : t = []
      · subst h0
        have := hcond rfl
        rw [append_nil] at this
        exact Or.inr this
      · exact Or.inl h0
    obtain ⟨s', hread, htook⟩ := hok hcase
    refine ⟨s', ?_, htook⟩
    rw [hmk]
    exact return_ok mk hread
  · rintro ⟨h0, hend⟩
    cases h0
    rw [append_nil] at hend
    exact ⟨s₁, return_error mk (hnull ⟨rfl, hend⟩)⟩

/-- **Every value reads back.** -/
--  fint16 v =>|the fixed widths go through `readFixed`, in the byte order of the array
--  int32 v =>|the others through the varint, signed ones behind the zigzag
theorem Value.readsBack (hs : WellFormed s) (hv : v.Fits) (hh : Holds s (v.encode s.m_endian)) :
    ReadsBack s v := by
  cases v with
  | fint8 v =>
    obtain ⟨s', hread, htook⟩ := read_byte hs hh
    refine readsBack_number rfl ⟨s', ?_, htook⟩
    refine return_ok Value.fint8 ?_
    rw [readFint8, bind_ok hread, ofMem_toMem]
    rfl
  | fuint8 v =>
    obtain ⟨s', hread, htook⟩ := read_byte hs hh
    refine readsBack_number rfl ⟨s', ?_, htook⟩
    refine return_ok Value.fuint8 ?_
    rw [readFuint8, bind_ok hread, ofMem_toMem]
    rfl
  | fint16 v =>
    obtain ⟨s', hread, htook⟩ := readFixed_spec hs (by decide) hh
    exact readsBack_number rfl ⟨s', return_ok Value.fint16 (return_ok Int16.ofBitVec hread), htook⟩
  | fuint16 v =>
    obtain ⟨s', hread, htook⟩ := readFixed_spec hs (by decide) hh
    exact readsBack_number rfl
      ⟨s', return_ok Value.fuint16 (return_ok UInt16.ofBitVec hread), htook⟩
  | fint32 v =>
    obtain ⟨s', hread, htook⟩ := readFixed_spec hs (by decide) hh
    exact readsBack_number rfl ⟨s', return_ok Value.fint32 (return_ok Int32.ofBitVec hread), htook⟩
  | fuint32 v =>
    obtain ⟨s', hread, htook⟩ := readFixed_spec hs (by decide) hh
    exact readsBack_number rfl
      ⟨s', return_ok Value.fuint32 (return_ok UInt32.ofBitVec hread), htook⟩
  | fint64 v =>
    obtain ⟨s', hread, htook⟩ := readFixed_spec hs (by decide) hh
    exact readsBack_number rfl ⟨s', return_ok Value.fint64 (return_ok Int64.ofBitVec hread), htook⟩
  | fuint64 v =>
    obtain ⟨s', hread, htook⟩ := readFixed_spec hs (by decide) hh
    exact readsBack_number rfl
      ⟨s', return_ok Value.fuint64 (return_ok UInt64.ofBitVec hread), htook⟩
  | int32 v =>
    obtain ⟨s', hread, htook⟩ := readUint32_spec hs hh
    refine readsBack_number rfl ⟨s', ?_, htook⟩
    have hdec := return_ok DecodeZigzag32 hread
    rw [DecodeZigzag32_EncodeZigzag32] at hdec
    exact return_ok Value.int32 hdec
  | uint32 v =>
    obtain ⟨s', hread, htook⟩ := readUint32_spec hs hh
    exact readsBack_number rfl ⟨s', return_ok Value.uint32 hread, htook⟩
  | int64 v =>
    obtain ⟨s', hread, htook⟩ := readUint64_spec hs hh
    refine readsBack_number rfl ⟨s', ?_, htook⟩
    have hdec := return_ok DecodeZigzag64 hread
    rw [DecodeZigzag64_EncodeZigzag64] at hdec
    exact return_ok Value.int64 hdec
  | uint64 v =>
    obtain ⟨s', hread, htook⟩ := readUint64_spec hs hh
    exact readsBack_number rfl ⟨s', return_ok Value.uint64 hread, htook⟩
  | float v =>
    obtain ⟨s', hread, htook⟩ := readFixed_spec hs (by decide) hh
    exact readsBack_number rfl ⟨s', return_ok Value.float (return_ok UInt32.ofBitVec hread), htook⟩
  | double v =>
    obtain ⟨s', hread, htook⟩ := readFixed_spec hs (by decide) hh
    exact readsBack_number rfl ⟨s', return_ok Value.double (return_ok UInt64.ofBitVec hread), htook⟩
  | stringF16 v =>
    obtain ⟨s₁, hread, htook⟩ := readFixed_spec hs (by decide) hh.left
    have hlen : (UInt16.ofNat v.length).toNat = v.length := UInt16.toNat_ofNat_of_lt' hv
    exact readsBack_string UInt16.toNat Value.stringF16 rfl rfl rfl
      rfl hlen (return_ok UInt16.ofBitVec hread)
      (by rw [length_fixedBytes]; exact htook) hh
  | stringF32 v =>
    obtain ⟨s₁, hread, htook⟩ := readFixed_spec hs (by decide) hh.left
    have hlen : (UInt32.ofNat v.length).toNat = v.length := UInt32.toNat_ofNat_of_lt' hv
    exact readsBack_string UInt32.toNat Value.stringF32 rfl rfl rfl
      rfl hlen (return_ok UInt32.ofBitVec hread)
      (by rw [length_fixedBytes]; exact htook) hh
  | stringF64 v =>
    obtain ⟨s₁, hread, htook⟩ := readFixed_spec hs (by decide) hh.left
    have hlen : (UInt64.ofNat v.length).toNat = v.length := UInt64.toNat_ofNat_of_lt' hv
    exact readsBack_string UInt64.toNat Value.stringF64 rfl rfl rfl
      rfl hlen (return_ok UInt64.ofBitVec hread)
      (by rw [length_fixedBytes]; exact htook) hh
  | stringVint v =>
    obtain ⟨s₁, hread, htook⟩ := readUint64_spec hs hh.left
    have hlen : (UInt64.ofNat v.length).toNat = v.length := UInt64.toNat_ofNat_of_lt' hv
    exact readsBack_string UInt64.toNat Value.stringVint rfl rfl rfl rfl hlen hread htook hh

/-! ## Sequences of values -/

/-- The number of bytes a value takes. -/
def Value.width : Value → Nat
  | .fint8 _ | .fuint8 _ => 1
  | .fint16 _ | .fuint16 _ => 2
  | .fint32 _ | .fuint32 _ | .float _ => 4
  | .fint64 _ | .fuint64 _ | .double _ => 8
  | .int32 v => lebLength (EncodeZigzag32 v).toNat
  | .uint32 v => lebLength v.toNat
  | .int64 v => lebLength (EncodeZigzag64 v).toNat
  | .uint64 v => lebLength v.toNat
  | .stringF16 v => 2 + v.length
  | .stringF32 v => 4 + v.length
  | .stringF64 v => 8 + v.length
  | .stringVint v => lebLength v.length + v.length

/-- The size of the array `tmp` that a varint writer fills. -/
def Value.varintRoom : Value → Option Nat
  | .int32 _ | .uint32 _ => some 5
  | .int64 _ | .uint64 _ => some 10
  | _ => none

/-- The sequence ends with an empty string, of whichever string kind. -/
def EndsEmpty (vs : List Value) : Prop :=
  vs.getLast?.bind Value.text? = some []

instance (vs : List Value) : Decidable (EndsEmpty vs) :=
  inferInstanceAs (Decidable (_ = _))

private theorem lebLength_bounds (v : BitVec w) (h : w ≤ 7 * room) (hr : 0 < room) :
    1 ≤ lebLength v.toNat ∧ lebLength v.toNat ≤ room := by
  obtain ⟨hleb, hmin, hmax⟩ := varint_fits v h hr
  exact length_leb hleb ▸ ⟨hmin, hmax⟩

/-- A varint takes at least one byte and at most those of `tmp`. -/
theorem Value.width_of_varint (h : v.varintRoom = some room) : 1 ≤ v.width ∧ v.width ≤ room := by
  cases v with
  | int32 v =>
    cases h
    exact lebLength_bounds (EncodeZigzag32 v).toBitVec (by decide) (by decide)
  | uint32 v =>
    cases h
    exact lebLength_bounds v.toBitVec (by decide) (by decide)
  | int64 v =>
    cases h
    exact lebLength_bounds (EncodeZigzag64 v).toBitVec (by decide) (by decide)
  | uint64 v =>
    cases h
    exact lebLength_bounds v.toBitVec (by decide) (by decide)
  | _ => exact nomatch h

private theorem length_varint32 (x : UInt32) : (varintBytes 5 x.toNat).length = lebLength x.toNat :=
  length_leb (varint_fits x.toBitVec (by decide) (by decide)).1

theorem length_varint64 (x : UInt64) : (varintBytes 10 x.toNat).length = lebLength x.toNat :=
  length_leb (varint_fits x.toBitVec (by decide) (by decide)).1

theorem length_encode (e : Int8) (hv : v.Fits) : (v.encode e).length = v.width := by
  cases v with
  | int32 v => exact length_varint32 _
  | uint32 v => exact length_varint32 _
  | int64 v => exact length_varint64 _
  | uint64 v => exact length_varint64 _
  | stringVint v =>
    have hlen : (UInt64.ofNat v.length).toNat = v.length := UInt64.toNat_ofNat_of_lt' hv
    rw [Value.encode, length_append, length_varint64, hlen, Value.width]
  | _ => simp [Value.encode, Value.width]

theorem length_encodeAll (e : Int8) (h : ∀ v ∈ vs, v.Fits) :
    (encodeAll e vs).length = (vs.map Value.width).sum := by
  induction vs with
  | nil => rfl
  | cons v vs ih =>
    rw [encodeAll, flatMap_cons, length_append, length_encode e (h v (mem_cons_self ..)),
      ← encodeAll, ih (fun u hu => h u (mem_cons_of_mem _ hu)), map_cons, sum_cons]

theorem encodeAll_pos (e : Int8) (h : vs ≠ []) : 1 ≤ (encodeAll e vs).length := by
  cases vs with
  | nil => exact absurd rfl h
  | cons v vs =>
    have := encode_pos e v
    rw [encodeAll, flatMap_cons, length_append]
    omega

/-- The reads that match a sequence of writes return the values and consume the encodings,
unless an empty string is last at the very end of the chain. -/
theorem readAll_spec (vs : List Value) (hs : WellFormed s) (hfit : ∀ v ∈ vs, v.Fits)
    (hh : Holds s (encodeAll s.m_endian vs)) :
    (¬ (EndsEmpty vs ∧ s.m_position + (encodeAll s.m_endian vs).length = s.m_capacity) →
      ∃ s', readAll (vs.map Value.kind) s = .ok vs s' ∧ Took s (encodeAll s.m_endian vs).length s')
      ∧ (EndsEmpty vs ∧ s.m_position + (encodeAll s.m_endian vs).length = s.m_capacity →
      ∃ s', readAll (vs.map Value.kind) s = .error (.nullNode 0) s') := by
  induction vs generalizing s with
  | nil =>
    refine ⟨fun _ => ⟨s, rfl, took_zero hs⟩, ?_⟩
    rintro ⟨h, -⟩
    exact nomatch h
  | cons v vs ih =>
    have hv := hfit v (mem_cons_self ..)
    have hsplit : encodeAll s.m_endian (v :: vs)
        = v.encode s.m_endian ++ encodeAll s.m_endian vs := flatMap_cons
    rw [hsplit] at hh ⊢
    obtain ⟨hok, hnull⟩ := v.readsBack hs hv hh.left
    have hbound := hh.fits
    have hcap := hs.size_le
    rw [length_append] at hbound ⊢
    rw [map_cons, readAll]
    by_cases hlast : vs = []
    · subst hlast
      have hends : EndsEmpty [v] ↔ v.text? = some [] := Iff.rfl
      rw [hends, show encodeAll s.m_endian [] = [] from rfl, length_nil, Nat.add_zero]
      constructor
      · intro hcond
        obtain ⟨s', hread, htook⟩ := hok (fun ht => by
          have : s.m_position + (v.encode s.m_endian).length
              ≠ s.m_capacity := fun h => hcond ⟨ht, h⟩
          omega)
        refine ⟨s', ?_, htook⟩
        rw [bind_ok hread]
        rfl
      · intro hcond
        obtain ⟨s', hread⟩ := hnull hcond
        exact ⟨s', bind_error hread⟩
    · have hends : EndsEmpty (v :: vs) ↔ EndsEmpty vs := by
        obtain ⟨u, us, rfl⟩ := exists_cons_of_ne_nil hlast
        rw [EndsEmpty, EndsEmpty, getLast?_cons_cons]
      -- a later value follows, so this one does not end the chain
      have hpos := encodeAll_pos s.m_endian hlast
      obtain ⟨s₁, hread, htook⟩ := hok (fun _ => by omega)
      have hih := ih htook.inv (fun u hu => hfit u (mem_cons_of_mem _ hu))
        (by rw [htook.endian]; exact hh.right htook)
      rw [htook.endian, htook.position, htook.capacity, Nat.add_assoc, ← hends] at hih
      obtain ⟨hok', hnull'⟩ := hih
      constructor
      · intro hcond
        obtain ⟨s₂, hread₂, htook₂⟩ := hok' hcond
        refine ⟨s₂, ?_, htook.trans htook₂⟩
        rw [bind_ok hread, bind_ok hread₂]
        rfl
      · intro hcond
        obtain ⟨s₂, hread₂⟩ := hnull' hcond
        exact ⟨s₂, by rw [bind_ok hread, bind_error hread₂]⟩

end SylarBytearrayCodec
