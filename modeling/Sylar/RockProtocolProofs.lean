import Mathlib.Algebra.Order.BigOperators.Group.List
import Sylar.StreamProofs
import Sylar.ZlibStreamProofs

/-! # Rock messages on a stream (`rock_protocol.cc`, `protocol.cc`)

A message is written as an 8-byte header (magic, version, flag, length in
network byte order) and a payload: the type byte, the fields as varints and
varint-prefixed strings, compressed when it has at least
`rock.protocol.gzip_min_length` bytes.

* **`messages_read_back_iff`** — messages are read back for every division of the bytes into
  reads, exactly when none of them has an EMPTY BODY where a block ends. -/

namespace SylarRockProtocol

open ListWindow ByteCode Transducer SylarBytearray SylarBytearrayCodec List
open SylarBytearrayRefinement SylarStream SylarZlibStream

/-! ## Messages -/

/-- `RockRequest`, `RockResponse` and `RockNotify`. -/
inductive RockMessage where
  | request (sn cmd : UInt32) (body : List UInt8)
  | response (sn cmd result : UInt32) (resultStr body : List UInt8)
  | notify (notify : UInt32) (body : List UInt8)
  deriving DecidableEq, Repr

/-! `Message::MessageType`. -/

def REQUEST : UInt8 := 1
def RESPONSE : UInt8 := 2
def NOTIFY : UInt8 := 3

def RockMessage.getType : RockMessage → UInt8
  | .request .. => REQUEST
  | .response .. => RESPONSE
  | .notify .. => NOTIFY

def RockMessage.body : RockMessage → List UInt8
  | .request _ _ body => body
  | .response _ _ _ _ body => body
  | .notify _ body => body

/-- `RockBody::serializeToByteArray`. -/
def serializeBody (body : List UInt8) : BA Unit := writeStringVint body

/-- `RockBody::parseFromByteArray`. -/
def parseBody : BA (List UInt8) := readStringVint

/-- `serializeToByteArray` of the three message classes. -/
def serializeToByteArray (msg : RockMessage) : BA Unit :=
  match msg with
  | .request sn cmd body => do
    writeFuint8 msg.getType
    writeUint32 sn
    writeUint32 cmd
    serializeBody body
  | .response sn cmd result resultStr body => do
    writeFuint8 msg.getType
    writeUint32 sn
    writeUint32 cmd
    writeUint32 result
    writeStringVint resultStr
    serializeBody body
  | .notify notify body => do
    writeFuint8 msg.getType
    writeUint32 notify
    serializeBody body

/-- `RockRequest::parseFromByteArray`. -/
def parseRequest : BA RockMessage := do
  let sn ← readUint32
  let cmd ← readUint32
  let body ← parseBody
  return .request sn cmd body

/-- `RockResponse::parseFromByteArray`. -/
def parseResponse : BA RockMessage := do
  let sn ← readUint32
  let cmd ← readUint32
  let result ← readUint32
  let resultStr ← readStringVint
  let body ← parseBody
  return .response sn cmd result resultStr body

/-- `RockNotify::parseFromByteArray`. -/
def parseNotify : BA RockMessage := do
  let notify ← readUint32
  let body ← parseBody
  return .notify notify body

/-- The type byte and the `switch` on it. -/
def parsePayload : BA (Option RockMessage) := do
  let type ← readFuint8
  if type = REQUEST then return some (← parseRequest)
  else if type = RESPONSE then return some (← parseResponse)
  else if type = NOTIFY then return some (← parseNotify)
  else return none

/-! ## Frames -/

/-- `RockMsgHeader`. -/
structure RockMsgHeader where
  magic : List UInt8 := [0xab, 0xcd]
  version : UInt8 := 1
  flag : UInt8 := 0
  length : Int32 := 0
  deriving DecidableEq, Repr

def s_rock_magic : List UInt8 := [0xab, 0xcd]

/-- The memory of a header. -/
def RockMsgHeader.bytes (h : RockMsgHeader) : List UInt8 :=
  h.magic ++ h.version :: h.flag :: toMem 4 h.length.toBitVec

/-- The header in 8 bytes of memory. -/
def RockMsgHeader.ofBytes (bs : List UInt8) : RockMsgHeader where
  magic := bs.take 2
  version := bs.getD 2 0
  flag := bs.getD 3 0
  length := .ofBitVec (ofMem 4 (bs.drop 4))

/-- `byteswapOnLittleEndian`, on a little-endian host. -/
def byteswapOnLittleEndian (v : Int32) : Int32 :=
  .ofBitVec (byteswap 4 v.toBitVec)

/-- `header.length = byteswapOnLittleEndian(header.length);` -/
def RockMsgHeader.swapped (h : RockMsgHeader) : RockMsgHeader :=
  { h with length := byteswapOnLittleEndian h.length }

/-- The two configuration variables of the protocol. -/
structure RockConfig where
  max_length : UInt32 := 1024 * 1024 * 64
  gzip_min_length : UInt32 := 1024 * 4

section Decoder

variable {σ τ : Type} (cfg : RockConfig) (Z : Zlib σ τ) (m_endian : Int8)
  (fuel : Nat)

/-- What passing an array through a fresh `ZlibStream` gives. -/
inductive ZResult where
  | writeFailed
  | flushFailed
  | done (ba : Bytearray)

/-- `zstream->write(ba, -1)`, `zstream->flush()`, `zstream->getByteArray()`. -/
def throughZlib {υ : Type} (M : Machine UInt8 υ) (ba : Bytearray) :
    StreamM ZResult := do
  let (iovs, ba) ← onArray (getReadBuffers (2 ^ 64 - 1)) ba
  match pump M fuel false (pieces ba.m_root iovs) (create M defaultSize) with
  | none => throw .stuck
  | some (ret, z) =>
    if ret ≠ Z_OK then pure .writeFailed
    else
      match flush M fuel z with
      | none => throw .stuck
      | some (ret, z) =>
          if ret ≠ Z_OK then pure .flushFailed
          else
            match getByteArray m_endian z with
            | .error e _ => throw (.array e)
            | .ok _ ba => pure (.done ba)

/-- The first half of `serializeTo`: the header and the payload to send, or
the error code. -/
def frame (msg : RockMessage) :
    StreamM (Except Int (RockMsgHeader × Bytearray)) := do
  let (_, ba) ← onArray (serializeToByteArray msg)
    (Bytearray.new defaultSize m_endian)
  let (_, ba) ← onArray (setPosition 0) ba
  let header : RockMsgHeader := { length := .ofNat ba.m_size }
  if cfg.gzip_min_length ≤ header.length.toUInt32 then
    match ← throughZlib m_endian fuel Z.deflate ba with
    | .writeFailed => return .error (-1)
    | .flushFailed => return .error (-2)
    | .done ba =>
        return .ok ({ header with
          flag := header.flag ||| 1
          length := .ofNat ba.m_size }, ba)
  else return .ok (header, ba)

/-- The second half of `serializeTo`. -/
def sendFrame (header : RockMsgHeader) (ba : Bytearray) : StreamM Int := do
  let rt ← writeFixSize header.swapped.bytes
  if rt ≤ 0 then return -3
  else
    let (rt, ba) ← writeFixSizeArray ba ba.getReadSize
    if rt ≤ 0 then return -4
    else return intOf (8 + ba.m_size)

/-- `RockMessageDecoder::serializeTo`. -/
def serializeTo (msg : RockMessage) : StreamM Int := do
  match ← frame cfg Z m_endian fuel msg with
  | .error rt => return rt
  | .ok (header, ba) => sendFrame header ba

/-- The payload as it was serialized: decompressed if the flag says so. -/
def inflated (header : RockMsgHeader) (ba : Bytearray) :
    StreamM (Option Bytearray) := do
  if header.flag &&& 1 ≠ 0 then
    match ← throughZlib m_endian fuel Z.inflate ba with
    | .done ba => return some ba
    | _ => return none
  else return some ba

/-- The body of `parseFrom`. -/
def parseFrame : StreamM (Option RockMessage) := do
  let (rt, head) ← readFixSize (List.replicate 8 0)
  let header := RockMsgHeader.ofBytes head
  if rt ≤ 0 then return none
  else if header.magic ≠ s_rock_magic then return none
  else if header.version ≠ 1 then return none
  else
    let header := header.swapped
    if cfg.max_length ≤ header.length.toUInt32 then return none
    else
      let (rt, ba) ← readFixSizeArray (Bytearray.new defaultSize m_endian)
        (sizeT header.length.toInt)
      if rt ≤ 0 then return none
      else
        let (_, ba) ← onArray (setPosition 0) ba
        match ← inflated Z m_endian fuel header ba with
        | none => return none
        | some ba =>
            let (msg, _) ← onArray parsePayload ba
            return msg

/-- `RockMessageDecoder::parseFrom`: exceptions end in `nullptr`, a null node
is no exception. -/
def parseFrom : StreamM (Option RockMessage) := fun t =>
  match parseFrame cfg Z m_endian fuel t with
  | .error (.array .outOfRange) t => .ok none t
  | r => r

/-- Messages written back to back. -/
def serializeAll : List RockMessage → StreamM (List Int)
  | [] => pure []
  | msg :: msgs => do
    let rt ← serializeTo cfg Z m_endian fuel msg
    let rts ← serializeAll msgs
    pure (rt :: rts)

/-- `n` messages read one after another. -/
def parseAll : Nat → StreamM (List (Option RockMessage))
  | 0 => pure []
  | n + 1 => do
    let msg ← parseFrom cfg Z m_endian fuel
    let msgs ← parseAll n
    pure (msg :: msgs)

end Decoder

/-! ## The payload of a message -/

/-- The fields in front of the body, in the order of the wire. -/
def RockMessage.head : RockMessage → List Value
  | .request sn cmd _ => [.fuint8 REQUEST, .uint32 sn, .uint32 cmd]
  | .response sn cmd result resultStr _ =>
    [.fuint8 RESPONSE, .uint32 sn, .uint32 cmd, .uint32 result,
      .stringVint resultStr]
  | .notify n _ => [.fuint8 NOTIFY, .uint32 n]

/-- All fields. -/
def RockMessage.fields (msg : RockMessage) : List Value :=
  msg.head ++ [.stringVint msg.body]

/-- The length of the payload. -/
def RockMessage.width (msg : RockMessage) : Nat :=
  (msg.fields.map Value.width).sum

theorem serializeToByteArray_eq (msg : RockMessage) :
    serializeToByteArray msg = writeAll msg.fields := by
  cases msg <;>
    simp [serializeToByteArray, serializeBody, RockMessage.fields, RockMessage.head,
      RockMessage.body, RockMessage.getType, writeAll, Value.write]

variable {s s' ba : Bytearray} {msg : RockMessage} {header : RockMsgHeader} {wire : List UInt8}
  {t : Transport}

/-- A result that was wrapped by `f` after the call. -/
theorem of_return_ok {α β : Type} {f : α → β} (hf : Function.Injective f) {x : BA α} {a : α}
    (h : (do return f (← x) : BA β) s = .ok (f a) s') : x s = .ok a s' := by
  cases hx : x s with
  | error e s₁ =>
    rw [bind_error hx] at h
    exact nomatch h
  | ok b s₁ =>
    rw [bind_ok hx] at h
    obtain ⟨hval, hstate⟩ := EStateM.Result.ok.inj h
    rw [hf hval, hstate]

theorem of_return_error {α β : Type} (f : α → β) {x : BA α} {e : Fault}
    (h : (do return f (← x) : BA β) s = .error e s') : x s = .error e s' := by
  cases hx : x s with
  | error e₁ s₁ =>
    rw [bind_error hx] at h
    obtain ⟨rfl, rfl⟩ := EStateM.Result.error.inj h
    rfl
  | ok b s₁ =>
    rw [bind_ok hx] at h
    exact nomatch h

/-- The first read of a sequence that returned. -/
theorem readAll_cons_ok {k : Kind} {ks : List Kind} {v : Value} {vs : List Value}
    (h : readAll (k :: ks) s = .ok (v :: vs) s') :
    ∃ s₁, k.read s = .ok v s₁ ∧ readAll ks s₁ = .ok vs s' := by
  rw [readAll] at h
  cases hk : k.read s with
  | error e s₁ =>
    rw [bind_error hk] at h
    cases h
  | ok u s₁ =>
    rw [bind_ok hk] at h
    cases hks : readAll ks s₁ with
    | error e s₂ =>
      rw [bind_error hks] at h
      cases h
    | ok us s₂ =>
      rw [bind_ok hks] at h
      obtain ⟨hval, hstate⟩ := EStateM.Result.ok.inj h
      obtain ⟨rfl, rfl⟩ := cons.inj hval
      exact ⟨s₁, rfl, by rw [hks, hstate]⟩

private theorem read_uint32 {v : UInt32} (h : Kind.read .uint32 s = .ok (.uint32 v) s') :
    readUint32 s = .ok v s' :=
  of_return_ok (fun _ _ => Value.uint32.inj) h

private theorem read_stringVint {v : List UInt8}
    (h : Kind.read .stringVint s = .ok (.stringVint v) s') : readStringVint s = .ok v s' :=
  of_return_ok (fun _ _ => Value.stringVint.inj) h

/-- The message with its body replaced. -/
def RockMessage.withBody : RockMessage → List UInt8 → RockMessage
  | .request sn cmd _, body => .request sn cmd body
  | .response sn cmd result resultStr _, body =>
    .response sn cmd result resultStr body
  | .notify n _, body => .notify n body

theorem RockMessage.withBody_body (msg : RockMessage) : msg.withBody msg.body = msg := by
  cases msg <;> rfl

/-- Behind the fields in front of the body the type byte has chosen the class and only the body is
left. -/
theorem parsePayload_of_head {s₁ : Bytearray}
    (h : readAll (msg.head.map Value.kind) s = .ok msg.head s₁) :
    parsePayload s = (do return some (msg.withBody (← parseBody)) : BA _) s₁ := by
  cases msg with
  | request sn cmd body =>
    obtain ⟨sa, ha, h⟩ := readAll_cons_ok h
    obtain ⟨sb, hb, h⟩ := readAll_cons_ok h
    obtain ⟨sc, hc, h⟩ := readAll_cons_ok h
    have ha' : readFuint8 s = .ok REQUEST sa := of_return_ok (fun _ _ => Value.fuint8.inj) ha
    obtain ⟨-, rfl⟩ := EStateM.Result.ok.inj h
    rw [parsePayload, bind_ok ha', if_pos rfl, parseRequest]
    simp only [bind_assoc, pure_bind]
    rw [bind_ok (read_uint32 hb), bind_ok (read_uint32 hc)]
    rfl
  | response sn cmd result resultStr body =>
    obtain ⟨sa, ha, h⟩ := readAll_cons_ok h
    obtain ⟨sb, hb, h⟩ := readAll_cons_ok h
    obtain ⟨sc, hc, h⟩ := readAll_cons_ok h
    obtain ⟨sd, hd, h⟩ := readAll_cons_ok h
    obtain ⟨se, he, h⟩ := readAll_cons_ok h
    have ha' : readFuint8 s = .ok RESPONSE sa := of_return_ok (fun _ _ => Value.fuint8.inj) ha
    obtain ⟨-, rfl⟩ := EStateM.Result.ok.inj h
    rw [parsePayload, bind_ok ha', if_neg (by decide), if_pos rfl, parseResponse]
    simp only [bind_assoc, pure_bind]
    rw [bind_ok (read_uint32 hb), bind_ok (read_uint32 hc),
      bind_ok (read_uint32 hd), bind_ok (read_stringVint he)]
    rfl
  | notify n body =>
    obtain ⟨sa, ha, h⟩ := readAll_cons_ok h
    obtain ⟨sb, hb, h⟩ := readAll_cons_ok h
    have ha' : readFuint8 s = .ok NOTIFY sa := of_return_ok (fun _ _ => Value.fuint8.inj) ha
    obtain ⟨-, rfl⟩ := EStateM.Result.ok.inj h
    rw [parsePayload, bind_ok ha', if_neg (by decide), if_neg (by decide), if_pos rfl, parseNotify]
    simp only [bind_assoc, pure_bind]
    rw [bind_ok (read_uint32 hb)]
    rfl

/-- The payload ends with an empty body exactly where a block ends. -/
def RockMessage.EndsBlock (msg : RockMessage) : Prop :=
  msg.body = [] ∧ defaultSize ∣ msg.width

instance (msg : RockMessage) : Decidable msg.EndsBlock :=
  inferInstanceAs (Decidable (_ ∧ _))

/-- The payload has a size a machine can address. -/
def RockMessage.Fits (msg : RockMessage) : Prop := msg.width < 2 ^ 64

/-- The kinds of fields that messages have. -/
theorem kind_of_mem_fields (msg : RockMessage) : ∀ v ∈ msg.fields,
      (∃ n, v = .fuint8 n) ∨ (∃ n, v = .uint32 n) ∨ ∃ t, v = .stringVint t := by
  cases msg <;> simp [RockMessage.fields, RockMessage.head, RockMessage.body]

/-- A message of a possible size has only strings that fit their prefix. -/
theorem RockMessage.fields_fit (h : msg.Fits) : ∀ v ∈ msg.fields, v.Fits := by
  intro v hv
  have hle : v.width ≤ msg.width := le_sum_of_mem (mem_map_of_mem hv)
  have hlt : v.width < 2 ^ 64 := Nat.lt_of_le_of_lt hle h
  rcases kind_of_mem_fields msg v hv with ⟨n, rfl⟩ | ⟨n, rfl⟩ | ⟨t, rfl⟩
  · trivial
  · trivial
  · exact Nat.lt_of_le_of_lt (Nat.le_add_left ..) hlt

/-- The bytes of the payload; none of the fields depends on the byte order of
the array. -/
def RockMessage.payload (msg : RockMessage) : List UInt8 :=
  encodeAll SYLAR_BYTE_ORDER msg.fields

theorem encodeAll_fields (e : Int8) (msg : RockMessage) : encodeAll e msg.fields = msg.payload := by
  cases msg <;> rfl

theorem RockMessage.length_payload (h : msg.Fits) : msg.payload.length = msg.width :=
  length_encodeAll _ (RockMessage.fields_fit h)

theorem RockMessage.payload_ne (msg : RockMessage) : msg.payload ≠ [] := by
  have hne : msg.fields ≠ [] := append_ne_nil_of_right_ne_nil _ (by simp)
  exact length_pos_iff.mp (encodeAll_pos SYLAR_BYTE_ORDER hne)

/-- The payload read back, from an array that was just loaded with it. -/
theorem parsePayload_spec (hfit : msg.Fits) (h : Loaded defaultSize msg.payload ba) :
    (¬ msg.EndsBlock → ∃ s, parsePayload ba = .ok (some msg) s)
      ∧ (msg.EndsBlock → ∃ s, parsePayload ba = .error (.nullNode 0) s) := by
  have hh := h.holds
  have hall : msg.payload = encodeAll ba.m_endian msg.head
      ++ (Value.stringVint msg.body).encode ba.m_endian := by
    rw [← encodeAll_fields ba.m_endian, RockMessage.fields, encodeAll_append]
    simp [encodeAll]
  have hlen := congrArg length hall
  rw [length_append] at hlen
  have hbody := encode_pos ba.m_endian (Value.stringVint msg.body)
  have hfits := hh.fits
  have hcap := h.inv.size_le
  have hpos := h.position
  have hfields := RockMessage.fields_fit hfit
  rw [hall] at hh
  -- the body follows, so the fields in front of it do not end the chain
  obtain ⟨s₁, hread, htook⟩ := (readAll_spec msg.head h.inv
    (fun v hv => hfields v (mem_append_left _ hv)) hh.left).1
    (fun hend => by omega)
  obtain ⟨hok, hnull⟩ := (Value.stringVint msg.body).readsBack htook.inv
    (hfields _ (mem_append_right _ (mem_singleton.mpr rfl)))
    (by rw [htook.endian]; exact hh.right htook)
  rw [htook.position, htook.endian, htook.capacity, Nat.add_assoc, ← hlen,
    hpos, Nat.zero_add] at hok hnull
  have hfull := h.full (length_pos_iff.mpr msg.payload_ne)
  rw [RockMessage.length_payload hfit] at hfull hok hnull hfits hlen
  have hbodyEmpty : (Value.stringVint msg.body).text? = some [] ↔ msg.body = [] :=
    ⟨Option.some.inj, fun hb => congrArg some hb⟩
  rw [parsePayload_of_head hread]
  constructor
  · intro hgood
    obtain ⟨s₂, hs₂, -⟩ := hok fun htext => by
      have hndvd : ¬ msg.width = ba.m_capacity := fun hw =>
        hgood ⟨hbodyEmpty.mp htext, hfull.mp hw⟩
      omega
    refine ⟨s₂, ?_⟩
    have hbody' : parseBody s₁ = .ok msg.body s₂ := read_stringVint hs₂
    rw [bind_ok hbody', RockMessage.withBody_body]
    rfl
  · rintro ⟨hb, hdvd⟩
    obtain ⟨s₂, hs₂⟩ := hnull ⟨hbodyEmpty.mpr hb, hfull.mpr hdvd⟩
    have hbody' : parseBody s₁ = .error (.nullNode 0) s₂ := of_return_error Value.stringVint hs₂
    exact ⟨s₂, bind_error hbody'⟩

/-! ## The frame of a message -/

variable {t' : Transport} {later : List UInt8}

section Frame

variable {σ τ : Type} {Z : Zlib σ τ}

/-- What is relied on of zlib: the calling convention, that compressing something gives something,
and that `inflate` undoes `deflate`. -/
structure Works (Z : Zlib σ τ) where
  deflater : Interface Z.deflate Z_STREAM_ERROR
  inflater : Interface Z.inflate Z_STREAM_ERROR
  nonempty : ∀ {vs out}, Produces Z.deflate vs out → vs.flatten ≠ [] → out ≠ []
  inverts : Inverts Z.deflate Z.inflate

/-- An array through a fresh `ZlibStream`. -/
theorem throughZlib_spec {υ : Type} {M : Machine UInt8 υ} (hM : Interface M Z_STREAM_ERROR)
    (m_endian : Int8) {b : List UInt8} (h : Loaded defaultSize b ba) (hlen : b.length < 2 ^ 64) :
    ∃ n vs out ba', vs.flatten = b ∧ Produces M vs out ∧ Loaded defaultSize out ba'
      ∧ ∀ fuel, n ≤ fuel → ∀ t, throughZlib m_endian fuel M ba t = .ok (.done ba') t := by
  obtain ⟨iovs, hget, hflat⟩ := readPieces_spec h (show b.length ≤ 2 ^ 64 - 1 by omega)
  obtain ⟨n, out, z₁, z₂, hprod, hbuffs, -, hrun⟩ :=
    stream_spec hM (show 1 ≤ defaultSize by decide) (pieces ba.m_root iovs)
  obtain ⟨ba', hba, hloaded⟩ := getByteArray_spec m_endian z₂
  rw [hbuffs] at hloaded
  refine ⟨n, _, out, ba', hflat, hprod, hloaded, fun fuel hfuel t => ?_⟩
  obtain ⟨hpump, hflush⟩ := hrun fuel hfuel
  rw [throughZlib, bind_ok (onArray_ok hget t)]
  simp only [hpump, hflush, hba, ne_eq, not_true_eq_false, if_false]
  rfl

/-- The header and the bytes that follow it carry the message. -/
structure Framed (Z : Zlib σ τ) (msg : RockMessage) (header : RockMsgHeader)
    (wire : List UInt8) : Prop where
  magic : header.magic = s_rock_magic
  version : header.version = 1
  length : header.length = .ofNat wire.length
  coded : (header.flag = 0 ∧ wire = msg.payload)
    ∨ (header.flag = 1 ∧ ∃ vs, vs.flatten = msg.payload
        ∧ Produces Z.deflate vs wire)

theorem Framed.wire_ne (hZ : Works Z) (h : Framed Z msg header wire) : wire ≠ [] := by
  rcases h.coded with ⟨-, rfl⟩ | ⟨-, vs, hvs, hprod⟩
  · exact msg.payload_ne
  · exact hZ.nonempty hprod (by rw [hvs]; exact msg.payload_ne)

/-- The first half of `serializeTo` builds such a frame. -/
theorem frame_spec (hZ : Works Z) (cfg : RockConfig) (m_endian : Int8) (hfit : msg.Fits) :
    ∃ n header ba wire, Framed Z msg header wire ∧ Loaded defaultSize wire ba
      ∧ ∀ fuel, n ≤ fuel → ∀ t, frame cfg Z m_endian fuel msg t = .ok (.ok (header, ba)) t := by
  obtain ⟨s₁, hwrite, hwrote⟩ := writeAll_spec msg.fields
    (inv_new m_endian (show 1 ≤ defaultSize by decide))
  rw [← serializeToByteArray_eq] at hwrite
  rw [encodeAll_fields] at hwrote
  obtain ⟨s₂, hset, hloaded⟩ := Wrote.loaded hwrote
  have hsize : s₂.m_size = msg.payload.length := hloaded.data
  have hlt : msg.payload.length < 2 ^ 64 := by
    rw [RockMessage.length_payload hfit]
    exact hfit
  by_cases hzip : cfg.gzip_min_length ≤ (Int32.ofNat s₂.m_size).toUInt32
  · obtain ⟨n, vs, out, ba, hvs, hprod, hba, hrun⟩ :=
      throughZlib_spec hZ.deflater m_endian hloaded hlt
    refine ⟨n, { flag := 0 ||| 1, length := .ofNat ba.m_size }, ba, out, ⟨rfl, rfl, congrArg
      Int32.ofNat hba.data, Or.inr ⟨rfl, vs, hvs, hprod⟩⟩, hba, fun fuel hfuel t => ?_⟩
    rw [frame, bind_ok (onArray_ok hwrite t)]
    dsimp only
    rw [bind_ok (onArray_ok hset t)]
    simp only [if_pos hzip]
    rw [bind_ok (hrun fuel hfuel t)]
    rfl
  · refine ⟨0, { length := .ofNat s₂.m_size }, s₂, msg.payload, ⟨rfl, rfl, congrArg Int32.ofNat
      hsize, Or.inl ⟨rfl, rfl⟩⟩, hloaded, fun fuel _ t => ?_⟩
    rw [frame, bind_ok (onArray_ok hwrite t)]
    dsimp only
    rw [bind_ok (onArray_ok hset t)]
    simp only [if_neg hzip]
    rfl

theorem throughZlib_more_fuel {υ : Type} {M : Machine UInt8 υ} {m_endian : Int8}
    {fuel : Nat} (k : Nat) {r : ZResult} (h : throughZlib m_endian fuel M ba t = .ok r t') :
    throughZlib m_endian (fuel + k) M ba t = .ok r t' := by
  rw [throughZlib] at h ⊢
  cases hget : onArray (getReadBuffers (2 ^ 64 - 1)) ba t with
  | error e t₁ => rw [bind_error hget] at h; exact nomatch h
  | ok p t₁ =>
    rw [bind_ok hget] at h ⊢
    dsimp only at h ⊢
    cases hpump : pump M fuel false (pieces p.2.m_root p.1) (create M defaultSize) with
    | none => rw [hpump] at h; exact nomatch h
    | some q =>
      rw [hpump] at h
      rw [pump_more_fuel k hpump]
      dsimp only at h ⊢
      split at h
      · next hret => rw [if_pos hret]; exact h
      · next hret =>
          rw [if_neg hret]
          cases hflush : flush M fuel q.2 with
          | none => rw [hflush] at h; exact nomatch h
          | some q' =>
            rw [hflush] at h
            rw [show flush M (fuel + k) q.2 = some q' from pump_more_fuel k hflush]
            exact h

/-- Every frame that is built carries the message. -/
theorem framed_of_frame (hZ : Works Z) {cfg : RockConfig} {m_endian : Int8} (hfit : msg.Fits)
    {fuel : Nat} (h : frame cfg Z m_endian fuel msg t = .ok (.ok (header, ba)) t') :
    ∃ wire, Framed Z msg header wire ∧ Loaded defaultSize wire ba := by
  obtain ⟨n, header', ba', wire, hframed, hloaded, hrun⟩ := frame_spec hZ cfg m_endian hfit
  have hmore : frame cfg Z m_endian (fuel + n) msg t = .ok (.ok (header, ba)) t' := by
    rw [frame] at h ⊢
    cases hser : onArray (serializeToByteArray msg) (Bytearray.new defaultSize m_endian) t with
    | error e t₁ => rw [bind_error hser] at h; exact nomatch h
    | ok p t₁ =>
      rw [bind_ok hser] at h ⊢
      dsimp only at h ⊢
      cases hset : onArray (setPosition 0) p.2 t₁ with
      | error e t₂ => rw [bind_error hset] at h; exact nomatch h
      | ok q t₂ =>
        rw [bind_ok hset] at h ⊢
        split at h
        · next hzip =>
            rw [if_pos hzip]
            cases hz : throughZlib m_endian fuel Z.deflate q.2 t₂ with
            | error e t₃ => rw [bind_error hz] at h; exact nomatch h
            | ok r t₃ =>
              rw [bind_ok hz] at h
              rw [bind_ok (throughZlib_more_fuel n hz)]
              exact h
        · next hzip => rw [if_neg hzip]; exact h
  rw [hrun (fuel + n) (Nat.le_add_left ..) t] at hmore
  obtain ⟨hval, -⟩ := EStateM.Result.ok.inj hmore
  obtain ⟨rfl, rfl⟩ := Prod.mk.inj (Except.ok.inj hval)
  exact ⟨wire, hframed, hloaded⟩

/-- The bytes of a frame on the wire. -/
def wireBytes (header : RockMsgHeader) (wire : List UInt8) : List UInt8 :=
  header.swapped.bytes ++ wire

private theorem length_bytes (header : RockMsgHeader)
    (h : header.magic = s_rock_magic) : header.bytes.length = 8 := by
  rw [RockMsgHeader.bytes, h, length_append, length_cons, length_cons, length_toMem]
  rfl

/-- The second half of `serializeTo` puts the frame on the wire. -/
theorem sendFrame_spec (ht : Accepts t) (hmagic : header.magic = s_rock_magic)
    (h : Loaded defaultSize wire ba) (hne : wire ≠ []) (hlen : wire.length < 2 ^ 31) :
    ∃ t', sendFrame header ba t = .ok (intOf (8 + wire.length)) t'
      ∧ t'.sent = t.sent ++ wireBytes header wire ∧ Accepts t' := by
  have hpos := length_pos_iff.mpr hne
  have hhead := length_bytes header.swapped hmagic
  obtain ⟨t₁, hw₁, hsent₁, hacc₁, -⟩ := writeFixSize_spec ht
    (show header.swapped.bytes.length < 2 ^ 64 by rw [hhead]; decide)
  obtain ⟨t₂, ba', hw₂, htook, hsent₂, hacc₂, -⟩ :=
    writeFixSizeArray_spec hacc₁ h.inv h.holds (by omega)
  refine ⟨t₂, ?_, ?_, hacc₂⟩
  · have hsize : ba.getReadSize = wire.length := by
      rw [Bytearray.getReadSize, h.position, h.data, Nat.sub_zero]
    rw [hhead] at hw₁
    rw [sendFrame, bind_ok hw₁, if_neg (by decide), hsize, bind_ok hw₂, intOf_of_lt hlen]
    dsimp only
    rw [if_neg (by omega), htook.data, h.data]
    rfl
  · rw [hsent₂, hsent₁, append_assoc, wireBytes]

/-- A header in memory is that header. -/
theorem ofBytes_bytes (header : RockMsgHeader) (h : header.magic = s_rock_magic) :
    RockMsgHeader.ofBytes header.bytes = header := by
  obtain ⟨magic, version, flag, length⟩ := header
  obtain rfl : magic = s_rock_magic := h
  show RockMsgHeader.mk _ _ _ (.ofBitVec (ofMem 4 (toMem 4 length.toBitVec))) = _
  rw [ofMem_toMem]
  rfl

theorem swapped_swapped (header : RockMsgHeader) : header.swapped.swapped = header := by
  obtain ⟨magic, version, flag, length⟩ := header
  show RockMsgHeader.mk magic version flag (.ofBitVec (byteswap 4 (byteswap 4 length.toBitVec))) = _
  rw [byteswap_byteswap]
  rfl

/-- The payload of a frame, decompressed if need be. -/
theorem inflated_spec (hZ : Works Z) (m_endian : Int8) (h : Framed Z msg header wire)
    (hba : Loaded defaultSize wire ba) (hlen : wire.length < 2 ^ 31) :
    ∃ n ba', Loaded defaultSize msg.payload ba' ∧ ∀ fuel, n ≤ fuel → ∀ t,
          inflated Z m_endian fuel header ba t = .ok (some ba') t := by
  rcases h.coded with ⟨hflag, rfl⟩ | ⟨hflag, vs, hvs, hprod⟩
  · refine ⟨0, ba, hba, fun fuel _ t => ?_⟩
    rw [inflated, hflag, if_neg (by decide)]
    rfl
  · obtain ⟨n, vs', out, ba', hvs', hprod', hba', hrun⟩ :=
      throughZlib_spec hZ.inflater m_endian hba (by omega)
    have hout : out = msg.payload := by
      rw [hZ.inverts vs wire hprod vs' out hvs' hprod', hvs]
    subst hout
    refine ⟨n, ba', hba', fun fuel hfuel t => ?_⟩
    rw [inflated, hflag, if_pos (by decide), bind_ok (hrun fuel hfuel t)]
    rfl

/-- `parseFrame` up to the payload: what follows a good header is read, inflated if that can be,
and parsed. -/
theorem parseFrame_spec {cfg : RockConfig} (hmax : cfg.max_length.toNat ≤ 2 ^ 31) (m_endian : Int8)
    (hmagic : header.magic = s_rock_magic) (hversion : header.version = 1)
    (hlength : header.length = .ofNat wire.length) (hne : wire ≠ [])
    (hlen : wire.length < cfg.max_length.toNat) (ht : Delivers t (wireBytes header wire ++ later)) :
    ∃ t' ba, Delivers t' later ∧ Loaded defaultSize wire ba
      ∧ ∀ fuel ba', inflated Z m_endian fuel header ba t' = .ok (some ba') t' →
          parseFrame cfg Z m_endian fuel t
            = (do let (msg, _) ← onArray parsePayload ba'
                  return msg : StreamM _) t' := by
  have hpos := length_pos_iff.mpr hne
  have hhead := length_bytes header.swapped hmagic
  rw [wireBytes, append_assoc] at ht
  obtain ⟨t₁, hread₁, hdel₁, -⟩ := readFixSize_spec
    (replicate 8 0) ht (by rw [hhead]; rfl) (by rw [hhead]; decide)
  obtain ⟨t₂, s₁, hread₂, hwrote, hdel₂, -⟩ := readFixSizeArray_spec
    (inv_new m_endian (show 1 ≤ defaultSize by decide)) hdel₁ (by omega)
  obtain ⟨s₂, hset, hloaded⟩ := Wrote.loaded hwrote
  have hu32 : (header.length.toUInt32).toNat = wire.length := by
    rw [hlength]
    exact UInt32.toNat_ofNat_of_lt'
      (Nat.lt_of_lt_of_le (show wire.length < 2 ^ 31 by omega) (by decide))
  have hint : sizeT header.length.toInt = wire.length := by
    rw [hlength]
    exact (congrArg sizeT (intOf_of_lt (by omega))).trans (sizeT_natCast (by omega))
  refine ⟨t₂, s₂, hdel₂, hloaded, fun fuel ba' hinfl => ?_⟩
  rw [parseFrame, bind_ok hread₁]
  simp only [ofBytes_bytes header.swapped hmagic, swapped_swapped, hhead]
  have hbelow : ¬ cfg.max_length ≤ header.length.toUInt32 := by
    rw [UInt32.le_iff_toNat_le, hu32]
    omega
  have hmagic' : header.swapped.magic = s_rock_magic := hmagic
  have hversion' : header.swapped.version = 1 := hversion
  rw [if_neg (by decide), if_neg (not_not.mpr hmagic'),
    if_neg (not_not.mpr hversion'), if_neg hbelow, hint, bind_ok hread₂]
  dsimp only
  rw [intOf_of_lt (by omega), if_neg (by omega), bind_ok (onArray_ok hset t₂)]
  dsimp only
  rw [bind_ok hinfl]

/-- `parseFrom` on the bytes of a frame, however they are cut. -/
theorem parseFrom_spec (hZ : Works Z) {cfg : RockConfig} (hmax : cfg.max_length.toNat ≤ 2 ^ 31)
    (m_endian : Int8) (hfit : msg.Fits) (h : Framed Z msg header wire)
    (hlen : wire.length < cfg.max_length.toNat) (ht : Delivers t (wireBytes header wire ++ later)) :
    ∃ n t', Delivers t' later ∧ ∀ fuel, n ≤ fuel → (¬ msg.EndsBlock →
            parseFrom cfg Z m_endian fuel t = .ok (some msg) t')
          ∧ (msg.EndsBlock → parseFrom cfg Z m_endian fuel t
            = .error (.array (.nullNode 0)) t') := by
  obtain ⟨t', ba, hdel, hloaded, hframe⟩ := parseFrame_spec hmax m_endian h.magic
    h.version h.length (h.wire_ne hZ) hlen ht
  obtain ⟨n, ba', hba', hinfl⟩ := inflated_spec hZ m_endian h hloaded (by omega)
  obtain ⟨hok, hnull⟩ := parsePayload_spec hfit hba'
  refine ⟨n, t', hdel, fun fuel hfuel => ?_⟩
  have hrun := hframe fuel ba' (hinfl fuel hfuel t')
  constructor
  · intro hgood
    obtain ⟨s, hparse⟩ := hok hgood
    rw [parseFrom, hrun, bind_ok (onArray_ok hparse t')]
    rfl
  · intro hbad
    obtain ⟨s, hparse⟩ := hnull hbad
    have harr : onArray parsePayload ba' t' = .error (.array (.nullNode 0)) t' := by
      rw [onArray, hparse]
    rw [parseFrom, hrun, bind_error harr]

/-! ## Lists of messages -/

/-- Whatever frame is built for the message, what follows its header is below
`rock.protocol.max_length`. -/
def FramedBelow (cfg : RockConfig) (Z : Zlib σ τ) (m_endian : Int8)
    (msg : RockMessage) : Prop :=
  ∀ fuel t t' header ba,
    frame cfg Z m_endian fuel msg t = .ok (.ok (header, ba)) t' →
      ba.m_size < cfg.max_length.toNat

/-- The frames of the messages, one behind the other. -/
inductive Frames (Z : Zlib σ τ) (max_length : Nat) :
    List RockMessage → List UInt8 → Prop
  | nil : Frames Z max_length [] []
  | cons {msg : RockMessage} {msgs : List RockMessage}
      {header : RockMsgHeader} {wire bs : List UInt8}
      (h : Framed Z msg header wire) (hlen : wire.length < max_length)
      (rest : Frames Z max_length msgs bs) :
      Frames Z max_length (msg :: msgs) (wireBytes header wire ++ bs)

/-- Writing back to back. -/
theorem serializeAll_spec (hZ : Works Z) {cfg : RockConfig}
    (hmax : cfg.max_length.toNat ≤ 2 ^ 31) (m_endian : Int8)
    (msgs : List RockMessage) (hfit : ∀ m ∈ msgs, m.Fits)
    (hbelow : ∀ m ∈ msgs, FramedBelow cfg Z m_endian m) :
    ∃ n, ∀ fuel, n ≤ fuel → ∀ {t : Transport}, Accepts t →
      ∃ rts t' bs, serializeAll cfg Z m_endian fuel msgs t = .ok rts t'
        ∧ t'.sent = t.sent ++ bs ∧ Frames Z cfg.max_length.toNat msgs bs := by
  induction msgs with
  | nil =>
    refine ⟨0, fun fuel _ t _ => ?_⟩
    exact ⟨[], t, [], rfl, (append_nil _).symm, Frames.nil⟩
  | cons msg msgs ih =>
    obtain ⟨n₁, header, ba, wire, hframed, hloaded, hframe⟩ := frame_spec hZ cfg
      m_endian (hfit msg (mem_cons_self ..))
    obtain ⟨n₂, hrest⟩ := ih (fun m hm => hfit m (mem_cons_of_mem _ hm))
      (fun m hm => hbelow m (mem_cons_of_mem _ hm))
    refine ⟨max n₁ n₂, fun fuel hfuel t ht => ?_⟩
    have hf := hframe fuel (by omega) t
    have hlen : wire.length < cfg.max_length.toNat := by
      rw [← hloaded.data]
      exact hbelow msg (mem_cons_self ..) _ _ _ _ _ hf
    obtain ⟨t₁, hsend, hsent₁, hacc₁⟩ := sendFrame_spec ht hframed.magic hloaded
      (hframed.wire_ne hZ) (by omega)
    obtain ⟨rts, t₂, bs, hall, hsent₂, hframes⟩ := hrest fuel (by omega) hacc₁
    have hone : serializeTo cfg Z m_endian fuel msg t = .ok (intOf (8 + wire.length)) t₁ := by
      rw [serializeTo, bind_ok hf]
      exact hsend
    refine ⟨intOf (8 + wire.length) :: rts, t₂, wireBytes header wire ++ bs, ?_, ?_,
      Frames.cons hframed hlen hframes⟩
    · rw [serializeAll, bind_ok hone, bind_ok hall]
      rfl
    · rw [hsent₂, hsent₁, append_assoc]

/-- Reading back: all messages, or the null node at the first one that
ends a block with an empty body. -/
theorem parseAll_spec (hZ : Works Z) {cfg : RockConfig} (hmax : cfg.max_length.toNat ≤ 2 ^ 31)
    (m_endian : Int8) {msgs : List RockMessage} {bs : List UInt8}
    (h : Frames Z cfg.max_length.toNat msgs bs) (hfit : ∀ m ∈ msgs, m.Fits) (ht : Delivers t bs) :
    ∃ n, ∀ fuel, n ≤ fuel → ((∀ m ∈ msgs, ¬ m.EndsBlock) → ∃ t',
        parseAll cfg Z m_endian fuel msgs.length t = .ok (msgs.map some) t')
      ∧ ((∃ m ∈ msgs, m.EndsBlock) → ∃ t', parseAll cfg Z m_endian fuel msgs.length t
          = .error (.array (.nullNode 0)) t') := by
  induction h generalizing t with
  | nil =>
    refine ⟨0, fun fuel _ => ⟨fun _ => ⟨t, rfl⟩, ?_⟩⟩
    rintro ⟨m, hm, -⟩
    exact absurd hm not_mem_nil
  | @cons msg msgs header wire bs hframed hlen _ ih =>
    obtain ⟨n₁, t₁, hdel, hone⟩ := parseFrom_spec hZ hmax m_endian
      (hfit msg (mem_cons_self ..)) hframed hlen ht
    obtain ⟨n₂, hrest⟩ := ih (fun m hm => hfit m (mem_cons_of_mem _ hm)) hdel
    refine ⟨max n₁ n₂, fun fuel hfuel => ?_⟩
    obtain ⟨hok, hnull⟩ := hone fuel (by omega)
    obtain ⟨hoks, hnulls⟩ := hrest fuel (by omega)
    rw [length_cons, parseAll]
    constructor
    · intro hgood
      obtain ⟨t₂, hall⟩ := hoks fun m hm => hgood m (mem_cons_of_mem _ hm)
      refine ⟨t₂, ?_⟩
      rw [bind_ok (hok (hgood msg (mem_cons_self ..))), bind_ok hall]
      rfl
    · intro hbad
      by_cases hmsg : msg.EndsBlock
      · exact ⟨t₁, bind_error (hnull hmsg)⟩
      · obtain ⟨m, hm, hends⟩ := hbad
        rcases mem_cons.mp hm with rfl | hm
        · exact absurd hends hmsg
        · obtain ⟨t₂, hall⟩ := hnulls ⟨m, hm, hends⟩
          exact ⟨t₂, by rw [bind_ok (hok hmsg), bind_error hall]⟩

/-- **The framing round trip.** Messages written back to back, in whatever parts, are read back
field by field from the same bytes in any segmentation, EXACTLY when no message ends a block with an
empty body. -/
theorem messages_read_back_iff (hZ : Works Z) {cfg : RockConfig}
    (hmax : cfg.max_length.toNat ≤ 2 ^ 31) (e e' : Int8)
    {msgs : List RockMessage} (hfit : ∀ m ∈ msgs, m.Fits)
    (hbelow : ∀ m ∈ msgs, FramedBelow cfg Z e m) {t : Transport}
    (ht : Accepts t) (hfresh : t.sent = []) :
    ∃ n, ∀ fuel, n ≤ fuel → ∃ rts t', serializeAll cfg Z e fuel msgs t = .ok rts t'
      ∧ ∀ t₀, Delivers t₀ t'.sent → ∃ n', ∀ fuel', n' ≤ fuel' →
          ((∃ t'', parseAll cfg Z e' fuel' msgs.length t₀ = .ok (msgs.map some) t'')
            ↔ ∀ m ∈ msgs, ¬ m.EndsBlock) := by
  obtain ⟨n, hwrite⟩ := serializeAll_spec hZ hmax e msgs hfit hbelow
  refine ⟨n, fun fuel hfuel => ?_⟩
  obtain ⟨rts, t', bs, hrun, hsent, hframes⟩ := hwrite fuel hfuel ht
  rw [hfresh, nil_append] at hsent
  refine ⟨rts, t', hrun, fun t₀ ht₀ => ?_⟩
  rw [hsent] at ht₀
  obtain ⟨n', hread⟩ := parseAll_spec hZ hmax e' hframes hfit ht₀
  refine ⟨n', fun fuel' hfuel' => ⟨?_, (hread fuel' hfuel').1⟩⟩
  rintro ⟨t'', hok⟩ m hm hends
  obtain ⟨t₁, hfault⟩ := (hread fuel' hfuel').2 ⟨m, hm, hends⟩
  rw [hok] at hfault
  exact nomatch hfault

end Frame

/-! ## On a codec that copies -/

/-- A stand-in for zlib whose compressed form is the input itself. -/
def copyZlib : Zlib (List UInt8) (List UInt8) := ⟨copier UInt8, copier UInt8⟩

def copyZlib_works : Works copyZlib where
  deflater := copierInterface UInt8 (by decide)
  inflater := copierInterface UInt8 (by decide)
  nonempty h hne := by
    rw [copier_produces h]
    exact hne
  inverts := copier_inverts

theorem copyZlib_framedBelow {cfg : RockConfig} (e : Int8) (hfit : msg.Fits)
    (hw : msg.width < cfg.max_length.toNat) : FramedBelow cfg copyZlib e msg := by
  intro fuel t t' header ba h
  obtain ⟨wire, hframed, hloaded⟩ := framed_of_frame copyZlib_works hfit h
  have hwire : wire = msg.payload := by
    rcases hframed.coded with ⟨-, hw⟩ | ⟨-, vs, hvs, hprod⟩
    · exact hw
    · rw [copier_produces hprod, hvs]
  rw [hloaded.data, hwire, RockMessage.length_payload hfit]
  exact hw

/-- Three messages with empty bodies and an empty result string, sent in
pieces. -/
theorem messages_read_back_iff_three : let msgs : List RockMessage :=
      [.request 1 300 [0x68, 0x69], .notify 7 [], .response 1 300 0 [] []]
    ∃ n, ∀ fuel, n ≤ fuel → ∃ rts t',
      serializeAll {} copyZlib 1 fuel msgs ⟨true, [], [3, 1, 2], []⟩ = .ok rts t'
      ∧ ∀ t₀, Delivers t₀ t'.sent → ∃ n', ∀ fuel', n' ≤ fuel' →
          ∃ t'', parseAll {} copyZlib 2 fuel' 3 t₀ = .ok (msgs.map some) t'' := by
  intro msgs
  have hfit : ∀ m ∈ msgs, m.width < 100 := by decide
  have hmax : (RockConfig.max_length {}).toNat = 2 ^ 26 := by decide
  have haccepts : Accepts ⟨true, [], [3, 1, 2], []⟩ := ⟨rfl, by decide⟩
  have hfits : ∀ m ∈ msgs, m.Fits := fun m hm =>
    Nat.lt_trans (hfit m hm) (by decide)
  obtain ⟨n, hwrite⟩ := messages_read_back_iff copyZlib_works (by rw [hmax]; decide) 1 2 hfits
    (fun m hm => copyZlib_framedBelow 1 (hfits m hm)
      (Nat.lt_trans (hfit m hm) (by rw [hmax]; decide))) haccepts rfl
  refine ⟨n, fun fuel hfuel => ?_⟩
  obtain ⟨rts, t', hrun, hread⟩ := hwrite fuel hfuel
  refine ⟨rts, t', hrun, fun t₀ ht₀ => ?_⟩
  obtain ⟨n', hiff⟩ := hread t₀ ht₀
  exact ⟨n', fun fuel' hfuel' => (hiff fuel' hfuel').mpr (by decide)⟩

/-- A payload of 4096 bytes with an empty body: reading it back dereferences the null node. -/
theorem empty_body_at_block_end :
    let msg := RockMessage.response 0 0 0 (List.replicate 4089 0x61) []
    FramedBelow {} copyZlib 1 msg ∧ ∃ n, ∀ fuel, n ≤ fuel → ∃ rts t',
          serializeAll {} copyZlib 1 fuel [msg] ⟨true, [], [], []⟩ = .ok rts t'
          ∧ ∃ n', ∀ fuel', n' ≤ fuel' → ∃ t'',
              parseAll {} copyZlib 1 fuel' 1 ⟨true, [.bytes t'.sent], [], []⟩
                = .error (.array (.nullNode 0)) t'' := by
  intro msg
  have hwidth : msg.width = 4096 := by
    show 1 + (lebLength 0 + (lebLength 0 + (lebLength 0 + ((lebLength (replicate 4089 (0x61 :
      UInt8)).length + (replicate 4089 (0x61 : UInt8)).length) + ((lebLength 0 + 0) + 0))))) = 4096
    rw [length_replicate]
    decide
  have hmax : (RockConfig.max_length {}).toNat = 2 ^ 26 := by decide
  have hfit : msg.Fits := by rw [RockMessage.Fits, hwidth]; decide
  have hfits : ∀ m ∈ [msg], m.Fits := by
    intro m hm
    rw [mem_singleton.mp hm]
    exact hfit
  have hbelow : FramedBelow {} copyZlib 1 msg :=
    copyZlib_framedBelow 1 hfit (by rw [hwidth, hmax]; decide)
  refine ⟨hbelow, ?_⟩
  obtain ⟨n, hwrite⟩ := serializeAll_spec copyZlib_works (by rw [hmax]; decide) 1
    [msg] hfits (by intro m hm; rw [mem_singleton.mp hm]; exact hbelow)
  refine ⟨n, fun fuel hfuel => ?_⟩
  have haccepts : Accepts ⟨true, [], [], []⟩ := ⟨rfl, by decide⟩
  obtain ⟨rts, t', bs, hrun, hsent, hframes⟩ := hwrite fuel hfuel haccepts
  refine ⟨rts, t', hrun, ?_⟩
  have hbs : bs ≠ [] := by
    cases hframes with
    | cons hframed _ _ =>
      exact append_ne_nil_of_left_ne_nil
        (append_ne_nil_of_right_ne_nil _ (hframed.wire_ne copyZlib_works)) _
  have hdel : Delivers ⟨true, [.bytes t'.sent], [], []⟩ bs := by
    refine ⟨rfl, [bs], ?_, by simpa using hbs, flatten_singleton⟩
    rw [hsent]
    rfl
  obtain ⟨n', hread⟩ := parseAll_spec copyZlib_works (by rw [hmax]; decide) 1 hframes hfits hdel
  refine ⟨n', fun fuel' hfuel' => (hread fuel' hfuel').2 ⟨msg, ?_, rfl, ?_⟩⟩
  · exact mem_singleton.mpr rfl
  · rw [hwidth]
    decide

end SylarRockProtocol
