import Sylar.HttpBodyProofs
import Sylar.HttpFramingProofs

/-! # The limit for the body (`http_parser.cc`, `http_session.cc`, `http_connection.cc`)

`http.request.body_size` and `http.response.body_size` are configured, and
`GetHttpRequestMaxBodySize` and `GetHttpResponseMaxBodySize` return them, but neither
`recvRequest` nor `recvResponse` asks.  The string for the body gets the length the peer
announces; an announced length that is negative as an `int64_t`, or does not fit into a
`uint64_t`, counts as no body, and the message is accepted.  Chunks are appended as they
come.

* **`body_limit_iff`** — a message is kept within a limit exactly if the text of its
  `Content-Length`, or the sum of the sizes of its chunks, is. -/

namespace SylarHttpBody

open SylarBytearray SylarStream SylarHttp HttpFraming

/-- The value of a text of digits, whatever its size. -/
def digitsValue (v : List UInt8) : Option Nat := if v = [] then none else decimal v 0

/-- The length that a `Content-Length` field announces: digits, and nothing else. -/
def announcedLength (found : Option (List UInt8)) : Nat :=
  match found with
  | none => 0
  | some v => (digitsValue v).getD 0

/-- A `Content-Length` text is within the limit: as digits, or else as what the cast makes of it. -/
def TextWithin [LexicalCast] (limit : Nat) (v : List UInt8) : Prop :=
  match digitsValue v with
  | some n => n ≤ limit
  | none => ∀ x, LexicalCast.lexical_cast v = some x → x.toInt64.toInt ≤ limit

/-- The sum of the announced sizes: a size in front of a line, so many bytes and a line break, up to
size zero. -/
def announcedChunks : Nat → List UInt8 → Nat
  | 0, _ => 0
  | fuel + 1, stream =>
    let size := SylarHttpClient.hexDigits stream
    if size = 0 then 0
    else
      let payload := (stream.dropWhile (· != LF)).drop 1
      size + announcedChunks fuel (payload.drop (size + 2))

/-- How many bytes a message announces for its body, and how long the string for it gets. -/
structure BodyUse where
  announced : Nat
  allocated : Nat

/-- A body that does not come in chunks: `body.resize(length)`, if the length is positive. -/
def fixedUse (found : Option (List UInt8)) (length : UInt64) : BodyUse :=
  ⟨announcedLength found, length.toInt64.toInt.toNat⟩

/-- The text of the `Content-Length` field of a request whose head is read. -/
def requestText (m : SylarHttp.Memory) (t : Transport) : Option (List UInt8) :=
  match SylarHttp.recvLoop (t.work + 1) (.new m.m_error m.uri_relaxed m.query_start) m.buffer 0
      t with
  | .ok (some (s, _, _)) _ => s.m_data.m_headers.lookup (bytes "content-length")
  | _ => none

/-- The same of a response. -/
def responseText (m : SylarHttpClient.Memory) (t : Transport) : Option (List UInt8) :=
  match SylarHttpClient.recvHead (t.work + 1) (.new m.m_error m.m_websocket) m.buffer 0 t with
  | .ok (some (s, _, _)) _ => s.m_data.m_headers.lookup (bytes "content-length")
  | _ => none

/-- A request. -/
def requestUse [LexicalCast] (m : SylarHttp.Memory) (t : Transport) : BodyUse :=
  match SylarHttp.recvLoop (t.work + 1) (.new m.m_error m.uri_relaxed m.query_start) m.buffer 0
      t with
  | .ok (some (s, _, _)) _ =>
    fixedUse (s.m_data.m_headers.lookup (bytes "content-length")) s.getContentLength
  | _ => ⟨0, 0⟩

/-- The length the string gets in the loop over the chunks. -/
def chunksLength : Nat → SylarHttpClient.HttpResponseParser → List UInt8 → Nat →
    List UInt8 → Transport → Nat
  | 0, _, _, _, body, _ => body.length
  | fuel + 1, parser, data, len, body, t =>
    match SylarHttpClient.recvSize (t.work + 1) parser data len t with
    | .ok (some (parser, data, len)) t =>
        match SylarHttpClient.takePayload parser.content_len data (len - 2) body t with
        | .ok (some (body, data, len)) t =>
            if parser.chunks_done then body.length
            else chunksLength fuel parser data len body t
        | _ => body.length
    | _ => body.length

/-- A response. -/
def responseUse [LexicalCast] (m : SylarHttpClient.Memory) (t : Transport) : BodyUse :=
  match SylarHttpClient.recvHead (t.work + 1) (.new m.m_error m.m_websocket) m.buffer 0 t with
  | .ok (some (s, data, offset)) t =>
    if s.chunked then
      let stream := data.take offset ++ arriving t
      ⟨announcedChunks stream.length stream,
        chunksLength (t.work + 1) s data offset [] t⟩
    else fixedUse (s.m_data.m_headers.lookup (bytes "content-length")) s.getContentLength
  | _ => ⟨0, 0⟩

/-- The head of the response says that the body comes in chunks. -/
def InChunks (m : SylarHttpClient.Memory) (t : Transport) : Prop :=
  ∃ s data offset t₁, SylarHttpClient.recvHead (t.work + 1) (.new m.m_error m.m_websocket)
    m.buffer 0 t = .ok (some (s, data, offset)) t₁ ∧ s.chunked = true

/-- The string for the body gets no longer than the limit, and a message that announces more is
answered by the null pointer. -/
structure Limited {ε α : Type} (limit : Nat) (use : BodyUse)
    (res : EStateM.Result ε Transport (Option α)) : Prop where
  allocated : use.allocated ≤ limit
  rejected : limit < use.announced → ∃ t', res = .ok none t'

/-! ## A body of fixed length -/

variable {limit : Nat} {m : SylarHttpClient.Memory} {t : Transport}

/-- A text of digits: the string gets its value, if that is positive as an `int64_t`. -/
theorem length_digits [LexicalCast] {v : List UInt8} {n : Nat} (h : digitsValue v = some n) :
    (n < 2 ^ 63 ∧ (lengthOf (some v)).toInt64.toInt = n)
      ∨ (lengthOf (some v)).toInt64.toInt ≤ 0 := by
  have hne : v ≠ [] := by
    rintro rfl
    cases h
  rw [digitsValue, if_neg hne] at h
  rw [lengthOf, LexicalCast.digits hne h]
  by_cases hfits : 2 ^ 64 ≤ n
  · rw [if_pos hfits]
    exact Or.inr (by decide)
  · have hnat : (UInt64.ofNat n).toNat = n :=
      UInt64.toNat_ofNat_of_lt' (Nat.lt_of_not_le hfits)
    rw [if_neg hfits, Option.getD_some]
    by_cases hpos : n < 2 ^ 63
    · exact Or.inl ⟨hpos, by rw [toInt64_of_lt (by omega), hnat]⟩
    · exact Or.inr (toInt64_of_le (by omega)).le

/-- Without a length nothing is announced and nothing allocated. -/
theorem limited_none [LexicalCast] {ε α : Type} (limit : Nat)
    (res : EStateM.Result ε Transport (Option α)) :
    Limited limit ⟨0, 0⟩ res ↔ ∀ v ∈ (none : Option (List UInt8)), TextWithin limit v :=
  iff_of_true ⟨Nat.zero_le _, fun h => absurd h (Nat.not_lt_zero _)⟩
    fun v hv => absurd hv (Option.not_mem_none v)

/-- What a call does with a body of fixed length: a length that counts as none is accepted. -/
theorem limited_fixed [LexicalCast] {ε α : Type} {found : Option (List UInt8)}
    {res : EStateM.Result ε Transport (Option α)}
    (hnone : (lengthOf found).toInt64.toInt ≤ 0 → ∃ a t', res = .ok (some a) t') :
    Limited limit (fixedUse found (lengthOf found)) res ↔ ∀ v ∈ found, TextWithin limit v := by
  cases found with
  | none => exact limited_none limit res
  | some v =>
    have hall : (∀ w ∈ some v, TextWithin limit w) ↔ TextWithin limit v := by simp
    rw [hall, TextWithin]
    cases hvalue : digitsValue v with
    | some n =>
      have hannounced : (fixedUse (some v) (lengthOf (some v))).announced = n := by
        rw [fixedUse, announcedLength, hvalue, Option.getD_some]
      have hcases := length_digits hvalue
      constructor
      · intro h
        have halloc : (lengthOf (some v)).toInt64.toInt.toNat ≤ limit := h.allocated
        by_contra hmore
        -- more than the limit would have been allocated, or it counts as no body
        have hlength : (lengthOf (some v)).toInt64.toInt ≤ 0 := by
          show _ ≤ _
          omega
        obtain ⟨a, t₁, hsome⟩ := hnone hlength
        obtain ⟨t₂, hnull⟩ := h.rejected (by rw [hannounced]; exact Nat.lt_of_not_le hmore)
        rw [hsome] at hnull
        cases hnull
      · intro hle
        have halloc : (lengthOf (some v)).toInt64.toInt.toNat ≤ limit := by
          dsimp only at hle
          omega
        refine ⟨halloc, fun hmore => absurd hle ?_⟩
        rw [hannounced] at hmore
        exact Nat.not_le_of_lt hmore
    | none =>
      have hannounced : (fixedUse (some v) (lengthOf (some v))).announced = 0 := by
        rw [fixedUse, announcedLength, hvalue]
        rfl
      have hlimited : Limited limit (fixedUse (some v) (lengthOf (some v))) res
          ↔ (lengthOf (some v)).toInt64.toInt.toNat ≤ limit := by
        refine ⟨fun h => h.allocated, fun h => ⟨h, fun hmore => ?_⟩⟩
        rw [hannounced] at hmore
        exact absurd hmore (Nat.not_lt_zero _)
      rw [hlimited, lengthOf]
      cases LexicalCast.lexical_cast v with
      | none => exact iff_of_true (Nat.zero_le _) (by simp)
      | some x =>
        show x.toInt64.toInt.toNat ≤ limit ↔ _
        rw [Int.toNat_le]
        exact ⟨fun h y hy => Option.some_inj.mp hy ▸ h, fun h => h x rfl⟩

theorem limited_request [LexicalCast] (limit : Nat) (m : SylarHttp.Memory) (t : Transport) :
    Limited limit (requestUse m t) (recvRequest m t)
      ↔ ∀ v ∈ requestText m t, TextWithin limit v := by
  rw [requestUse, requestText]
  split
  · next s data offset t₁ hloop =>
    refine limited_fixed fun hlength => ?_
    have hnone : ¬ 0 < s.getContentLength.toInt64.toInt := Int.not_lt.mpr hlength
    rw [recvRequest_eq, bind_ok hloop]
    show ∃ a t', SylarHttp.recvBody s.m_data s.getContentLength.toInt64.toInt data offset t₁ = _
    rw [SylarHttp.recvBody, if_neg hnone]
    exact ⟨_, _, rfl⟩
  · exact limited_none limit _

/-! ## Responses -/

theorem limited_response [LexicalCast] (hchunks : ¬ InChunks m t) :
    Limited limit (responseUse m t) (SylarHttpClient.recvResponse m t)
      ↔ ∀ v ∈ responseText m t, TextWithin limit v := by
  rw [responseUse, responseText]
  split
  · next s data offset t₁ hhead =>
    have hfixed : ¬ s.chunked = true := fun h => hchunks ⟨s, data, offset, t₁, hhead, h⟩
    rw [if_neg hfixed]
    refine limited_fixed fun hlength => ?_
    have hnone : ¬ 0 < s.getContentLength.toInt64.toInt := Int.not_lt.mpr hlength
    rw [SylarHttpClient.recvResponse_eq, bind_ok hhead]
    dsimp only
    rw [if_neg hfixed, SylarHttpClient.recvBody, if_neg hnone]
    exact ⟨_, _, rfl⟩
  · exact limited_none limit _

/-- The string is the body when the loop over the chunks ends. -/
theorem chunksLength_eq (fuel : Nat) {s s' : SylarHttpClient.HttpResponseParser}
    {data body body' : List UInt8} {len : Nat} {t t' : Transport}
    (h : SylarHttpClient.recvChunks fuel s data len body t = .ok (some (s', body')) t') :
    chunksLength fuel s data len body t = body'.length := by
  induction fuel generalizing s s' data body body' len t t' with
  | zero =>
    cases h
  | succ fuel ih =>
    rw [SylarHttpClient.recvChunks] at h
    obtain ⟨_, _, hget, hrun⟩ := of_bind_ok h
    cases hget
    obtain ⟨size, t₁, hsize, hrest⟩ := of_bind_ok hrun
    rw [chunksLength, hsize]
    cases size with
    | none => cases hrest
    | some x =>
      obtain ⟨s₁, data₁, len₁⟩ := x
      dsimp only at hrest ⊢
      obtain ⟨payload, t₂, hpayload, hend⟩ := of_bind_ok hrest
      rw [hpayload]
      cases payload with
      | none => cases hend
      | some y =>
        obtain ⟨body₁, data₂, len₂⟩ := y
        dsimp only at hend ⊢
        split at hend
        · next hdone =>
          cases hend
          rw [if_pos hdone]
        · next hdone =>
          rw [if_neg hdone]
          exact ih hend

/-! ## Chunks -/

section Chunks

open SylarHttpClient List

variable {c last : Chunk} {chunks : List Chunk}

/-- A size line, with its payload behind the line feed. -/
theorem chunk_text (hc : c.Valid) (rest : List UInt8) :
    hexDigits (c.text ++ rest) = c.payload.length
      ∧ ((c.text ++ rest).dropWhile (· != LF)).drop 1 = c.payload ++ (CRLF ++ rest) := by
  have htext : c.text ++ rest = c.size ++ CR :: (LF :: (c.payload ++ (CRLF ++ rest))) := by
    simp only [Chunk.text, append_assoc]
    rfl
  have hstop : ∀ (x : UInt8) (ys : List UInt8),
      CR :: (LF :: (c.payload ++ (CRLF ++ rest))) = x :: ys → xdigit x = false := by
    rintro _ _ ⟨⟩
    rfl
  have hdigit : ∀ x ∈ c.size, (x != LF) = true := by
    intro x hx
    refine bne_iff_ne.mpr ?_
    rintro rfl
    cases hc.digits LF hx
  rw [htext]
  constructor
  · rw [hexDigits, leadingDigits_append xdigitValue 16 hstop _ _ hc.digits]
    exact hc.length
  · rw [dropWhile_append_of_pos hdigit]
    rfl

/-- Chunks announce the sum of their sizes. -/
theorem announcedChunks_eq (hlast : last.Valid) (hend : last.payload = [])
    (hchunks : ∀ c ∈ chunks, c.Valid ∧ c.payload ≠ []) {fuel : Nat}
    (hfuel : chunks.length ≤ fuel) :
    announcedChunks fuel ((chunks ++ [last]).map Chunk.text).flatten
      = (chunks.map fun c => c.payload.length).sum := by
  induction chunks generalizing fuel with
  | nil =>
    cases fuel with
    | zero => rfl
    | succ fuel =>
      have hsize : hexDigits (last.text ++ []) = 0 := by
        rw [(chunk_text hlast []).1, hend]
        rfl
      rw [nil_append, map_singleton, flatten_cons, flatten_nil, announcedChunks, if_pos hsize]
      rfl
  | cons c chunks ih =>
    obtain ⟨⟨hc, hne⟩, hchunks⟩ := forall_mem_cons.mp hchunks
    obtain ⟨fuel, rfl⟩ := Nat.exists_eq_add_one_of_ne_zero (Nat.ne_zero_of_lt hfuel)
    obtain ⟨hsize, hpayload⟩ := chunk_text hc ((chunks ++ [last]).map Chunk.text).flatten
    have hskip : (c.payload ++ (CRLF ++ ((chunks ++ [last]).map Chunk.text).flatten)).drop
        (c.payload.length + 2) = ((chunks ++ [last]).map Chunk.text).flatten := by
      rw [← drop_drop, drop_left]
      rfl
    rw [cons_append, map_cons, flatten_cons, announcedChunks]
    dsimp only
    rw [hsize, if_neg fun h => hne (length_eq_zero_iff.mp h), hpayload, hskip,
      ih hchunks (Nat.le_of_succ_le_succ hfuel), map_cons, sum_cons]

theorem length_le_texts (chunks : List Chunk) :
    chunks.length ≤ (chunks.map Chunk.text).flatten.length := by
  induction chunks with
  | nil => exact Nat.zero_le _
  | cons c chunks ih =>
    rw [map_cons, flatten_cons, length_append, length_cons]
    simp only [Chunk.text, CRLF, length_append, length_cons]
    omega

/-- Chunks that come one by one are given the memory that they announce. -/
theorem limited_chunks {n : Nat} {head : List UInt8} {rsp : HttpResponse} [LexicalCast]
    {reads buffers : List (List UInt8)} (hm : m.Ready n) (hh : Announces head m.m_websocket rsp)
    (hd : Divided head n reads buffers) (hchunks : ∀ c ∈ chunks, c.Valid ∧ c.payload ≠ [])
    (hlast : last.Valid) (hend : last.payload = []) (hone : OneByOne (chunks ++ [last]) buffers) :
    Limited limit (responseUse m (connection reads)) (recvResponse m (connection reads))
      ↔ (chunks.map fun c => c.payload.length).sum ≤ limit := by
  obtain ⟨s, data, o, r, rest, rfl, hread, hlen, -, hchunked, hhead⟩ := recvHead_divided hm hh hd
  have hcount : chunks.length ≤ (connection (r :: rest)).work := by
    have hreads := hone.length_le
    have hwork := SylarHttpClient.length_le_work (r :: rest)
    rw [length_append, length_singleton, length_cons] at hreads
    rw [length_cons] at hwork
    omega
  have hsmall : data.length ≤ 2 ^ 31 := by
    rw [hlen]
    exact hm.small
  obtain ⟨s', hrun, -⟩ := recvChunks_oneByOne hlast hend hchunks [] hone hread hsmall hcount
  have hstream : data.take o.length ++ arriving (connection (r :: rest))
      = ((chunks ++ [last]).map Chunk.text).flatten := by
    have harriving : arriving (connection (r :: rest)) = (r :: rest).flatten := by
      show flatMap _ (map Arrival.bytes (r :: rest)) = _
      rw [flatMap_map]
      exact flatMap_id'
    rw [hread.front, harriving, ← hone.flatten, flatten_cons, flatten_cons, append_assoc]
  have hfuel : chunks.length ≤ ((chunks ++ [last]).map Chunk.text).flatten.length := by
    rw [map_append, flatten_append, length_append]
    exact Nat.le_add_right_of_le (length_le_texts chunks)
  have hbody : ((chunks.map Chunk.payload).flatten).length
      = (chunks.map fun c => c.payload.length).sum := by
    rw [length_flatten, map_map]
    rfl
  have huse : responseUse m (connection reads)
      = ⟨(chunks.map fun c => c.payload.length).sum,
        (chunks.map fun c => c.payload.length).sum⟩ := by
    rw [responseUse, hhead]
    dsimp only
    rw [if_pos hchunked, hstream, announcedChunks_eq hlast hend hchunks hfuel,
      chunksLength_eq _ hrun, nil_append, hbody]
  rw [huse]
  exact ⟨fun h => h.allocated, fun h => ⟨h, fun hmore => absurd h (Nat.not_le_of_lt hmore)⟩⟩

end Chunks

/-- Memory with a buffer of 80 bytes. -/
def sessionMemory : SylarHttp.Memory := ⟨0, false, 0, List.replicate 80 0⟩
def connectionMemory : SylarHttpClient.Memory := ⟨0, false, List.replicate 81 0⟩

/-- A request that announces so many bytes. -/
def announcing (length : String) : Transport :=
  connection [bytes "POST / HTTP/1.1\r\ncontent-length: " ++ bytes length
    ++ bytes "\r\n\r\nhello"]

/-- A response with one chunk of five bytes. -/
def chunkedHello : Transport :=
  connection [SylarHttpClient.sampleHead, bytes "5\r\nhello\r\n", bytes "0\r\n\r\n"]

end SylarHttpBody
