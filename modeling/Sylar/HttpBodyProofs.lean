import Sylar.HttpConnectionProofs

/-! # The body behind the head (`http_session.cc`, `http_connection.cc`)

When the parser is finished, some bytes of the body may be in the buffer already, or
more than the body has.  `HttpSession::recvRequest` and `HttpConnection::recvResponse`
have the same code for this: a string of the announced length, a `memcpy` of what is in
the buffer, and `readFixSize` for the rest.

`assembleBody` is this code on the memory of the string: a copy or a read outside of it
is a fault.

* **`recvLoop_rest`** — what the loops leave in the buffer and on the wire is what
  follows the bytes the parser took.
* **`assembleBody_spec`** — the body is filled from the buffer and the wire.
* **`body_assembled`** — the body of a request and of a response. -/

namespace SylarHttpBody

open ListWindow Segments SylarBytearray SylarStream List

/-! ## The code -/

/-- The bytes that are still to be received. -/
def arriving (t : Transport) : List UInt8 :=
  t.incoming.flatMap fun
    | .bytes seg => seg
    | .fails _ => []

/-- `memcpy(dst, src, n)`. -/
def memcpy (dst src : List UInt8) (n : Nat) : StreamM (List UInt8) := fun t =>
  if dst.length < n ∨ src.length < n then .error .outside t
  else .ok (overwrite dst 0 (src.take n)) t

/-- From `body.resize(length)` to `setBody(body)`, `offset` bytes being in `data`; `none` if
`readFixSize` fails. -/
def assembleBody (length : Int) (data : List UInt8) (offset : Nat) :
    StreamM (Option (List UInt8)) := do
  -- each branch copies so many bytes and sets `len` to the number
  let len := if offset ≤ length then offset else length.toNat
  let body ← memcpy (List.replicate length.toNat 0) data len
  let length := length - offset
  if 0 < length then do
    let t ← get
    -- `readFixSize(&body[len], length)`, with offsets from the start of the string
    let (rt, body) ←
      readFixLoop length.toNat (t.work + length.toNat + 2) body len length.toNat
    if rt ≤ 0 then pure none else pure (some body)
  else pure (some body)

/-! ## The bytes behind the head -/

variable {t t' : Transport} {n offset len L : Nat} {rt : Int} {data data' stream : List UInt8}

theorem recv_arriving {d : List UInt8} (h : t.recv n = (rt, d, t')) :
    arriving t = d ++ arriving t' ∧ d.length = rt.toNat ∧ d.length ≤ n := by
  rw [Transport.recv] at h
  split at h
  · cases h
    exact ⟨rfl, rfl, Nat.zero_le _⟩
  · next err rest hin =>
    cases h
    refine ⟨?_, ?_, Nat.zero_le _⟩
    · rw [arriving, hin]
      rfl
    · rw [length_nil]
      omega
  · next seg rest hin =>
    split at h
    · next hfit =>
      cases h
      refine ⟨?_, rfl, hfit⟩
      rw [arriving, hin]
      rfl
    · next hfit =>
      cases h
      refine ⟨?_, ?_, ?_⟩
      · rw [arriving, hin]
        show seg ++ _ = seg.take n ++ (seg.drop n ++ _)
        rw [← append_assoc, take_append_drop]
      · rw [length_take]
        omega
      · rw [length_take]
        omega

/-- A read behind the `offset` bytes of the buffer moves bytes from the wire to it. -/
theorem readRaw_arriving (h : readRaw data offset n t = .ok (rt, data') t') (hpos : 0 < rt) :
    data'.length = data.length ∧ rt.toNat + offset ≤ data.length
      ∧ data'.take (rt.toNat + offset) ++ arriving t' = data.take offset ++ arriving t := by
  rw [readRaw] at h
  split at h
  · cases h
  · next hroom =>
    split at h
    · cases h
      cases hpos
    · cases hrecv : t.recv n with
      | mk rt₁ x =>
        obtain ⟨d, t₁⟩ := x
        rw [hrecv] at h
        cases h
        obtain ⟨harr, hlen, hle⟩ := recv_arriving hrecv
        refine ⟨length_overwrite (by omega), by omega, ?_⟩
        rw [harr, Nat.add_comm, ← hlen, take_add_overwrite _ (by omega), append_assoc]

/-- What the parser has not taken is at the front of the buffer. -/
theorem take_moved (hn : n ≤ len) (hlen : len ≤ data.length) :
    (overwrite data 0 (window data n (len - n))).take (len - n) = (data.take len).drop n
      ∧ (overwrite data 0 (window data n (len - n))).length = data.length := by
  have hpiece : (data.take len).length = len := length_take_of_le hlen
  have hn' : n ≤ (data.take len).length := by omega
  have hmoved := SylarHttp.take_moved (data.drop len) hn'
  have hsize := SylarHttp.length_moved (data.drop len) hn'
  rw [take_append_drop, hpiece] at hmoved hsize
  refine ⟨hmoved, hsize.trans ?_⟩
  rw [length_drop]
  omega

/-- What the parser for requests does to the buffer. -/
theorem request_moved {s s' : SylarHttp.HttpRequestParser}
    (h : s.execute data len = .ok (n, data', s')) (hlen : len ≤ data.length) :
    n ≤ len ∧ data'.take (len - n) = (data.take len).drop n ∧ data'.length = data.length := by
  obtain ⟨⟨k, s₁⟩, hexec, h⟩ := SylarHttp.bind_ok_iff.mp h
  cases h
  have hn : n ≤ len := by
    rw [SylarHttp.http_parser_execute] at hexec
    split at hexec
    · cases hexec
      exact Nat.zero_le _
    · split at hexec
      · cases hexec
      · next p cs r hscan =>
        cases hexec
        rw [Scanner.scan_span _ hscan, Nat.zero_add]
        exact (Scanner.span_le _ _ _).trans (length_take_le _ _)
  exact ⟨hn, take_moved hn hlen⟩

variable {chunck : Bool} {t₁ : Transport} {offset' : Nat}

/-- What the parser for responses does to the buffer. -/
theorem response_moved {s s' : SylarHttpClient.HttpResponseParser}
    (h : s.execute data len chunck = .ok (n, data', s')) (hlen : len ≤ data.length) :
    n ≤ len ∧ data'.take (len - n) = (data.take len).drop n ∧ data'.length = data.length := by
  rw [SylarHttpClient.HttpResponseParser.execute] at h
  cases hexec : SylarHttpClient.httpclient_parser_execute (if chunck then s.init else s)
      data len with
  | error e =>
    rw [hexec] at h
    cases h
  | ok x =>
    rw [hexec] at h
    cases h
    have hn : x.1 ≤ len := by
      rw [SylarHttpClient.httpclient_parser_execute] at hexec
      split at hexec
      · cases hexec
      · split at hexec
        · cases hexec
        · next p cs r hscan =>
          split at hexec
          · cases hexec
          · split at hexec
            · cases hexec
              rw [Scanner.scan_span _ hscan, Nat.zero_add]
              exact (Scanner.span_le _ _ _).trans (length_take_le _ _)
            · cases hexec
    exact ⟨hn, take_moved hn hlen⟩

/-- `offset` bytes of the buffer and what is still to come are the stream behind its first bytes. -/
def Behind (stream data : List UInt8) (offset : Nat) (t : Transport) : Prop :=
  offset ≤ data.length ∧ ∃ head, stream = head ++ (data.take offset ++ arriving t)

/-- One read of `rt` bytes of which the parser takes `n`, with what it does to the
buffer. -/
theorem Behind.step {data₁ data₂ : List UInt8} {room : Nat} (h : Behind stream data offset t)
    (hread : readRaw data offset room t = .ok (rt, data₁) t₁) (hpos : 0 < rt)
    (hmoved : n ≤ rt.toNat + offset ∧ data₂.take (rt.toNat + offset - n)
      = (data₁.take (rt.toNat + offset)).drop n ∧ data₂.length = data₁.length) :
    Behind stream data₂ (rt.toNat + offset - n) t₁ := by
  obtain ⟨-, head, hstream⟩ := h
  obtain ⟨hlen, hroom, hbytes⟩ := readRaw_arriving hread hpos
  obtain ⟨hn, htake, hlen₂⟩ := hmoved
  refine ⟨by omega, head ++ (data₁.take (rt.toNat + offset)).take n, ?_⟩
  rw [htake, hstream, ← hbytes, append_assoc head, ← append_assoc (take n _), take_append_drop]

/-- **The loop of `recvRequest`** leaves what follows the bytes the parser took. -/
theorem recvLoop_rest (fuel : Nat) {s s' : SylarHttp.HttpRequestParser}
    (h : SylarHttp.recvLoop fuel s data offset t = .ok (some (s', data', offset')) t')
    (hbehind : Behind stream data offset t) : Behind stream data' offset' t' := by
  induction fuel generalizing s s' data data' offset offset' t t' with
  | zero =>
    cases h
  | succ fuel ih =>
    rw [SylarHttp.recvLoop] at h
    obtain ⟨⟨rt, data₁⟩, t₁, hread, hrest⟩ := SylarHttp.of_bind_ok h
    replace hread := SylarHttp.onStream_eq_ok hread
    dsimp only at hrest
    split_ifs at hrest with hrt
    · cases hrest
    · obtain ⟨⟨n, data₂, s₁⟩, t₂, hexec, hend⟩ := SylarHttp.of_bind_ok hrest
      obtain ⟨hparsed, rfl⟩ := SylarHttp.onParser_eq_ok hexec
      obtain ⟨hlen, hroom, -⟩ := readRaw_arriving hread (by omega)
      have hstep := hbehind.step hread (by omega) (request_moved hparsed (by omega))
      dsimp only at hend
      split_ifs at hend
      · cases hend
      · cases hend
      · cases hend
        exact hstep
      · exact ih hend hstep

/-- The loop of `recvResponse` leaves what follows the bytes the parser took. -/
theorem recvHead_rest (fuel : Nat) {s s' : SylarHttpClient.HttpResponseParser}
    (h : SylarHttpClient.recvLoop chunck fuel s data offset t = .ok (some (s', data', offset')) t')
    (hbehind : Behind stream data offset t) : Behind stream data' offset' t' := by
  induction fuel generalizing s s' data data' offset offset' t t' with
  | zero =>
    cases h
  | succ fuel ih =>
    rw [SylarHttpClient.recvLoop] at h
    obtain ⟨⟨rt, data₁⟩, t₁, hread, hrest⟩ := SylarHttp.of_bind_ok h
    replace hread := SylarHttpClient.onStream_eq_ok hread
    dsimp only at hrest
    split_ifs at hrest with hrt
    · cases hrest
    · obtain ⟨⟨n, data₂, s₁⟩, t₂, hexec, hend⟩ := SylarHttp.of_bind_ok hrest
      obtain ⟨hparsed, rfl⟩ := SylarHttpClient.onParser_eq_ok hexec
      obtain ⟨hlen, hroom, -⟩ := readRaw_arriving hread (by omega)
      -- the null byte is stored behind the bytes that are parsed
      have hmoved := response_moved hparsed (by rw [length_set]; omega)
      rw [take_set_of_le (Nat.le_refl _), length_set] at hmoved
      have hstep := hbehind.step hread (by omega) hmoved
      dsimp only at hend
      split_ifs at hend
      · cases hend
      · cases hend
      · cases hend
        exact hstep
      · exact ih hend hstep

/-! ## Filling the body -/

/-- The next `n` bytes come in reads that bring something. -/
def Serves (t : Transport) (n : Nat) : Prop :=
  t.connected = true ∧ ∃ segs later, t.incoming = segs.map .bytes ++ later ∧ Solid segs
    ∧ n ≤ segs.flatten.length

theorem arriving_segments (t : Transport) (segs : List (List UInt8)) (later : List Arrival) :
    arriving { t with incoming := segs.map .bytes ++ later }
      = segs.flatten ++ arriving { t with incoming := later } := by
  show flatMap _ (segs.map .bytes ++ later) = _
  rw [flatMap_append, flatMap_map]
  show segs.flatMap (fun seg => seg) ++ _ = _
  rw [flatMap_id']
  rfl

/-- What a read of the next `n` bytes gets, and the transport behind it. -/
theorem Serves.read (h : Serves t n) :
    ∃ segs later, t.incoming = segs.map .bytes ++ later ∧ Solid segs
      ∧ (arriving t).take n <+: segs.flatten ∧ ((arriving t).take n).length = n
      ∧ arriving { t with incoming := (skip n segs).map .bytes ++ later }
        = (arriving t).drop n := by
  obtain ⟨-, segs, later, hin, hsolid, hn⟩ := h
  have harr : arriving t = segs.flatten ++ arriving { t with incoming := later } := by
    rw [← arriving_segments, ← hin]
  refine ⟨segs, later, hin, hsolid, ?_, ?_, ?_⟩
  · rw [harr, take_append_of_le_length hn]
    exact take_prefix _ _
  · rw [harr, length_take, length_append]
    omega
  · rw [arriving_segments, harr, flatten_skip, drop_append_of_le_length hn]

private theorem memcpy_ok {dst src : List UInt8} (hdst : n ≤ dst.length) (hsrc : n ≤ src.length)
    (t : Transport) : memcpy dst src n t = .ok (src.take n ++ dst.drop n) t := by
  rw [memcpy, if_neg (by omega), overwrite, take_zero, nil_append, Nat.zero_add,
    length_take_of_le hsrc]

/-- The copy, and what is done with the string and its filled length. -/
theorem assembleBody_copied (t : Transport) (hoff : offset ≤ data.length) :
    assembleBody L data offset t = (if 0 < (L : Int) - offset then do
          let (rt, body) ← readFixLoop (L - offset) (t.work + (L - offset) + 2)
            (data.take offset ++ replicate (L - offset) 0) offset (L - offset)
          if rt ≤ 0 then pure none else pure (some body)
        else pure (some (data.take L))) t := by
  have hlen : (replicate L (0 : UInt8)).length = L := length_replicate
  have hleft : ((L : Int) - offset).toNat = L - offset := by omega
  rw [assembleBody, Int.toNat_natCast]
  dsimp only
  by_cases hle : offset ≤ L
  · rw [if_pos (show (offset : Int) ≤ L by omega), bind_ok (memcpy_ok (by omega) hoff t),
      drop_replicate]
    by_cases hmore : 0 < (L : Int) - offset
    · rw [if_pos hmore, if_pos hmore, hleft]
      rfl
    · obtain rfl : offset = L := by omega
      rw [if_neg hmore, if_neg hmore, Nat.sub_self, replicate_zero, append_nil]
  · rw [if_neg (show ¬ (offset : Int) ≤ L by omega),
      bind_ok (memcpy_ok (by omega) (by omega) t), drop_replicate, Nat.sub_self,
      replicate_zero, append_nil, if_neg (by omega), if_neg (by omega)]

/-- The body that is filled from the buffer and then from the wire. -/
def bodyBehind (L : Nat) (data : List UInt8) (offset : Nat) (t : Transport) : List UInt8 :=
  (data.take offset ++ arriving t).take L

/-- The part that is in the buffer, and the part that is read. -/
theorem bodyBehind_of_lt (t : Transport) (hoff : offset ≤ data.length) (hlt : offset < L) :
    bodyBehind L data offset t = data.take offset ++ (arriving t).take (L - offset) := by
  rw [bodyBehind, take_append, length_take_of_le hoff, take_take, Nat.min_eq_right (by omega)]

/-- The body is in the buffer. -/
theorem bodyBehind_of_le (t : Transport) (hoff : offset ≤ data.length) (hle : L ≤ offset) :
    bodyBehind L data offset t = data.take L := by
  rw [bodyBehind, take_append_of_le_length (by rw [length_take_of_le hoff]; exact hle),
    take_take, Nat.min_eq_left hle]

/-- A call that fills the body: the string, what is left on the wire, and its call of `readFixSize`.
-/
structure Filled (L : Nat) (data : List UInt8) (offset : Nat) (t t' : Transport) : Prop where
  assembled : assembleBody L data offset t = .ok (some (bodyBehind L data offset t)) t'
  length : (bodyBehind L data offset t).length = L
  wire : arriving t' = (arriving t).drop (L - offset)
  rest : offset < L → readFixSize (List.replicate (L - offset) 0) t
    = .ok (((L - offset : Nat) : Int), (arriving t).take (L - offset)) t'
  buffered : L ≤ offset → t' = t

/-- **The body string** is filled from the buffer and then from the wire. -/
theorem assembleBody_spec (hsmall : L < 2 ^ 31) (hoff : offset ≤ data.length)
    (hserve : Serves t (L - offset)) : ∃ t', Filled L data offset t t' := by
  have hfront : (data.take offset).length = offset := length_take_of_le hoff
  by_cases hmore : offset < L
  · obtain ⟨segs, later, hin, hsolid, hwant, hlen, hrest⟩ := hserve.read
    have hint : intOf (L - offset) = ((L - offset : Nat) : Int) := intOf_of_lt (by omega)
    have hloop := readFixLoop_skip (L - offset) later (t.work + (L - offset) + 2)
      (data.take offset) hserve.1 hin hsolid hwant (by omega)
      (by rw [length_append, hfront, hlen, length_replicate])
      (by rw [length_append, hfront, length_replicate]; omega)
      (show (data.take offset ++ replicate (L - offset) 0).take _ = _ from take_left)
    have hread := readFixSize_before (replicate (L - offset) 0) hserve.1 hin hsolid hwant
      (by rw [length_replicate, hlen]) (by omega)
    rw [hfront, hlen, hint] at hloop
    rw [hlen, hint] at hread
    refine ⟨_, ?_, ?_, hrest, fun _ => hread, fun hle => by omega⟩
    · rw [assembleBody_copied t hoff, if_pos (by omega), bind_ok hloop]
      dsimp only
      rw [if_neg (by omega), bodyBehind_of_lt t hoff hmore]
      rfl
    · rw [bodyBehind_of_lt t hoff hmore, length_append, hfront, hlen]
      omega
  · refine ⟨t, ?_, ?_, ?_, fun hlt => absurd hlt hmore, fun _ => rfl⟩
    · rw [assembleBody_copied t hoff, if_neg (by omega), bodyBehind_of_le t hoff (by omega)]
      rfl
    · rw [bodyBehind_of_le t hoff (by omega), length_take_of_le (by omega)]
    · rw [Nat.sub_eq_zero_of_le (by omega), drop_zero]

section Body

variable (hpos : 0 < L) (hoff : offset ≤ data.length) (h : Filled L data offset t t')

/-- The copy when the buffer has all of the body. -/
theorem copied_of_le (data : List UInt8) (hle : L ≤ offset) :
    (if (offset : Int) ≤ L then data.take offset else data.take (L : Int).toNat) = data.take L := by
  split
  · rw [show offset = L by omega]
  · rw [Int.toNat_natCast]

include hpos hoff h

/-- The body of a request. -/
theorem requestBody_filled (q : SylarHttp.HttpRequest) : SylarHttp.recvBody q L data offset t
      = .ok (some { q with m_body := bodyBehind L data offset t }) t' := by
  rw [SylarHttp.recvBody, if_pos (by omega)]
  by_cases hlt : offset < L
  · rw [if_pos (by omega), if_pos (by omega), show ((L : Int) - offset).toNat = L - offset by omega,
      bind_ok (SylarHttp.onStream_ok (h.rest hlt)), bodyBehind_of_lt t hoff hlt]
    dsimp only
    rw [if_neg (by omega)]
    rfl
  · rw [h.buffered (by omega), if_neg (by omega), copied_of_le data (by omega),
      bodyBehind_of_le t hoff (by omega)]
    rfl

/-- The body of a response. -/
theorem responseBody_filled (rsp : SylarHttp.HttpResponse) :
    SylarHttpClient.recvBody rsp L data offset t
      = .ok (some { rsp with m_body := bodyBehind L data offset t }) t' := by
  rw [SylarHttpClient.recvBody, if_pos (by omega)]
  by_cases hlt : offset < L
  · rw [if_pos (by omega), if_pos (by omega), show ((L : Int) - offset).toNat = L - offset by omega,
      bind_ok (SylarHttpClient.onStream_ok (h.rest hlt)), bodyBehind_of_lt t hoff hlt]
    dsimp only
    rw [if_neg (by omega)]
    rfl
  · rw [h.buffered (by omega), if_neg (by omega), copied_of_le data (by omega),
      bodyBehind_of_le t hoff (by omega)]
    rfl

end Body

/-- The body of a message, of which `L` bytes are announced and `offset` bytes stand in the
buffer: the string is filled inside its bounds with the first `L` bytes behind the head, and what
was not in the buffer is read. -/
structure Assembled (t t₁ : Transport) (data : List UInt8) (offset L : Nat)
    (body : List UInt8) (t₂ : Transport) : Prop where
  behind : ∃ head, arriving t = head ++ (data.take offset ++ arriving t₁)
  buffered : (data.take offset).length = offset
  length : body.length = L
  bytes : body = (data.take offset ++ arriving t₁).take L
  inside : assembleBody L data offset t₁ = .ok (some body) t₂
  wire : arriving t₂ = (arriving t₁).drop (L - offset)

theorem Filled.assembled_of_behind {t₂ : Transport} (h : Filled L data offset t₁ t₂)
    (hbehind : Behind (arriving t) data offset t₁) :
    Assembled t t₁ data offset L (bodyBehind L data offset t₁) t₂ :=
  ⟨hbehind.2, length_take_of_le hbehind.1, h.length, rfl, h.assembled, h.wire⟩

/-- **Content-Length**: the body of every request and of every response that does not come in
chunks. -/
theorem body_assembled [SylarHttp.LexicalCast] :
    (∀ (m : SylarHttp.Memory) (t t₁ : Transport) (s : SylarHttp.HttpRequestParser)
        (data : List UInt8) (offset : Nat),
      SylarHttp.recvLoop (t.work + 1) (.new m.m_error m.uri_relaxed m.query_start) m.buffer 0 t
        = .ok (some (s, data, offset)) t₁ →
      0 < s.getContentLength.toNat → s.getContentLength.toNat < 2 ^ 31 →
      Serves t₁ (s.getContentLength.toNat - offset) →
      ∃ body t₂, Assembled t t₁ data offset s.getContentLength.toNat body t₂
        ∧ SylarHttp.recvRequest m t = .ok (some { s.m_data with m_body := body }) t₂)
    ∧ ∀ (m : SylarHttpClient.Memory) (t t₁ : Transport)
        (s : SylarHttpClient.HttpResponseParser) (data : List UInt8) (offset : Nat),
      SylarHttpClient.recvHead (t.work + 1) (.new m.m_error m.m_websocket) m.buffer 0 t
        = .ok (some (s, data, offset)) t₁ →
      s.chunked = false →
      0 < s.getContentLength.toNat → s.getContentLength.toNat < 2 ^ 31 →
      Serves t₁ (s.getContentLength.toNat - offset) →
      ∃ body t₂, Assembled t t₁ data offset s.getContentLength.toNat body t₂
        ∧ SylarHttpClient.recvResponse m t = .ok (some { s.m_data with m_body := body }) t₂ := by
  have hstart : ∀ (t : Transport) (buffer : List UInt8), Behind (arriving t) buffer 0 t :=
    fun t buffer => ⟨Nat.zero_le _, [], rfl⟩
  constructor
  · intro m t t₁ s data offset hloop hpos hsmall hserve
    have hbehind := recvLoop_rest _ hloop (hstart t m.buffer)
    obtain ⟨t₂, hfilled⟩ := assembleBody_spec hsmall hbehind.1 hserve
    refine ⟨_, t₂, hfilled.assembled_of_behind hbehind, ?_⟩
    rw [SylarHttp.recvRequest_eq, bind_ok hloop]
    show SylarHttp.recvBody s.m_data s.getContentLength.toInt64.toInt data offset t₁ = _
    rw [SylarHttp.toInt64_of_lt (by omega)]
    exact requestBody_filled hpos hbehind.1 hfilled s.m_data
  · intro m t t₁ s data offset hloop hchunked hpos hsmall hserve
    have hbehind := recvHead_rest _ hloop (hstart t m.buffer)
    obtain ⟨t₂, hfilled⟩ := assembleBody_spec hsmall hbehind.1 hserve
    refine ⟨_, t₂, hfilled.assembled_of_behind hbehind, ?_⟩
    show (SylarHttpClient.recvHead (t.work + 1) (.new m.m_error m.m_websocket) m.buffer 0
      >>= _) t = _
    rw [bind_ok hloop]
    dsimp only
    rw [if_neg (by rw [hchunked]; decide), SylarHttp.toInt64_of_lt (by omega)]
    exact responseBody_filled hpos hbehind.1 hfilled s.m_data

/-- A body in three parts: with the head, and in two reads, the last with a byte of the next
message. -/
def helloMessage (head : String) : Transport :=
  SylarHttp.connection [SylarHttp.bytes head ++ SylarHttp.bytes "content-length: 5\r\n\r\nhe",
    SylarHttp.bytes "l", SylarHttp.bytes "lo!"]

theorem body_assembled_hello : (∃ q t₂, SylarHttp.recvRequest ⟨0, false, 0, List.replicate 64 0⟩
        (helloMessage "POST / HTTP/1.1\r\n") = .ok (some q) t₂
      ∧ q.m_body = SylarHttp.bytes "hello" ∧ arriving t₂ = SylarHttp.bytes "!")
    ∧ ∃ rsp t₂, SylarHttpClient.recvResponse ⟨0, false, List.replicate 64 0⟩
        (helloMessage "HTTP/1.1 200 OK\r\n") = .ok (some rsp) t₂
      ∧ rsp.m_body = SylarHttp.bytes "hello" ∧ arriving t₂ = SylarHttp.bytes "!" := by
  have hrest : Serves (SylarHttp.connection [SylarHttp.bytes "l", SylarHttp.bytes "lo!"]) 3 :=
    ⟨rfl, [SylarHttp.bytes "l", SylarHttp.bytes "lo!"], [], rfl, by simp [Solid, SylarHttp.bytes],
      by decide⟩
  constructor
  · obtain ⟨body, t₂, ha, hrecv⟩ := body_assembled.1 ⟨0, false, 0, replicate 64 0⟩
      (helloMessage "POST / HTTP/1.1\r\n") _ _ _ _ rfl (Nat.le_of_ble_eq_true rfl)
      (Nat.le_of_ble_eq_true rfl) hrest
    exact ⟨_, t₂, hrecv, ha.bytes, ha.wire⟩
  · obtain ⟨body, t₂, ha, hrecv⟩ := body_assembled.2 ⟨0, false, replicate 64 0⟩
      (helloMessage "HTTP/1.1 200 OK\r\n") _ _ _ _ rfl rfl (Nat.le_of_ble_eq_true rfl)
      (Nat.le_of_ble_eq_true rfl) hrest
    exact ⟨_, t₂, hrecv, ha.bytes, ha.wire⟩

end SylarHttpBody
