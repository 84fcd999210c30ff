import Sylar.HttpClientParserProofs
import Sylar.HttpSessionProofs

/-! # Receiving a response (`http_connection.cc`)

`HttpConnection::recvResponse` reads the head like the session does, and a
body in chunks chunk by chunk: it reads and parses until a size line is
finished, strips two bytes for the line break behind the payload, and takes
the payload from what is in the buffer.

The two bytes are stripped from the end of the buffer, and the loop that
would fetch the rest of a payload never runs.  So a chunk is taken right if
the buffer holds exactly this chunk when its size line is parsed.

* **`recvHead_pieces`** — the head, cut between its tokens.
* **`recvChunks_oneByOne`** — chunks that come one by one.
* **`recvChunks_together`**, **`recvChunks_negative`** — a chunk with something
  behind it, and a size line that comes without its payload.
* **`chunks_decoded`** — what `recvResponse` returns in these cases. -/

namespace SylarHttpClient

open ListWindow SylarBytearray SylarStream SylarHttp Scanner List

abbrev ClientM := EStateM ClientFault Transport

/-- A stream call of the connection. -/
def onStream {α : Type} (x : StreamM α) : ClientM α := fun t =>
  match x t with
  | .ok a t => .ok a t
  | .error e t => .error (.http (.stream e)) t

/-- A parser call of the connection. -/
def onParser {α : Type} (x : Except ClientFault α) : ClientM α := fun t =>
  match x with
  | .ok a => .ok a t
  | .error e => .error e t

/-- `close(); return nullptr;` -/
def giveUp {α : Type} : ClientM (Option α) := do
  modify fun t => { t with connected := false }
  pure none

/-- Read behind the `offset` bytes of the buffer and parse, until the parser is finished.  The
buffer has one byte more than a read may use. -/
def recvLoop (chunck : Bool) : Nat → HttpResponseParser → List UInt8 → Nat →
    ClientM (Option (HttpResponseParser × List UInt8 × Nat))
  | 0, _, _, _ => throw (.http (.stream .stuck))
  | fuel + 1, parser, data, offset => do
    let (rt, data) ← onStream (readRaw data offset (data.length - 1 - offset))
    if rt ≤ 0 then giveUp
    else
      let len := rt.toNat + offset
      let (nparse, data, parser) ← onParser (parser.execute (data.set len 0) len chunck)
      if parser.hasError then giveUp
      else if len - nparse = data.length - 1 then giveUp
      else if parser.isFinished then pure (some (parser, data, len - nparse))
      else recvLoop chunck fuel parser data (len - nparse)

/-- The loop for the head. -/
def recvHead : Nat → HttpResponseParser → List UInt8 → Nat →
    ClientM (Option (HttpResponseParser × List UInt8 × Nat)) := recvLoop false

/-- The loop for the size line of a chunk. -/
def recvSize : Nat → HttpResponseParser → List UInt8 → Nat →
    ClientM (Option (HttpResponseParser × List UInt8 × Nat)) := recvLoop true

/-- `body.append(data, n)`. -/
def append (body data : List UInt8) (n : Int) : ClientM (List UInt8) :=
  if n < 0 then throw .length_error else pure (body ++ data.take n.toNat)

/-- The loop that fetches the rest of a payload: it runs while `left < 0`. -/
def recvLeft : Nat → List UInt8 → List UInt8 → Int →
    ClientM (Option (List UInt8 × List UInt8))
  | 0, _, _, _ => throw (.http (.stream .stuck))
  | fuel + 1, body, data, left =>
    if left < 0 then do
      let buffer_size := data.length - 1
      let (rt, data) ← onStream
        (readRaw data 0 (if buffer_size < left then buffer_size else sizeT left))
      if rt ≤ 0 then giveUp
      else recvLeft fuel (body ++ data.take rt.toNat) data (left - rt)
    else pure (some (body, data))

/-- The payload of a chunk: the body so far, the buffer and the number of bytes
left in it. -/
def takePayload (content_len : Int) (data : List UInt8) (len : Int)
    (body : List UInt8) : ClientM (Option (List UInt8 × List UInt8 × Nat)) :=
  if content_len ≤ len then do
    let body ← append body data content_len
    let left := (len - content_len).toNat
    pure (some (body, overwrite data 0 (window data content_len.toNat left), left))
  else do
    let body ← append body data len
    let t ← get
    match ← recvLeft (t.work + 1) body data (content_len - len) with
    | none => pure none
    | some (body, data) => pure (some (body, data, 0))

/-- The loop over the chunks, with `len` bytes in the buffer. -/
def recvChunks : Nat → HttpResponseParser → List UInt8 → Nat → List UInt8 →
    ClientM (Option (HttpResponseParser × List UInt8))
  | 0, _, _, _, _ => throw (.http (.stream .stuck))
  | fuel + 1, parser, data, len, body => do
    let t ← get
    match ← recvSize (t.work + 1) parser data len with
    | none => pure none
    | some (parser, data, len) =>
        match ← takePayload parser.content_len data (len - 2) body with
        | none => pure none
        | some (body, data, len) =>
            if parser.chunks_done then pure (some (parser, body))
            else recvChunks fuel parser data len body

/-- A body that does not come in chunks: `offset` bytes of it are in the buffer. -/
def recvBody (rsp : HttpResponse) (length : Int) (data : List UInt8) (offset : Nat) :
    ClientM (Option HttpResponse) :=
  if 0 < length then
    let copied := if offset ≤ length then data.take offset else data.take length.toNat
    if 0 < length - offset then do
      let (rt, rest) ←
        onStream (readFixSize (List.replicate (length - offset).toNat 0))
      if rt ≤ 0 then giveUp
      else pure (some { rsp with m_body := copied ++ rest })
    else pure (some { rsp with m_body := copied })
  else pure (some rsp)

/-- What `recvResponse` allocates and does not set: a field of the parser, one of the response, and
the buffer of `GetHttpResponseBufferSize() + 1` bytes. -/
structure Memory where
  m_error : Int
  m_websocket : Bool
  buffer : List UInt8

/-- **`HttpConnection::recvResponse`**; `none` is the null pointer. -/
def recvResponse [LexicalCast] (m : Memory) : ClientM (Option HttpResponse) := do
  let t ← get
  match ← recvHead (t.work + 1) (.new m.m_error m.m_websocket) m.buffer 0 with
  | none => pure none
  | some (parser, data, offset) =>
    if parser.chunked then do
      let t ← get
      match ← recvChunks (t.work + 1) parser data offset [] with
      | none => pure none
      | some (parser, body) => pure (some { parser.m_data with m_body := body })
    else recvBody parser.m_data parser.getContentLength.toInt64.toInt data offset

/-! ## One read -/

variable {t t' : Transport} {s : HttpResponseParser} {data o r size : List UInt8} {p fuel len : Nat}
  {cs : Cs} {regs : Registers} {chunck : Bool}

variable {α : Type} {a : α} {z data' : List UInt8} {s' : HttpResponseParser}

theorem onStream_ok {x : StreamM α} (h : x t = .ok a t') :
    onStream x t = .ok a t' := by
  rw [onStream, h]

theorem onParser_ok {x : Except ClientFault α} (h : x = .ok a) (t : Transport) :
    onParser x t = .ok a t := by
  rw [h]
  rfl

theorem onStream_eq_ok {x : StreamM α} (h : onStream x t = .ok a t') :
    x t = .ok a t' := by
  rw [onStream] at h
  split at h
  · next hx =>
    cases h
    exact hx
  · cases h

theorem onParser_eq_ok {x : Except ClientFault α} (h : onParser x t = .ok a t') :
    x = .ok a ∧ t' = t := by
  cases x with
  | error e => cases h
  | ok b =>
    cases h
    exact ⟨rfl, rfl⟩

/-- What the loop does with the parser's answer to `len` bytes in the buffer. -/
def afterExecute (chunck : Bool) (fuel len nparse : Nat) (data : List UInt8)
    (s : HttpResponseParser) :
    ClientM (Option (HttpResponseParser × List UInt8 × Nat)) :=
  if s.hasError then giveUp
  else if len - nparse = data.length - 1 then giveUp
  else if s.isFinished then pure (some (s, data, len - nparse))
  else recvLoop chunck fuel s data (len - nparse)

/-- The parser as the scan of a read starts with it. -/
def HttpResponseParser.restarted (s : HttpResponseParser) (chunck : Bool) :
    HttpResponseParser :=
  if chunck then s.init else s

theorem execute_restarted (s : HttpResponseParser) (data : List UInt8) (len : Nat) (chunck : Bool) :
    s.execute data len chunck = (s.restarted chunck).execute data len false := by
  cases chunck <;> rfl

/-- The buffer begins with the bytes `o`, and `n` more fit into it. -/
structure Holds (data o : List UInt8) (n : Nat) : Prop where
  front : data.take o.length = o
  room : o.length + n + 1 ≤ data.length

/-- One read behind the bytes `o`, which the parser scans. -/
theorem recvLoop_read (chunck : Bool) (fuel : Nat) (hconn : t.connected = true)
    (hrecv : t.recv (data.length - 1 - o.length) = ((r.length : Int), r, t'))
    (hdata : Holds data o r.length) (hr : r ≠ [])
    (hbody : (s.restarted chunck).body_start ≤ (o ++ r).length)
    (hscan : machine.scan (o ++ r ++ 0 :: data.drop ((o ++ r).length + 1)) (o ++ r) 0
      (s.restarted chunck).cs (s.restarted chunck).reset = .ok (p, cs, regs)) :
    ∃ data', data'.length = data.length ∧ data'.take ((o ++ r).length - p) = (o ++ r).drop p
      ∧ recvLoop chunck (fuel + 1) s data o.length t
        = afterExecute chunck fuel (o ++ r).length p data' { toRegisters := regs, cs } t' := by
  have hroom := hdata.room
  have hpos := length_pos_iff.mpr hr
  have hread : readRaw data o.length (data.length - 1 - o.length) t
      = .ok ((r.length : Int), overwrite data o.length r) t' := by
    rw [readRaw, if_neg (by omega), if_neg (by rw [hconn]; decide), hrecv]
  have hset : (overwrite data o.length r).set (r.length + o.length) 0
      = o ++ r ++ 0 :: data.drop ((o ++ r).length + 1) := by
    have hlt : (o ++ r).length < data.length := by
      rw [length_append]
      omega
    obtain ⟨x, hdrop⟩ : ∃ x, data.drop (o ++ r).length
        = x :: data.drop ((o ++ r).length + 1) := ⟨_, drop_eq_getElem_cons hlt⟩
    rw [overwrite, hdata.front, Nat.add_comm r.length, ← length_append, hdrop,
      set_append_right _ _ (Nat.le_refl _), Nat.sub_self]
    rfl
  have hp : p ≤ (o ++ r).length := by
    rw [scan_span _ hscan, Nat.zero_add]
    exact span_le _ _ _
  have hne : o ++ r ≠ [] := append_ne_nil_of_right_ne_nil _ hr
  have hexec := execute_scanned _ hne hbody hscan
  refine ⟨_, ?_, take_moved (0 :: data.drop ((o ++ r).length + 1)) hp, ?_⟩
  · rw [length_moved _ hp, length_cons, length_drop, length_append]
    omega
  · rw [recvLoop, bind_ok (onStream_ok hread)]
    dsimp only
    rw [if_neg (by omega), Int.toNat_natCast, hset, execute_restarted, Nat.add_comm r.length,
      ← length_append, bind_ok (onParser_ok hexec _)]
    rfl

/-- One read into the empty buffer. -/
theorem recvLoop_front (chunck : Bool) (pieces : List (List UInt8)) (fuel : Nat) (hr : r ≠ [])
    (hfit : r.length < data.length) (hbody : (s.restarted chunck).body_start = 0)
    (hscan : machine.scan (r ++ 0 :: data.drop (r.length + 1)) r 0
      (s.restarted chunck).cs (s.restarted chunck).reset = .ok (p, cs, regs)) :
    ∃ data', data'.length = data.length ∧ data'.take (r.length - p) = r.drop p
      ∧ recvLoop chunck (fuel + 1) s data 0 (connection (r :: pieces))
        = afterExecute chunck fuel r.length p data' { toRegisters := regs, cs }
            (connection pieces) := by
  have hrecv : (connection (r :: pieces)).recv (data.length - 1 - ([] : List UInt8).length)
      = ((r.length : Int), r, connection pieces) := by
    refine recv_piece rfl ?_
    rw [length_nil]
    omega
  refine recvLoop_read chunck fuel rfl hrecv ⟨take_zero, ?_⟩ hr ?_ hscan
  · rw [length_nil]
    omega
  · rw [hbody]
    exact Nat.zero_le _

/-- The parser is finished, without error. -/
theorem afterExecute_done (herr : regs.m_error = 0) (hlen : len - p ≠ data.length - 1) :
    afterExecute chunck fuel len p data { toRegisters := regs, cs := .done } t
      = .ok (some ({ toRegisters := regs, cs := .done }, data, len - p)) t := by
  have hnone : ¬ ({ toRegisters := regs, cs := .done } : HttpResponseParser).hasError = true := by
    show ¬ (regs.m_error != 0 || false) = true
    rw [herr]
    decide
  have hfin : ({ toRegisters := regs, cs := .done } : HttpResponseParser).isFinished = true := rfl
  rw [afterExecute, if_neg hnone, if_neg hlen, if_pos hfin]
  rfl

/-- The parser wants more. -/
theorem afterExecute_running (herr : regs.m_error = 0) (hdead : cs.dead = false)
    (hdone : (cs == .done) = false) (hlen : len - p ≠ data.length - 1) :
    afterExecute chunck fuel len p data { toRegisters := regs, cs } t
      = recvLoop chunck fuel { toRegisters := regs, cs } data (len - p) t := by
  have hnone : ¬ ({ toRegisters := regs, cs } : HttpResponseParser).hasError = true := by
    show ¬ (regs.m_error != 0 || cs.dead) = true
    rw [herr, hdead]
    decide
  have hmore : ¬ ({ toRegisters := regs, cs } : HttpResponseParser).isFinished = true := by
    show ¬ (cs.dead || cs == .done) = true
    rw [hdead, hdone]
    decide
  rw [afterExecute, if_neg hnone, if_neg hlen, if_neg hmore]

/-- The parser met an error. -/
theorem afterExecute_dead (hdead : s.cs.dead = true) :
    afterExecute chunck fuel len p data s t = .ok none { t with connected := false } := by
  have herr : s.hasError = true := by
    rw [HttpResponseParser.hasError, hdead, Bool.or_true]
  rw [afterExecute, if_pos herr]
  rfl

/-! ## The head -/

/-- No cut falls between the byte where the parser notes a position and the byte where an action
hands the token on. -/
def tokensWhole (pieces : List (List UInt8)) : Bool :=
  machine.whole Act.after .stale pieces .start

variable {tail payload extra : List UInt8}

/-- An error stays. -/
theorem response_m_error {buffer xs : List UInt8} {k : Nat} {q q' : Cs} {r r' : Registers}
    (h : machine.scan buffer xs p q r = .ok (k, q', r')) (hr : r'.m_error = 0) :
    r.m_error = 0 := by
  by_contra hne
  refine scan_invariant (P := fun r => r.m_error ≠ 0) ?_ xs h hne hr
  intro buffer p a r r' hact hr
  cases a with
  | write_field | reason_phrase =>
    obtain ⟨n, -, hact⟩ := bind_ok_iff.mp hact
    cases hact
    exact hr
  | write_value =>
    obtain ⟨n, -, hact⟩ := bind_ok_iff.mp hact
    cases hact
    rw [on_response_http_field]
    split <;> exact hr
  | http_version =>
    obtain ⟨n, -, hact⟩ := bind_ok_iff.mp hact
    cases hact
    rw [on_response_version]
    split
    · exact hr
    · show (1001 : Int) ≠ 0
      decide
  | _ =>
    cases hact
    exact hr

/-- **The head in pieces**, `z` being the last: the loop ends with the response of the whole head,
and what follows is in the buffer. -/
theorem recvHead_pieces {pre : List UInt8} {r₁ : Registers} (later : List (List UInt8))
    (herr : regs.m_error = 0) (pieces : List (List UInt8)) (hz : z ≠ [])
    (hne : ∀ p ∈ pieces, p ≠ []) (hfit : ∀ p ∈ pieces ++ [z ++ o], p.length < data.length)
    (hfuel : pieces.length < fuel) (hstop : machine.stopped s.cs = false) (hbody : s.body_start = 0)
    (hpar : r₁.toParsed = s.toParsed) (hchunked : r₁.chunked = s.chunked)
    (hwhole : machine.whole Act.after .stale (pieces ++ [z]) s.cs = true)
    (hscan : machine.scan (pre ++ (pieces.flatten ++ z)) (pieces.flatten ++ z) pre.length s.cs r₁
      = .ok ((pre ++ (pieces.flatten ++ z)).length, .done, regs)) :
    ∃ s' data', recvHead fuel s data 0 (connection (pieces ++ (z ++ o) :: later))
        = .ok (some (s', data', o.length)) (connection later)
      ∧ data'.length = data.length ∧ data'.take o.length = o
      ∧ s'.toParsed = regs.toParsed ∧ s'.chunked = regs.chunked := by
  obtain ⟨fuel, rfl⟩ : ∃ n, fuel = n + 1 := ⟨fuel - 1, by omega⟩
  induction pieces generalizing pre data s r₁ fuel with
  | nil =>
    have hlen := hfit _ (mem_singleton_self _)
    rw [nil_append, Machine.whole] at hwhole
    cases hwalk : machine.walk Act.after z s.cs .stale with
    | none =>
      rw [hwalk] at hwhole
      cases hwhole
    | some qf =>
    obtain ⟨q, f⟩ := qf
    have hlast : machine.scan (pre ++ (z ++ [])) (z ++ []) pre.length s.cs r₁
        = .ok ((pre ++ z).length, .done, regs) := by
      rw [append_nil]
      exact hscan
    obtain ⟨p, r₂, hscan₂, hagrees⟩ := scan_lockstep response_lockstep
      (o ++ 0 :: data.drop ((z ++ o).length + 1)) hstop hwalk
      (inStep_stale z hpar hchunked hbody) hlast
    cases hagrees with
    | goesOn hq hrest _ =>
      obtain ⟨-, hstate⟩ := Prod.mk.inj (Except.ok.inj hrest)
      rw [(Prod.mk.inj hstate).1] at hq
      cases hq
    | stops hq hk _ hin =>
      obtain rfl : p = z.length := by
        rw [length_append] at hk
        omega
      have hall := scan_append o z hscan₂ fun h => absurd h hz
      rw [if_pos hq, ← append_assoc] at hall
      obtain ⟨data', hlen', htake, hloop⟩ := recvLoop_front false later fuel
        (append_ne_nil_of_left_ne_nil hz o) hlen hbody hall
      rw [length_append, Nat.add_sub_cancel_left, drop_left] at htake
      have hpos := length_pos_iff.mpr hz
      rw [length_append, afterExecute_done (hin.parsed ▸ herr)
        (by rw [length_append] at hlen; omega), Nat.add_sub_cancel_left] at hloop
      exact ⟨_, data', hloop, hlen', htake, hin.parsed.symm, hin.chunked.symm⟩
  | cons piece pieces ih =>
    -- `pre` has been scanned; the whole scan stands at the start of `piece`
    obtain ⟨hpne, hrne⟩ := forall_mem_cons.mp hne
    obtain ⟨hpfit, hrfit⟩ := forall_mem_cons.mp hfit
    rw [cons_append, Machine.whole] at hwhole
    cases hwalk : machine.walk Act.after piece s.cs .stale with
    | none =>
      rw [hwalk] at hwhole
      cases hwhole
    | some qf =>
    obtain ⟨q, f⟩ := qf
    rw [hwalk] at hwhole
    rw [flatten_cons, append_assoc piece] at hscan
    obtain ⟨p, r₂, hscan₂, hagrees⟩ := scan_lockstep response_lockstep
      (0 :: data.drop (piece.length + 1)) hstop hwalk
      (inStep_stale piece hpar hchunked hbody) hscan
    cases hagrees with
    | stops _ hk hp _ =>
      -- the end of the head is still to come
      have hpos := length_pos_iff.mpr hz
      simp only [length_append] at hk
      omega
    | goesOn hq hrest hin =>
      obtain ⟨data', hlen', -, hloop⟩ := recvLoop_front false (pieces ++ (z ++ o) :: later) fuel
        hpne hpfit hbody hscan₂
      have herr₂ : r₂.m_error = 0 := hin.parsed ▸ response_m_error hrest herr
      have hpos := length_pos_iff.mpr hpne
      have hdone : (q == .done) = false := by
        cases q <;> first | rfl | cases hq
      rw [afterExecute_running herr₂ (Bool.or_eq_false_iff.mp hq).1 hdone (by omega),
        Nat.sub_self] at hloop
      obtain ⟨fuel, rfl⟩ := Nat.exists_eq_add_one_of_ne_zero
        (Nat.ne_zero_of_lt (Nat.lt_of_succ_lt_succ hfuel))
      rw [← append_assoc pre, ← length_append] at hrest
      dsimp only at hwhole
      rw [hq, Bool.false_or] at hwhole
      obtain ⟨s', data'', hhead, hlen'', hrest'⟩ := ih (s := { toRegisters := r₂, cs := q }) hrne
        (hlen' ▸ hrfit) hq (hin.body_start (Bool.or_eq_false_iff.mp hq).2) hin.parsed hin.chunked
        hwhole hrest fuel (Nat.lt_of_succ_lt_succ hfuel)
      exact ⟨s', data'', hloop.trans hhead, hlen''.trans hlen', hrest'⟩

/-! ## The size line -/

/-- The value of a text of hexadecimal digits. -/
def hexValue (size : List UInt8) : Nat := size.foldl (fun n c => 16 * n + xdigitValue c) 0

private theorem hexClasses : ∀ c : UInt8, xdigit c = true →
    (c == byte 'H') = false ∧ (tolower c == byte 'x') = false :=
  forall_byte (by decide +kernel)

theorem strtol16_digits (hne : size ≠ []) (hdigits : ∀ c ∈ size, xdigit c = true)
    (rest : List UInt8) : strtol16 (size ++ CR :: rest) = clampLong false (hexValue size) := by
  have hprefix : ∀ a b l, (tolower b == byte 'x') = false →
      hexPrefix (a :: b :: l) = a :: b :: l := by
    intro a b l hb
    cases l with
    | nil => rfl
    | cons c l =>
      rw [hexPrefix, hb, Bool.and_false, Bool.false_and]
      rfl
  have hplain : hexPrefix (size ++ CR :: rest) = size ++ CR :: rest := by
    match size, hdigits with
    | [], _ => exact absurd rfl hne
    | [a], _ => exact hprefix a CR rest rfl
    | a :: b :: ds, hdigits =>
      exact hprefix a b _ (hexClasses b (hdigits b (by simp))).2
  have hstop : ∀ c ys, CR :: rest = c :: ys → xdigit c = false := by
    rintro _ _ ⟨⟩
    rfl
  rw [strtol16, signed_digits _ hne hdigits, hplain, hexDigits,
    leadingDigits_append xdigitValue 16 hstop _ _ hdigits]
  rfl

/-- The digits of a size. -/
theorem digits_pass (hne : size ≠ []) (hdigits : ∀ c ∈ size, xdigit c = true)
    (post : List UInt8) (r : Registers) :
    machine.Passes [] size post .start r .chunk_size { r with mark := 0 } := by
  refine .token [.mark] hne rfl (fun c hc => ?_) (fun _ => rfl) (fun c hc => ?_)
  · show (if c == byte 'H' then _ else if xdigit c then _ else _) = _
    rw [(hexClasses c (hdigits c hc)).1, if_neg Bool.false_ne_true, if_pos (hdigits c hc)]
  · exact if_pos (hdigits c hc)

/-- What `strtol` and the `int` make of a size. -/
def sizeInt (size : List UInt8) : Int := toInt32 (clampLong false (hexValue size))

/-- The registers behind a size line of `k` bytes. -/
def sizeRead (size : List UInt8) (k : Nat) (r : Registers) : Registers :=
  { r with
    mark := 0
    chunked := true
    content_len := sizeInt size
    chunks_done := sizeInt size ≤ 0
    body_start := k }

/-- The size line of a chunk. -/
theorem size_scanned (hne : size ≠ []) (hdigits : ∀ c ∈ size, xdigit c = true) (tail g : List UInt8)
    (r : Registers) :
    machine.scan (size ++ (CRLF ++ tail) ++ g) (size ++ (CRLF ++ tail)) 0 .start r
      = .ok (size.length + 2, .done, sizeRead size (size.length + 2) r) := by
  have hscan := (digits_pass hne hdigits (CRLF ++ tail ++ g) r).scan
  have hvalue : toInt32 (strtol16 (size ++ (CRLF ++ tail) ++ g)) = sizeInt size := by
    rw [append_assoc]
    show toInt32 (strtol16 (size ++ CR :: _)) = _
    rw [strtol16_digits hne hdigits, sizeInt]
  have hend : ∀ (buffer : List UInt8) (n : Nat),
      machine.scan buffer (CRLF ++ tail) n .chunk_size { r with mark := 0 }
        = .ok (n + 2, .done, { r with
            mark := 0
            chunked := true
            content_len := toInt32 (strtol16 buffer)
            chunks_done := toInt32 (strtol16 buffer) ≤ 0
            body_start := n + 2 }) := fun _ _ => rfl
  rw [hend, nil_append, nil_append, ← append_assoc, hvalue] at hscan
  exact hscan

/-- What a round finds when the size line for `n` bytes has been parsed and `tail`
is behind it. -/
structure SizeLine (n : Int) (tail : List UInt8) (s : HttpResponseParser)
    (data : List UInt8) (s' : HttpResponseParser) (data' : List UInt8) : Prop where
  parsed : s'.toParsed = s.toParsed
  content_len : s'.content_len = n
  chunks_done : s'.chunks_done = decide (n ≤ 0)
  length : data'.length = data.length
  front : data'.take tail.length = tail

/-- A round starts with a buffer that begins with `o`; the next read brings `r`, and the later ones
fit. -/
structure Reading (s : HttpResponseParser) (data o r : List UInt8) (rest : List (List UInt8)) :
    Prop where
  front : data.take o.length = o
  ne : r ≠ []
  fits : ∀ p ∈ (o ++ r) :: rest, p.length < data.length
  m_error : s.m_error = 0

variable {rest : List (List UInt8)}

theorem Reading.fit (h : Reading s data o r rest) : (o ++ r).length < data.length :=
  h.fits _ mem_cons_self

/-- One read for a size line. -/
theorem Reading.scanned (h : Reading s data o r rest) (fuel : Nat)
    (hscan : machine.scan (o ++ r ++ 0 :: data.drop ((o ++ r).length + 1)) (o ++ r) 0 .start
      s.init.reset = .ok (p, cs, regs)) :
    ∃ data', data'.length = data.length ∧ data'.take ((o ++ r).length - p) = (o ++ r).drop p
      ∧ recvSize (fuel + 1) s data o.length (connection (r :: rest))
        = afterExecute true fuel (o ++ r).length p data' { toRegisters := regs, cs }
            (connection rest) := by
  have hfit := h.fit
  rw [length_append] at hfit
  exact recvLoop_read true fuel rfl (recv_piece rfl (by omega)) ⟨h.front, by omega⟩ h.ne
    (Nat.zero_le _) hscan

/-- A buffer that begins with a size line: one read, and it is parsed. -/
theorem recvSize_line (h : Reading s data o r rest) (hne : size ≠ [])
    (hdigits : ∀ c ∈ size, xdigit c = true) (htext : o ++ r = size ++ (CRLF ++ tail))
    (fuel : Nat) :
    ∃ s' data', recvSize (fuel + 1) s data o.length (connection (r :: rest))
        = .ok (some (s', data', tail.length)) (connection rest)
      ∧ SizeLine (sizeInt size) tail s data s' data' := by
  have htwo : (size ++ CRLF).length = size.length + 2 := length_append
  have hsplit : o ++ r = size ++ CRLF ++ tail := htext.trans (append_assoc ..).symm
  have hlen : (o ++ r).length = size.length + 2 + tail.length := by
    rw [hsplit, length_append, htwo]
  have hscan : machine.scan (o ++ r ++ 0 :: data.drop ((o ++ r).length + 1)) (o ++ r) 0
      .start s.init.reset
      = .ok (size.length + 2, .done, sizeRead size (size.length + 2) s.init.reset) := by
    rw [htext]
    exact size_scanned hne hdigits _ _ _
  obtain ⟨data', hdata', htake, hloop⟩ := h.scanned fuel hscan
  have hfit := h.fit
  have hleft : (o ++ r).length - (size.length + 2) = tail.length := by omega
  have herr' : (sizeRead size (size.length + 2) s.init.reset).m_error = 0 := h.m_error
  rw [hleft, hsplit, ← htwo, drop_left] at htake
  rw [afterExecute_done herr' (by omega), hleft] at hloop
  exact ⟨_, data', hloop, rfl, rfl, rfl, hdata', htake⟩

/-! ## Chunks one by one -/

/-- A chunk as it is sent: its size in hexadecimal digits, and its payload. -/
structure Chunk where
  size : List UInt8
  payload : List UInt8

/-- A chunk as it is sent. -/
def Chunk.text (c : Chunk) : List UInt8 := c.size ++ (CRLF ++ (c.payload ++ CRLF))

structure Chunk.Valid (c : Chunk) : Prop where
  size_ne : c.size ≠ []
  digits : ∀ x ∈ c.size, xdigit x = true
  length : hexValue c.size = c.payload.length

/-- Every read brings one chunk, the whole of it; leading zeros of its size may
come before. -/
inductive OneByOne : List Chunk → List (List UInt8) → Prop where
  | nil : OneByOne [] []
  | chunk (c : Chunk) {cs : List Chunk} {reads : List (List UInt8)} :
      OneByOne cs reads → OneByOne (c :: cs) (c.text :: reads)
  | zeros {z : List UInt8} {c : Chunk} {cs : List Chunk} {reads : List (List UInt8)}
      (hne : z ≠ []) (hz : ∀ x ∈ z, x = byte '0') (hsize : c.size ≠ []) :
      OneByOne (c :: cs) reads → OneByOne ({ c with size := z ++ c.size } :: cs) (z :: reads)

variable {c : Chunk} {chunks : List Chunk} {reads : List (List UInt8)}

theorem OneByOne.solid (h : OneByOne chunks reads) : ∀ p ∈ reads, p ≠ [] := by
  induction h with
  | nil => exact fun _ h => absurd h not_mem_nil
  | chunk c _ ih =>
    refine forall_mem_cons.mpr ⟨?_, ih⟩
    exact append_ne_nil_of_right_ne_nil _ (cons_ne_nil _ _)
  | zeros hne _ _ _ ih => exact forall_mem_cons.mpr ⟨hne, ih⟩

/-- The next round starts with the empty buffer. -/
theorem OneByOne.reading {t : HttpResponseParser} {rest' : List (List UInt8)}
    (h : OneByOne chunks rest') (hne : chunks ≠ []) (hread : Reading s data o r rest)
    (hsub : ∀ p ∈ rest', p ∈ rest) (hlen : data'.length = data.length) (herr : t.m_error = 0) :
    ∃ x later, rest' = x :: later ∧ Reading t data' [] x later := by
  obtain ⟨x, later, rfl⟩ : ∃ x later, rest' = x :: later := by
    cases h with
    | nil => exact absurd rfl hne
    | chunk | zeros => exact ⟨_, _, rfl⟩
  refine ⟨x, later, rfl, take_zero, h.solid x mem_cons_self, fun p hp => ?_, herr⟩
  rw [hlen]
  exact hread.fits p (mem_cons_of_mem _ (hsub p hp))

theorem Chunk.Valid.without_zeros (h : ({ c with size := z ++ c.size } : Chunk).Valid)
    (hz : ∀ x ∈ z, x = byte '0') (hsize : c.size ≠ []) : c.Valid := by
  have hzero : ∀ z : List UInt8, (∀ x ∈ z, x = byte '0') →
      z.foldl (fun n c => 16 * n + xdigitValue c) 0 = 0 := by
    intro z
    induction z with
    | nil => intro _; rfl
    | cons x z ih =>
      intro hz
      obtain ⟨hx, hz⟩ := forall_mem_cons.mp hz
      rw [foldl_cons, hx]
      exact ih hz
  refine ⟨hsize, fun x hx => h.digits x (mem_append_right _ hx), ?_⟩
  rw [← h.length, hexValue, hexValue, foldl_append, hzero z hz]

/-- The size of a chunk that fits is read right. -/
theorem Chunk.Valid.sizeInt_eq (h : c.Valid) {n : Nat} (hfit : c.text.length ≤ n)
    (hn : n < 2 ^ 31) : sizeInt c.size = c.payload.length := by
  have hlen : c.payload.length ≤ c.text.length := by
    simp only [Chunk.text, length_append]
    omega
  rw [sizeInt, h.length, toInt32_clamp (by omega)]

/-- The size line of the next chunk of those that come one by one. -/
theorem recvSize_oneByOne (h : OneByOne (c :: chunks) ((o ++ r) :: rest)) (hc : c.Valid)
    (hread : Reading s data o r rest) (hsmall : data.length ≤ 2 ^ 31)
    (hfuel : rest.length ≤ fuel) :
    ∃ s' data' rest', recvSize (fuel + 1) s data o.length (connection (r :: rest))
        = .ok (some (s', data', (c.payload ++ CRLF).length)) (connection rest')
      ∧ OneByOne chunks rest' ∧ (∀ p ∈ rest', p ∈ rest)
      ∧ SizeLine c.payload.length (c.payload ++ CRLF) s data s' data' := by
  generalize hcs : c :: chunks = all at h
  generalize hreads : (o ++ r) :: rest = reads at h
  induction h generalizing c chunks o r rest s data fuel with
  | nil => cases hcs
  | chunk c' hrest =>
    cases hcs
    obtain ⟨hor, rfl⟩ := cons.inj hreads
    have hfit := hread.fit
    obtain ⟨s', data', hsize, hline⟩ := recvSize_line hread hc.size_ne hc.digits hor fuel
    rw [hor] at hfit
    rw [hc.sizeInt_eq (Nat.le_sub_one_of_lt hfit) (by omega)] at hline
    exact ⟨s', data', _, hsize, hrest, fun _ h => h, hline⟩
  | @zeros z c cs reads hne hz hsize hrest ih =>
    -- the digits are forgotten, which does not matter for zeros
    cases hcs
    obtain ⟨hor, rfl⟩ := cons.inj hreads
    have hpass := digits_pass hne (fun x hx => by rw [hz x hx]; rfl)
      (0 :: data.drop ((o ++ r).length + 1)) s.init.reset
    have hscan : machine.scan (o ++ r ++ 0 :: data.drop ((o ++ r).length + 1)) (o ++ r) 0
        .start s.init.reset = .ok ((o ++ r).length, .chunk_size, s.init.reset) := by
      rw [hor] at hpass ⊢
      exact hpass.taken
    obtain ⟨data', hdata', -, hloop⟩ := hread.scanned fuel hscan
    have herr : s.init.reset.m_error = 0 := hread.m_error
    have hfit := hread.fit
    have hpos := length_pos_iff.mpr hne
    rw [← hor] at hpos
    rw [afterExecute_running herr rfl rfl (by omega), Nat.sub_self] at hloop
    obtain ⟨x, later, rfl, hread'⟩ := hrest.reading (cons_ne_nil _ _) hread (fun _ h => h)
      hdata' (t := { toRegisters := s.init.reset, cs := .chunk_size }) herr
    obtain ⟨fuel, rfl⟩ := Nat.exists_eq_add_one_of_ne_zero (Nat.ne_zero_of_lt hfuel)
    obtain ⟨s', data'', rest', hsize', hrest', hsub, hline⟩ := ih
      (hc.without_zeros hz hsize) hread' (hdata' ▸ hsmall) (Nat.le_of_succ_le_succ hfuel) rfl rfl
    exact ⟨s', data'', rest', hloop.trans hsize', hrest', fun p hp => mem_cons_of_mem _ (hsub p hp),
      hline.parsed, hline.content_len, hline.chunks_done, hline.length.trans hdata', hline.front⟩

/-- The payload of a chunk: two bytes are stripped from the end of the buffer, not from behind
the payload. -/
theorem takePayload_ok (body : List UInt8)
    (hfront : data.take (payload ++ CRLF ++ extra).length = payload ++ CRLF ++ extra)
    (t : Transport) :
    ∃ data', takePayload payload.length data ((payload ++ CRLF ++ extra).length - 2) body t
        = .ok (some (body ++ payload, data', extra.length)) t
      ∧ data'.length = data.length
      ∧ data'.take extra.length = (CRLF ++ extra).take extra.length := by
  obtain ⟨rest, rfl⟩ : ∃ rest, data = payload ++ (CRLF ++ (extra ++ rest)) := by
    refine ⟨data.drop (payload ++ CRLF ++ extra).length, ?_⟩
    have hsplit := take_append_drop (payload ++ CRLF ++ extra).length data
    rw [hfront] at hsplit
    simpa only [append_assoc] using hsplit.symm
  have hlen : (((payload ++ CRLF ++ extra).length : Nat) : Int) - 2
      = payload.length + extra.length := by
    have htwo : CRLF.length = 2 := rfl
    rw [length_append, length_append, htwo]
    omega
  have hleft : ((payload.length : Int) + extra.length - payload.length).toNat
      = extra.length := by omega
  have hwindow : window (payload ++ (CRLF ++ (extra ++ rest))) payload.length extra.length
      = (CRLF ++ extra).take extra.length := by
    rw [window, drop_left, ← append_assoc, take_append_of_le_length]
    rw [length_append]
    exact Nat.le_add_left _ _
  have hsize : ((CRLF ++ extra).take extra.length).length = extra.length := by
    rw [length_take, length_append]
    exact Nat.min_eq_left (Nat.le_add_left _ _)
  have hmoved := take_add_overwrite (l := payload ++ (CRLF ++ (extra ++ rest)))
    ((CRLF ++ extra).take extra.length) (Nat.zero_le _)
  rw [hsize, Nat.zero_add, take_zero, nil_append] at hmoved
  refine ⟨overwrite (payload ++ (CRLF ++ (extra ++ rest))) 0
    ((CRLF ++ extra).take extra.length), ?_, ?_, hmoved⟩
  · have happend : append body (payload ++ (CRLF ++ (extra ++ rest))) payload.length t
        = .ok (body ++ payload) t := by
      rw [append, if_neg (by omega), Int.toNat_natCast, take_left]
      rfl
    rw [hlen, takePayload, if_pos (by omega), bind_ok happend, hleft, Int.toNat_natCast, hwindow]
    rfl
  · refine length_overwrite ?_
    rw [hsize]
    simp only [length_append]
    omega

/-- The same with nothing behind the chunk. -/
theorem takePayload_exact (body : List UInt8)
    (hfront : data.take (payload ++ CRLF).length = payload ++ CRLF) (t : Transport) :
    ∃ data', takePayload payload.length data ((payload ++ CRLF).length - 2) body t
        = .ok (some (body ++ payload, data', 0)) t
      ∧ data'.length = data.length := by
  rw [← append_nil (payload ++ CRLF)] at hfront ⊢
  obtain ⟨data', hpayload, hlen, -⟩ := takePayload_ok body hfront t
  exact ⟨data', hpayload, hlen⟩

/-- One round: a size line and its payload. -/
theorem recvChunks_round {data'' body body' : List UInt8} {len' len'' : Nat} {t'' : Transport}
    (fuel : Nat) (hsize : recvSize (t.work + 1) s data len t = .ok (some (s', data', len')) t')
    (hpayload : takePayload s'.content_len data' (len' - 2) body t'
      = .ok (some (body', data'', len'')) t'') :
    recvChunks (fuel + 1) s data len body t = if s'.chunks_done then .ok (some (s', body')) t''
        else recvChunks fuel s' data'' len'' body' t'' := by
  show (recvSize (t.work + 1) s data len >>= _) t = _
  rw [bind_ok hsize]
  dsimp only
  rw [bind_ok hpayload]
  dsimp only
  split <;> rfl

theorem SizeLine.more (h : SizeLine payload.length tail s data s' data') (hne : payload ≠ []) :
    ¬ s'.chunks_done = true := by
  have hpos := length_pos_iff.mpr hne
  rw [h.chunks_done, decide_eq_true_eq]
  omega

/-- Every piece can be received. -/
theorem length_le_work (pieces : List (List UInt8)) : pieces.length ≤ (connection pieces).work := by
  induction pieces with
  | nil => exact Nat.zero_le _
  | cons p pieces ih =>
    have hwork : (connection (p :: pieces)).work = p.length + 1 + (connection pieces).work := rfl
    rw [hwork, length_cons]
    omega

/-- **Chunks that come one by one** are put together. -/
theorem recvChunks_oneByOne {last : Chunk} (hlast : last.Valid) (hend : last.payload = [])
    (hchunks : ∀ c ∈ chunks, c.Valid ∧ c.payload ≠ []) (body : List UInt8)
    (hreads : OneByOne (chunks ++ [last]) ((o ++ r) :: rest)) (hread : Reading s data o r rest)
    (hsmall : data.length ≤ 2 ^ 31) (hfuel : chunks.length ≤ fuel) :
    ∃ s', recvChunks (fuel + 1) s data o.length body (connection (r :: rest))
        = .ok (some (s', body ++ (chunks.map Chunk.payload).flatten)) (connection [])
      ∧ s'.toParsed = s.toParsed := by
  induction chunks generalizing o r rest s data fuel body with
  | nil =>
    obtain ⟨s', data', rest', hsize, hrest, -, hline⟩ := recvSize_oneByOne hreads hlast hread
      hsmall (Nat.le_of_succ_le (length_le_work (r :: rest)))
    obtain ⟨data'', hpayload, -⟩ := takePayload_exact body hline.front (connection rest')
    rw [← hline.content_len] at hpayload
    have hdone : s'.chunks_done = true := by
      rw [hline.chunks_done, hend]
      rfl
    cases hrest
    rw [recvChunks_round fuel hsize hpayload, hdone, if_pos rfl, hend]
    exact ⟨s', rfl, hline.parsed⟩
  | cons c chunks ih =>
    obtain ⟨⟨hc, hne⟩, hchunks⟩ := forall_mem_cons.mp hchunks
    obtain ⟨s', data', rest', hsize, hrest, hsub, hline⟩ := recvSize_oneByOne hreads hc hread
      hsmall (Nat.le_of_succ_le (length_le_work (r :: rest)))
    obtain ⟨data'', hpayload, hdata''⟩ := takePayload_exact body hline.front (connection rest')
    rw [← hline.content_len] at hpayload
    have hlen : data''.length = data.length := hdata''.trans hline.length
    rw [recvChunks_round fuel hsize hpayload, if_neg (hline.more hne)]
    -- the buffer is empty again: the next chunk comes with a read of its own
    obtain ⟨x, later, rfl, hread'⟩ := hrest.reading (t := s') (by simp) hread hsub hlen
      (by rw [hline.parsed]; exact hread.m_error)
    obtain ⟨fuel, rfl⟩ := Nat.exists_eq_add_one_of_ne_zero (Nat.ne_zero_of_lt hfuel)
    obtain ⟨s'', hrun, hs''⟩ := ih hchunks (body ++ c.payload) (o := []) hrest hread'
      (hlen ▸ hsmall) (Nat.le_of_succ_le_succ hfuel)
    refine ⟨s'', ?_, hs''.trans hline.parsed⟩
    rw [map_cons, flatten_cons, ← append_assoc]
    exact hrun

/-! ## More than one chunk in the buffer -/

/-- A line break where a size line is expected: the response is lost, whatever
comes next. -/
theorem recvSize_refused (fuel : Nat) (hconn : t.connected = true)
    (hfront : data.take (CR :: o).length = CR :: o) (hroom : (CR :: o).length + 1 < data.length) :
    ∃ t', recvSize (fuel + 1) s data (CR :: o).length t = .ok none t' := by
  rcases recv_cases t (data.length - 1 - (CR :: o).length) with
    ⟨rt, x, t', hrecv, hrt⟩ | ⟨x, t', hx, hfit, hrecv⟩
  · have hread : readRaw data (CR :: o).length (data.length - 1 - (CR :: o).length) t
        = .ok (rt, overwrite data (CR :: o).length x) t' := by
      rw [readRaw, if_neg (by omega), if_neg (by rw [hconn]; decide), hrecv]
    rw [recvSize, recvLoop, bind_ok (onStream_ok hread)]
    dsimp only
    rw [if_pos hrt]
    exact ⟨_, rfl⟩
  · have hscan : machine.scan (CR :: o ++ x ++ 0 :: data.drop ((CR :: o ++ x).length + 1))
        (CR :: o ++ x) 0 .start s.init.reset = .ok (0, .error, s.init.reset) := rfl
    obtain ⟨data', -, -, hloop⟩ := recvLoop_read true fuel hconn hrecv
      ⟨hfront, by omega⟩ hx (Nat.zero_le _) hscan
    rw [afterExecute_dead rfl] at hloop
    exact ⟨_, hloop⟩

/-- **A chunk with more behind it**: the line break behind its payload is taken
for the next size line. -/
theorem recvChunks_together (hread : Reading s data o r rest) (hc : c.Valid)
    (hne : c.payload ≠ []) (htext : o ++ r = c.text ++ extra) (hextra : extra ≠ []) (fuel : Nat)
    (body : List UInt8) (hsmall : data.length ≤ 2 ^ 31) :
    ∃ t', recvChunks (fuel + 2) s data o.length body (connection (r :: rest)) = .ok none t' := by
  have hfit := hread.fit
  have hall : (o ++ r).length = c.text.length + extra.length := by
    rw [htext, length_append]
  have hshape : o ++ r = c.size ++ (CRLF ++ (c.payload ++ CRLF ++ extra)) := by
    rw [htext]
    simp only [Chunk.text, append_assoc]
  obtain ⟨s', data', hsize, hline⟩ := recvSize_line hread hc.size_ne hc.digits hshape
    (connection (r :: rest)).work
  rw [hc.sizeInt_eq (Nat.le_refl _) (by omega)] at hline
  obtain ⟨data'', hpayload, hdata'', hfront''⟩ := takePayload_ok body hline.front (connection rest)
  rw [← hline.content_len] at hpayload
  rw [recvChunks_round (fuel + 1) hsize hpayload, if_neg (hline.more hne)]
  -- what is left begins with the line break behind the payload
  obtain ⟨left, hrest⟩ : ∃ left, (CRLF ++ extra).take extra.length = CR :: left := by
    cases extra with
    | nil => exact absurd rfl hextra
    | cons x extra => exact ⟨_, rfl⟩
  have hlen : extra.length = (CR :: left).length := by
    rw [← hrest, length_take, length_append]
    exact (Nat.min_eq_left (Nat.le_add_left _ _)).symm
  have hroom : (CR :: left).length + 1 < data''.length := by
    have htext : 2 ≤ c.text.length := by
      have htwo : CRLF.length = 2 := rfl
      simp only [Chunk.text, length_append, htwo]
      omega
    rw [hdata'', hline.length, ← hlen]
    omega
  rw [hrest, hlen] at hfront''
  obtain ⟨t', hrefused⟩ := recvSize_refused (s := s') (t := connection rest)
    (connection rest).work rfl hfront'' hroom
  rw [hlen]
  refine ⟨t', ?_⟩
  show (recvSize ((connection rest).work + 1) s' data'' (CR :: left).length >>= _) _ = _
  rw [bind_ok hrefused]
  rfl

/-- **A size line with fewer than two bytes behind it**: the length that is left is
negative. -/
theorem recvChunks_negative (hread : Reading s data o r rest) (hne : size ≠ [])
    (hdigits : ∀ c ∈ size, xdigit c = true) (htext : o ++ r = size ++ (CRLF ++ tail))
    (htail : tail.length < 2) (fuel : Nat) (body : List UInt8) :
    recvChunks (fuel + 1) s data o.length body (connection (r :: rest))
      = .error .length_error (connection rest) := by
  obtain ⟨s', data', hsize, -⟩ := recvSize_line hread hne hdigits htext
    (connection (r :: rest)).work
  have happend : ∀ n : Int, n < 0 → append body data' n (connection rest)
      = .error .length_error (connection rest) := by
    intro n hn
    rw [append, if_pos hn]
    rfl
  have hpayload : takePayload s'.content_len data' (tail.length - 2) body (connection rest)
      = .error .length_error (connection rest) := by
    rw [takePayload]
    split
    · rw [bind_error (happend _ (by omega))]
    · rw [bind_error (happend _ (by omega))]
  show (recvSize ((connection (r :: rest)).work + 1) s data o.length >>= _) _ = _
  rw [bind_ok hsize]
  dsimp only
  rw [bind_error hpayload]

/-! ## The response -/

/-- The call behind the head. -/
theorem recvResponse_eq [LexicalCast] {m : Memory} : recvResponse m t
      = (recvHead (t.work + 1) (.new m.m_error m.m_websocket) m.buffer 0 >>= fun
        | none => pure none
        | some (s, data, offset) =>
          if s.chunked then do
            let t ← get
            match ← recvChunks (t.work + 1) s data offset [] with
            | none => pure none
            | some (s, body) => pure (some { s.m_data with m_body := body })
          else recvBody s.m_data s.getContentLength.toInt64.toInt data offset) t :=
  rfl

/-- A head that announces chunks: in one piece the parser takes all of it, and has read
`rsp`. -/
def Announces (head : List UInt8) (websocket : Bool) (rsp : HttpResponse) : Prop :=
  ∃ r, machine.scan head head 0 .start (HttpResponseParser.new 0 websocket).reset
      = .ok (head.length, .done, r) ∧ r.m_error = 0 ∧ r.chunked = true ∧ r.m_data = rsp

/-- A division into reads of at most `n` bytes with every token of the head in one read.  What comes
with its end, `o`, stands in the buffer with the next read: `buffers` are the contents from then on.
-/
def Divided (head : List UInt8) (n : Nat) (reads buffers : List (List UInt8)) : Prop :=
  ∃ pieces z o r rest, head = pieces.flatten ++ z ∧ reads = pieces ++ (z ++ o) :: r :: rest
    ∧ buffers = (o ++ r) :: rest ∧ tokensWhole (pieces ++ [z]) = true
    ∧ (∀ p ∈ pieces, p ≠ []) ∧ z ≠ [] ∧ r ≠ []
    ∧ (∀ p ∈ pieces ++ [z ++ o], p.length ≤ n) ∧ ∀ p ∈ buffers, p.length ≤ n

theorem OneByOne.flatten (h : OneByOne chunks reads) :
    reads.flatten = (chunks.map Chunk.text).flatten := by
  induction h with
  | nil => rfl
  | chunk c _ ih => rw [flatten_cons, ih, map_cons, flatten_cons]
  | zeros _ _ _ _ ih =>
    rw [flatten_cons, ih, map_cons, flatten_cons, map_cons, flatten_cons]
    simp only [Chunk.text, append_assoc]

/-- The division is one of the bytes of the response. -/
theorem Divided.flatten {head : List UInt8} {n : Nat} {buffers : List (List UInt8)}
    (hd : Divided head n reads buffers) : reads.flatten = head ++ buffers.flatten := by
  obtain ⟨pieces, z, o, r, rest, rfl, rfl, rfl, -⟩ := hd
  simp only [flatten_append, flatten_cons, append_assoc]

theorem OneByOne.length_le (h : OneByOne chunks reads) : chunks.length ≤ reads.length := by
  induction h with
  | nil => exact Nat.le_refl _
  | chunk _ _ ih => exact Nat.succ_le_succ ih
  | zeros _ _ _ _ ih =>
    rw [length_cons] at ih ⊢
    exact Nat.le_succ_of_le ih

/-- The buffer of the call has room for `n` bytes and the null byte; the code counts
them in an `int`. -/
structure Memory.Ready (m : Memory) (n : Nat) : Prop where
  m_error : m.m_error = 0
  buffer : m.buffer.length = n + 1
  small : n < 2 ^ 31

section Response

variable {m : Memory} {n : Nat} (hm : m.Ready n) {head : List UInt8} {rsp : HttpResponse}
  (hh : Announces head m.m_websocket rsp)
include hm hh

/-- The call up to the chunks. -/
theorem recvHead_divided {buffers : List (List UInt8)} (hd : Divided head n reads buffers) :
    ∃ s data o r rest, buffers = (o ++ r) :: rest ∧ Reading s data o r rest
      ∧ data.length = n + 1 ∧ s.m_data = rsp ∧ s.chunked = true
      ∧ recvHead ((connection reads).work + 1) (.new m.m_error m.m_websocket) m.buffer 0
          (connection reads) = .ok (some (s, data, o.length)) (connection (r :: rest)) := by
  obtain ⟨pieces, z, o, r, rest, rfl, rfl, rfl, hwhole, hne, hz, hr, hfits, hlater⟩ := hd
  obtain ⟨regs, hscan, herr, hchunked, hdata⟩ := hh
  have hfuel : pieces.length < (connection (pieces ++ (z ++ o) :: r :: rest)).work + 1 := by
    have hwork := length_le_work (pieces ++ (z ++ o) :: r :: rest)
    rw [length_append] at hwork
    omega
  have hfit : ∀ p ∈ pieces ++ [z ++ o], p.length < m.buffer.length := by
    intro p hp
    rw [hm.buffer]
    exact Nat.lt_succ_of_le (hfits p hp)
  obtain ⟨s, data, hhead, hlen, htake, hs, hs'⟩ := recvHead_pieces
    (s := .new 0 m.m_websocket) (r :: rest) herr pieces hz hne hfit hfuel rfl rfl rfl rfl hwhole
    (show machine.scan ([] ++ _) _ _ _ _ = .ok (([] ++ _).length, _) from hscan)
  have hroom : ∀ p ∈ (o ++ r) :: rest, p.length < data.length := by
    intro p hp
    rw [hlen, hm.buffer]
    exact Nat.lt_succ_of_le (hlater p hp)
  refine ⟨s, data, o, r, rest, rfl, ⟨htake, hr, hroom, by rw [hs, herr]⟩, hlen.trans hm.buffer,
    by rw [hs, hdata], hs'.trans hchunked, ?_⟩
  rw [hm.m_error]
  exact hhead

end Response

/-- A head that announces chunks, and the memory for 100 bytes. -/
def sampleHead : List UInt8 := bytes "HTTP/1.1 200 OK\r\nTransfer-Encoding: chunked\r\n\r\n"

def sampleResponse : HttpResponse where
  m_websocket := false
  m_reason := bytes "OK"
  m_headers := [(bytes "Transfer-Encoding", bytes "chunked")]

def sampleMemory : Memory where
  m_error := 0
  m_websocket := false
  buffer := List.replicate 101 0

theorem sampleHead_announces : Announces sampleHead false sampleResponse := by
  refine ⟨{ (HttpResponseParser.new 0 false).reset with
    m_data := sampleResponse
    mark := 36
    field_start := 17
    field_len := 17
    body_start := 47
    chunked := true }, ?_, rfl, rfl, rfl⟩
  decide +kernel

theorem sampleHead_divided (rest : List (List UInt8)) (hr : r ≠ [])
    (hfits : ∀ p ∈ r :: rest, p.length ≤ 100) :
    Divided sampleHead 100 (sampleHead :: r :: rest) (r :: rest) :=
  ⟨[], sampleHead, [], r, rest, rfl, rfl, rfl, rfl, nofun, by decide, hr, by decide, hfits⟩

end SylarHttpClient
