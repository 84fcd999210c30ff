import Sylar.HttpParserProofs

/-! # Receiving a request (`http_session.cc`)

`HttpSession::recvRequest` reads from the socket into one buffer, hands each
read to the parser until it is finished, and then fetches the rest of the
body.

How the bytes of a request are divided into reads is up to the network.  The
parser forgets its positions between reads, so the division matters where a
token is cut.

* **`same_request`** — a request is read right under every division that cuts no token, and is
  lost under some division.
* **`cut_name_loses_body`** — a request that loses its body when a read ends
  inside a field name. -/

namespace SylarHttp

open ListWindow SylarBytearray SylarStream Scanner List

abbrev HttpM := EStateM HttpFault Transport

/-- A stream call of the session. -/
def onStream {α : Type} (x : StreamM α) : HttpM α := fun t =>
  match x t with
  | .ok a t => .ok a t
  | .error e t => .error (.stream e) t

/-- A parser call of the session. -/
def onParser {α : Type} (x : Except HttpFault α) : HttpM α := fun t =>
  match x with
  | .ok a => .ok a t
  | .error e => .error e t

/-- `SocketStream::close()`. -/
def close : HttpM Unit := modify fun t => { t with connected := false }

/-- `close(); return nullptr;` -/
def giveUp {α : Type} : HttpM (Option α) := do
  close
  pure none

/-- The loop of `recvRequest`: the parser when it is finished, the buffer and
the number of bytes left in it. -/
def recvLoop : Nat → HttpRequestParser → List UInt8 → Nat →
    HttpM (Option (HttpRequestParser × List UInt8 × Nat))
  | 0, _, _, _ => throw (.stream .stuck)
  | fuel + 1, parser, data, offset => do
    let (len, data) ← onStream (readRaw data offset (data.length - offset))
    if len ≤ 0 then giveUp
    else
      let len := len.toNat + offset
      let (nparse, data, parser) ← onParser (parser.execute data len)
      if parser.hasError then giveUp
      -- `offset == buffer_size`: the connection is left open
      else if len - nparse = data.length then pure none
      else if parser.isFinished then pure (some (parser, data, len - nparse))
      else recvLoop fuel parser data (len - nparse)

/-- The body: `offset` bytes of it are in the buffer. -/
def recvBody (q : HttpRequest) (length : Int) (data : List UInt8) (offset : Nat) :
    HttpM (Option HttpRequest) :=
  if 0 < length then
    -- bytes behind the body are dropped with the buffer
    let copied := if offset ≤ length then data.take offset else data.take length.toNat
    if 0 < length - offset then do
      let (rt, rest) ←
        onStream (readFixSize (List.replicate (length - offset).toNat 0))
      if rt ≤ 0 then giveUp
      else pure (some { q with m_body := copied ++ rest })
    else pure (some { q with m_body := copied })
  else pure (some q)

/-- What `recvRequest` allocates and does not set: three fields of the parser and the buffer of
`GetHttpRequestBufferSize()` bytes. -/
structure Memory where
  m_error : Int
  uri_relaxed : Bool
  query_start : Nat
  buffer : List UInt8

/-- **`HttpSession::recvRequest`**; `none` is the null pointer. -/
def recvRequest [LexicalCast] (m : Memory) : HttpM (Option HttpRequest) := do
  let t ← get
  let parser := HttpRequestParser.new m.m_error m.uri_relaxed m.query_start
  match ← recvLoop (t.work + 1) parser m.buffer 0 with
  | none => pure none
  | some (parser, data, offset) =>
    recvBody parser.m_data parser.getContentLength.toInt64.toInt data offset

/-- A connection on which the reads meet these pieces. -/
def connection (pieces : List (List UInt8)) : Transport where
  connected := true
  incoming := pieces.map .bytes
  grants := []
  sent := []

/-- No cut falls between the byte where the parser notes a position and the byte where an action
hands the token on. -/
def tokensWhole (relaxed : Bool) (pieces : List (List UInt8)) : Bool :=
  (machine relaxed).whole Act.after .stale pieces .start

/-- The bytes begin with a request line, not with a socket message. -/
def startsWithMethod : List UInt8 → Bool
  | [] => false
  | c :: _ => digit c || upper c

/-- The length of the head: request line, header fields and empty line. -/
def headLength (relaxed : Bool) (R : List UInt8) : Nat :=
  (machine relaxed).span R .start

/-! ## The announced length

`getContentLength()` is unsigned, and `recvRequest` stores it in an `int64_t`. -/

variable {n : UInt64} {piece g tail : List UInt8} {len : Nat} {m m₁ m₂ : Memory} {length : Int}
  {t₁ : Transport}

theorem toInt64_of_lt (h : n.toNat < 2 ^ 63) : n.toInt64.toInt = n.toNat := by
  show n.toBitVec.toInt = _
  rw [BitVec.toInt_eq_toNat_of_lt (by rw [UInt64.toNat_toBitVec]; omega)]
  rfl

theorem toInt64_of_le (h : 2 ^ 63 ≤ n.toNat) : n.toInt64.toInt < 0 := by
  show n.toBitVec.toInt < _
  rw [BitVec.toInt_eq_toNat_cond, if_neg (by rw [UInt64.toNat_toBitVec]; omega)]
  have := n.toNat_lt
  rw [UInt64.toNat_toBitVec]
  omega

/-! ## One read -/

variable {t t' : Transport} {s : HttpRequestParser} {data R buffer : List UInt8}
  {p fuel k offset : Nat} {cs : Cs} {r r' : Registers} {relaxed : Bool} {q : HttpRequest}

variable {α : Type} {a : α} {data' : List UInt8} {s' : HttpRequestParser}

theorem onStream_ok {x : StreamM α} (h : x t = .ok a t') :
    onStream x t = .ok a t' := by
  rw [onStream, h]

theorem onParser_ok {x : Except HttpFault α} (h : x = .ok a) (t : Transport) :
    onParser x t = .ok a t := by
  rw [h]
  rfl

theorem of_bind_ok {ε σ β : Type} {x : EStateM ε σ α} {f : α → EStateM ε σ β} {t t' : σ} {b : β}
    (h : (x >>= f) t = .ok b t') :
    ∃ a t₁, x t = .ok a t₁ ∧ f a t₁ = .ok b t' := by
  cases hx : x t with
  | ok a t₁ => exact ⟨a, t₁, rfl, (bind_ok hx).symm.trans h⟩
  | error e t₁ => exact nomatch (bind_error hx).symm.trans h

theorem onStream_eq_ok {x : StreamM α} (h : onStream x t = .ok a t') :
    x t = .ok a t' := by
  rw [onStream] at h
  split at h
  · next hx =>
    cases h
    exact hx
  · cases h

theorem onParser_eq_ok {x : Except HttpFault α} (h : onParser x t = .ok a t') :
    x = .ok a ∧ t' = t := by
  cases x with
  | error e => cases h
  | ok b =>
    cases h
    exact ⟨rfl, rfl⟩

/-- What every action keeps, the loop keeps; and it hands on no parser with
an error. -/
theorem recvLoop_invariant {P : Parsed → Prop}
    (hP : ∀ {buffer p a r r'}, perform buffer p a r = .ok r' → P r.toParsed → P r'.toParsed)
    (fuel : Nat) {offset' : Nat} {t t' : Transport}
    (h : recvLoop fuel s data offset t = .ok (some (s', data', offset')) t') (hs : P s.toParsed) :
    P s'.toParsed ∧ ¬ s'.hasError = true := by
  induction fuel generalizing s s' data data' offset offset' t t' with
  | zero =>
    cases h
  | succ fuel ih =>
    rw [recvLoop] at h
    obtain ⟨⟨len, data₁⟩, t₁, -, h⟩ := of_bind_ok h
    dsimp only at h
    split_ifs at h with hlen
    · cases h
    · obtain ⟨⟨n, data₂, s₁⟩, t₂, hexec, h⟩ := of_bind_ok h
      have hs₁ := execute_invariant hP (onParser_eq_ok hexec).1 hs
      dsimp only at h
      split_ifs at h with herr
      · cases h
      · cases h
      · cases h
        exact ⟨hs₁, herr⟩
      · exact ih h hs₁

/-- What the loop does with the parser's answer to a read of `len` bytes. -/
def afterExecute (fuel len nparse : Nat) (data : List UInt8)
    (s : HttpRequestParser) :
    HttpM (Option (HttpRequestParser × List UInt8 × Nat)) :=
  if s.hasError then giveUp
  else if len - nparse = data.length then pure none
  else if s.isFinished then pure (some (s, data, len - nparse))
  else recvLoop fuel s data (len - nparse)

/-- One read that brings a piece. -/
theorem recvLoop_read (fuel : Nat) (hconn : t.connected = true)
    (hrecv : t.recv data.length = ((piece.length : Int), piece, t')) (hne : piece ≠ []) :
    recvLoop (fuel + 1) s data 0 t = (do
          let (nparse, data, s) ←
            onParser (s.execute (piece ++ data.drop piece.length) piece.length)
          afterExecute fuel piece.length nparse data s) t' := by
  have hover : overwrite data 0 piece = piece ++ data.drop piece.length := by
    rw [overwrite, take_zero, nil_append, Nat.zero_add]
  have hread : readRaw data 0 (data.length - 0) t
      = .ok ((piece.length : Int), overwrite data 0 piece) t' := by
    rw [readRaw, if_neg (by omega), if_neg (by rw [hconn]; decide), Nat.sub_zero, hrecv]
  have hpos : ¬ (piece.length : Int) ≤ 0 := by
    have := length_pos_iff.mpr hne
    omega
  rw [recvLoop, bind_ok (onStream_ok hread)]
  dsimp only
  rw [if_neg hpos, Int.toNat_natCast, Nat.add_zero, hover]
  rfl

/-- One read whose piece the parser scans. -/
theorem recvLoop_piece (fuel : Nat) (hconn : t.connected = true)
    (hrecv : t.recv data.length = ((piece.length : Int), piece, t')) (hne : piece ≠ [])
    (hfit : piece.length ≤ data.length)
    (hscan : (machine s.uri_relaxed).scan (piece ++ data.drop piece.length) piece 0
      s.cs s.reset = .ok (p, cs, r)) :
    ∃ data', data'.length = data.length ∧ data'.take (piece.length - p) = piece.drop p
      ∧ recvLoop (fuel + 1) s data 0 t
        = afterExecute fuel piece.length p data' (s.after cs r) t' := by
  have hp : p ≤ piece.length := by
    rw [scan_span _ hscan, Nat.zero_add]
    exact span_le _ _ _
  have hexec := execute_piece (s := s) (data.drop piece.length) hne
  rw [hscan] at hexec
  refine ⟨_, ?_, take_moved (data.drop piece.length) hp, ?_⟩
  · rw [length_moved _ hp, length_drop]
    omega
  · rw [recvLoop_read fuel hconn hrecv hne, bind_ok (onParser_ok hexec _)]

theorem after_cs (hs : s.cs.dead = false) (cs : Cs) (r : Registers) : (s.after cs r).cs = cs := by
  rw [HttpRequestParser.after, hs]
  rfl

theorem dead_of_final (h : cs.final = true) : cs.dead = false := by
  cases cs <;> first | rfl | nomatch h

theorem hasError_after (hs : s.cs.dead = false) (hcs : cs.dead = false) (hr : r.m_error = 0) :
    ¬ (s.after cs r).hasError = true := by
  rw [HttpRequestParser.hasError, after_cs hs, hcs, Bool.or_false]
  show ¬ (r.m_error != 0) = true
  rw [hr]
  decide

/-- The parser is finished, without error. -/
theorem afterExecute_finished (hs : s.cs.dead = false) (hcs : cs.final = true) (hr : r.m_error = 0)
    (hlen : len - p ≠ data.length) :
    afterExecute fuel len p data (s.after cs r) t = .ok (some (s.after cs r, data, len - p)) t := by
  have hfin : (s.after cs r).isFinished = true := by
    rw [HttpRequestParser.isFinished, after_cs hs, hcs, Bool.or_true]
  rw [afterExecute, if_neg (hasError_after hs (dead_of_final hcs) hr), if_neg hlen, if_pos hfin]
  rfl

/-- The parser wants more. -/
theorem afterExecute_running (hs : s.cs.dead = false) (hcs : (cs.dead || cs.final) = false)
    (hr : r.m_error = 0) (hlen : len - p ≠ data.length) :
    afterExecute fuel len p data (s.after cs r) t
      = recvLoop fuel (s.after cs r) data (len - p) t := by
  have hdead := (Bool.or_eq_false_iff.mp hcs).1
  have hfin : ¬ (s.after cs r).isFinished = true := by
    rw [HttpRequestParser.isFinished, after_cs hs, hcs]
    decide
  rw [afterExecute, if_neg (hasError_after hs hdead hr), if_neg hlen, if_neg hfin]

/-! ## The head in pieces -/

/-- What the loop leaves for the body: `offset` bytes in the buffer, the others
still to be received. -/
structure HeadRead (x : Parsed) (tail : List UInt8)
    (res : EStateM.Result HttpFault Transport
      (Option (HttpRequestParser × List UInt8 × Nat))) : Prop where
  read : ∃ s data offset t left, res = .ok (some (s, data, offset)) t
    ∧ s.toParsed = x ∧ (data.take offset).length = offset
    ∧ data.take offset ++ left = tail ∧ Delivers t left

/-- The head in pieces: the loop ends where the scan of the whole input
ends, with the same request. -/
theorem recvLoop_pieces (hcs : cs.final = true) (hr : r.m_error = 0) (pieces : List (List UInt8))
    (pre : List UInt8) {r₁ : Registers} {t : Transport} (hne : ∀ p ∈ pieces, p ≠ [])
    (hfit : ∀ p ∈ pieces, p.length ≤ data.length) (hconn : t.connected = true)
    (hin : t.incoming = pieces.map .bytes) (hfuel : pieces.length ≤ fuel)
    (hrel : s.uri_relaxed = relaxed) (hstop : (machine relaxed).stopped s.cs = false)
    (hpar : r₁.toParsed = s.toParsed)
    (hwhole : (machine relaxed).whole Act.after .stale pieces s.cs = true)
    (hscan : (machine relaxed).scan (pre ++ (pieces.flatten ++ g)) pieces.flatten pre.length s.cs r₁
      = .ok (k, cs, r)) :
    HeadRead r.toParsed ((pre ++ pieces.flatten).drop k) (recvLoop fuel s data 0 t) := by
  induction pieces generalizing pre data s r₁ t fuel with
  | nil =>
    cases hscan
    rw [Machine.stopped, Bool.or_eq_false_iff] at hstop
    exact absurd hcs (Bool.eq_false_iff.mp hstop.2)
  | cons piece rest ih =>
    -- `pre` has been scanned; the whole scan stands at the start of `piece`
    subst hrel
    obtain ⟨hpne, hrne⟩ := forall_mem_cons.mp hne
    obtain ⟨hpfit, hrfit⟩ := forall_mem_cons.mp hfit
    obtain ⟨fuel, rfl⟩ : ∃ n, fuel = n + 1 := ⟨fuel - 1, by rw [length_cons] at hfuel; omega⟩
    have hlive : s.cs.dead = false := (Bool.or_eq_false_iff.mp hstop).1
    have hppos := length_pos_iff.mpr hpne
    rw [Machine.whole] at hwhole
    cases hwalk : (machine s.uri_relaxed).walk Act.after piece s.cs .stale with
    | none =>
      rw [hwalk] at hwhole
      cases hwhole
    | some qf =>
    obtain ⟨q, f⟩ := qf
    rw [hwalk] at hwhole
    have hstart : Aligned pre.length 0 .stale r₁ s.reset := aligned_stale hpar
    rw [flatten_cons, append_assoc] at hscan
    obtain ⟨p, r₂, hscan₂, hagrees⟩ := scan_lockstep (actions_lockstep s.uri_relaxed)
      (data.drop piece.length) hstop hwalk hstart hscan
    obtain ⟨data', hlen', htake, hloop⟩ :=
      recvLoop_piece fuel hconn (recv_piece hin hpfit) hpne hpfit hscan₂
    rw [hloop]
    cases hagrees with
    | stops hq hk hp hal =>
      -- the empty line is in this piece: what follows it is body
      have herr : r₂.m_error = 0 := hal.parsed ▸ hr
      have hpos : 0 < p := by
        refine scan_takes hscan₂ (dead_of_final hcs) ?_
        rintro rfl
        rw [hstop] at hq
        cases hq
      rw [afterExecute_finished hlive hcs herr (by omega)]
      refine ⟨_, data', _, _, rest.flatten, rfl, hal.parsed.symm, ?_, ?_,
        hconn, rest, rfl, hrne, rfl⟩
      · rw [htake, length_drop]
      · rw [htake, hk, flatten_cons, ← drop_drop, drop_left, drop_append_of_le_length hp]
    | goesOn hq hrest hal =>
      -- all of the piece is consumed, so the next read starts at the front;
      -- an error set so far would still be there at the end
      have herr : r₂.m_error = 0 := hal.parsed ▸ scan_m_error hrest hr
      rw [afterExecute_running hlive hq herr (by omega), Nat.sub_self]
      have happ : pre ++ (piece ++ (rest.flatten ++ g))
          = (pre ++ piece) ++ (rest.flatten ++ g) := (append_assoc ..).symm
      rw [happ, ← length_append] at hrest
      rw [flatten_cons, ← append_assoc]
      refine ih (pre ++ piece) hrne (hlen' ▸ hrfit) hconn rfl ?_ rfl ?_ hal.parsed ?_ ?_
      · rw [length_cons] at hfuel
        omega
      · rw [after_cs hlive]
        exact hq
      · rw [after_cs hlive]
        dsimp only at hwhole
        rw [hq] at hwhole
        exact hwhole
      · rw [after_cs hlive]
        exact hrest

/-! ## One read for everything -/

private theorem giveUp_eq (t : Transport) :
    (giveUp : HttpM (Option α)) t = .ok none { t with connected := false } :=
  rfl

/-- A read on a connection that has nothing more to say. -/
theorem readRaw_end {n : Nat} (h : offset + n ≤ data.length) :
    readRaw data offset n (connection []) = .ok (0, data) (connection []) := by
  rw [readRaw, if_neg (by omega)]
  show EStateM.Result.ok ((0 : Int), overwrite data offset []) (connection []) = _
  rw [overwrite_nil]

/-- A read that brings nothing ends the loop. -/
theorem recvLoop_nothing {len : Int} (fuel : Nat)
    (hread : readRaw data offset (data.length - offset) t = .ok (len, data') t') (hlen : len ≤ 0) :
    recvLoop (fuel + 1) s data offset t = .ok none { t' with connected := false } := by
  rw [recvLoop, bind_ok (onStream_ok hread)]
  dsimp only
  rw [if_pos hlen, giveUp_eq]

theorem recvRequest_eq [LexicalCast] : recvRequest m t = (recvLoop (t.work + 1)
      (HttpRequestParser.new m.m_error m.uri_relaxed m.query_start) m.buffer 0 >>= fun
        | none => pure none
        | some (s, data, offset) =>
          recvBody s.m_data s.getContentLength.toInt64.toInt data offset) t :=
  rfl

/-- The loop finished after one read: the scan did. -/
theorem single_loop (hs : s.cs.dead = false) (hfit : R.length ≤ buffer.length)
    (h : recvLoop (fuel + 2) s buffer 0 (connection [R]) = .ok (some (s', data, offset)) t') :
    ∃ p cs r, (machine s.uri_relaxed).scan (R ++ buffer.drop R.length) R 0 s.cs s.reset
        = .ok (p, cs, r)
      ∧ cs.final = true ∧ r.m_error = 0 ∧ s' = s.after cs r
      ∧ offset = R.length - p ∧ data.take offset = R.drop p ∧ t' = connection [] := by
  by_cases hne : R = []
  · subst hne
    have hread : readRaw buffer 0 (buffer.length - 0) (connection [[]])
        = .ok (0, buffer) (connection []) := by
      rw [readRaw, if_neg (by omega)]
      rfl
    rw [recvLoop_nothing _ hread (Int.le_refl _)] at h
    cases h
  · cases hscan : (machine s.uri_relaxed).scan (R ++ buffer.drop R.length) R 0 s.cs s.reset with
    | error e =>
      have hexec : onParser (s.execute (R ++ buffer.drop R.length) R.length)
          (connection []) = .error e (connection []) := by
        rw [execute_piece _ hne, hscan]
        rfl
      rw [recvLoop_read _ rfl (recv_piece rfl hfit) hne] at h
      have hfails := (bind_error hexec).symm.trans h
      cases hfails
    | ok y =>
      obtain ⟨p, cs, r⟩ := y
      have hin : (connection [R]).incoming = [.bytes R] := rfl
      obtain ⟨data', hlen', htake, hloop⟩ :=
        recvLoop_piece (fuel + 1) rfl (recv_piece hin hfit) hne hfit hscan
      refine ⟨p, cs, r, rfl, ?_⟩
      rw [hloop, afterExecute] at h
      split_ifs at h with herr hfull hfin
      · cases h
      · cases h
      · cases h
        rw [HttpRequestParser.hasError, after_cs hs, Bool.or_eq_true, not_or] at herr
        rw [HttpRequestParser.isFinished, after_cs hs, Bool.or_eq_true] at hfin
        refine ⟨hfin.resolve_left herr.2, ?_, rfl, rfl, htake, rfl⟩
        by_contra hne0
        exact herr.1 (bne_iff_ne.mpr hne0)
      · -- the connection has nothing more to say
        have hread : readRaw data' (R.length - p) (data'.length - (R.length - p))
            (connection []) = .ok (0, data') (connection []) :=
          readRaw_end (by omega)
        have hnull := (recvLoop_nothing fuel hread (Int.le_refl _)).symm.trans h
        cases hnull

/-- A request in one read: the scan of the buffer finishes without error, and the body is taken
from what is left. -/
theorem single_read [LexicalCast] (hfit : R.length ≤ m.buffer.length)
    (h : recvRequest m (connection [R]) = .ok (some q) t') :
    ∃ cs r data, (machine m.uri_relaxed).scan (R ++ m.buffer.drop R.length) R 0 .start
          (HttpRequestParser.new m.m_error m.uri_relaxed m.query_start).reset
        = .ok (headLength m.uri_relaxed R, cs, r)
      ∧ cs.final = true ∧ r.m_error = 0
      ∧ data.take (R.length - headLength m.uri_relaxed R) = R.drop (headLength m.uri_relaxed R)
      ∧ recvBody r.m_data (r.m_data.getHeaderAs (bytes "content-length") 0).toInt64.toInt data
          (R.length - headLength m.uri_relaxed R) (connection []) = .ok (some q) t' := by
  rw [recvRequest_eq] at h
  obtain ⟨res, t₁, hloop, hbody⟩ := of_bind_ok h
  cases res with
  | none => nomatch hbody
  | some x =>
    obtain ⟨s, data, offset⟩ := x
    obtain ⟨p, cs, r, hscan, hcs, hr, rfl, rfl, htake, rfl⟩ := single_loop rfl hfit hloop
    have hp : p = headLength m.uri_relaxed R := by
      rw [scan_span R hscan, Nat.zero_add]
      rfl
    subst hp
    exact ⟨cs, r, data, hscan, hcs, hr, htake, hbody⟩

/-! ## The body -/

/-- A body of which `tail` is what came behind the head. -/
structure Complete (q : HttpRequest) (length : Int) (tail : List UInt8) : Prop where
  none_yet : q.m_body = []
  exact : length = tail.length ∨ length ≤ 0 ∧ tail = []

/-- Nothing more can be read. -/
theorem readFixSize_end (h : buffer ≠ []) :
    readFixSize buffer (connection []) = .ok (0, buffer) (connection []) := by
  have hpos := length_pos_iff.mpr h
  have hread : readRaw buffer 0 buffer.length (connection [])
      = .ok (0, buffer) (connection []) := readRaw_end (by omega)
  show readFixLoop buffer.length (_ + 1) buffer 0 buffer.length (connection []) = _
  rw [readFixLoop, if_neg (by omega), bind_ok hread]
  rfl

/-- A body that is taken from the buffer alone. -/
theorem recvBody_single {q₀ : HttpRequest} (htake : data.take offset = tail)
    (hlen : tail.length = offset)
    (h : recvBody q₀ length data offset (connection []) = .ok (some q) t') (hq₀ : q₀.m_body = [])
    (hq : q.m_body.length = tail.length) :
    q = { q₀ with m_body := tail } ∧ Complete q₀ length tail := by
  rw [recvBody] at h
  by_cases hpos : 0 < length
  · rw [if_pos hpos] at h
    by_cases hmore : 0 < length - offset
    · -- what is missing does not come
      have hbuf : replicate (length - offset).toNat (0 : UInt8) ≠ [] := by
        rw [Ne, replicate_eq_nil_iff]
        omega
      rw [if_pos hmore, bind_ok (onStream_ok (readFixSize_end hbuf))] at h
      nomatch h
    · rw [if_neg hmore] at h
      have hcopy : (if offset ≤ length then data.take offset
          else data.take length.toNat) = tail.take length.toNat := by
        rw [← htake, take_take]
        split_ifs with hle
        · rw [show length.toNat = offset by omega, Nat.min_self]
        · rw [Nat.min_eq_left (by omega)]
      rw [hcopy] at h
      cases h
      rw [length_take] at hq
      have hall : tail.take length.toNat = tail := take_of_length_le (by omega)
      rw [hall]
      exact ⟨rfl, hq₀, Or.inl (by omega)⟩
  · rw [if_neg hpos] at h
    cases h
    rw [hq₀, length_nil] at hq
    obtain rfl := length_eq_zero_iff.mp hq.symm
    refine ⟨?_, hq₀, Or.inr ⟨by omega, rfl⟩⟩
    rw [← hq₀]

/-- A body of which the first part is in the buffer. -/
theorem recvBody_pieces {left : List UInt8} (hlen : (data.take offset).length = offset)
    (htail : data.take offset ++ left = tail) (hdel : Delivers t left)
    (hsmall : tail.length < 2 ^ 31) (hc : Complete q length tail) :
    ∃ t', recvBody q length data offset t = .ok (some { q with m_body := tail }) t' := by
  have hsum : tail.length = offset + left.length := by
    rw [← htail, length_append, hlen]
  rw [recvBody]
  by_cases hpos : 0 < length
  · have hall : length = tail.length := hc.exact.resolve_right fun h => by omega
    rw [if_pos hpos, if_pos (show (offset : Int) ≤ length by omega)]
    by_cases hmore : 0 < length - offset
    · have hleft : (length - offset).toNat = left.length := by omega
      rw [← append_nil left] at hdel
      obtain ⟨t', hread, -⟩ := readFixSize_spec (replicate left.length 0) hdel
        length_replicate (by omega)
      rw [if_pos hmore, hleft, bind_ok (onStream_ok hread)]
      dsimp only
      rw [if_neg (by rw [intOf_of_lt (by omega)]; omega), htail]
      exact ⟨t', rfl⟩
    · obtain rfl : left = [] := length_eq_zero_iff.mp (by omega)
      rw [append_nil] at htail
      rw [if_neg hmore, htail]
      exact ⟨t, rfl⟩
  · rw [if_neg hpos]
    have hnil : tail = [] := by
      rcases hc.exact with h | h
      · exact length_eq_zero_iff.mp (by omega)
      · exact h.2
    rw [hnil, ← hc.none_yet]
    exact ⟨t, rfl⟩

/-! ## The request in pieces -/

theorem length_le_work (pieces : List (List UInt8)) : pieces.length ≤ (connection pieces).work := by
  show _ ≤ (map _ (map Arrival.bytes pieces)).sum
  induction pieces with
  | nil => exact Nat.le_refl _
  | cons p pieces ih =>
    rw [map_cons, map_cons, sum_cons, length_cons]
    dsimp only
    omega

/-- The same request comes out of every division that cuts no token. -/
theorem request_in_pieces [LexicalCast] {pieces : List (List UInt8)}
    (hsize : m₁.buffer.length = m₂.buffer.length) (hsmall : m₁.buffer.length < 2 ^ 31)
    (herror : m₁.m_error = m₂.m_error) (hrelaxed : m₁.uri_relaxed = m₂.uri_relaxed)
    (hfit : R.length ≤ m₁.buffer.length)
    (hsingle : recvRequest m₁ (connection [R]) = .ok (some q) t₁)
    (hbody : R.length = headLength m₁.uri_relaxed R + q.m_body.length) (hcut : pieces.flatten = R)
    (hne : ∀ p ∈ pieces, p ≠ []) (hwhole : tokensWhole m₁.uri_relaxed pieces = true) :
    ∃ t₂, recvRequest m₂ (connection pieces) = .ok (some q) t₂ := by
  -- the single read shows what the scan of all of `R` gives, and that the body
  -- is what follows the head
  obtain ⟨cs, r, data₁, hscan, hcs, hr, htake, hrest⟩ := single_read hfit hsingle
  have hspan := span_le (machine m₁.uri_relaxed) R .start
  have htail : (R.drop (headLength m₁.uri_relaxed R)).length
      = R.length - headLength m₁.uri_relaxed R := length_drop
  obtain ⟨rfl, hcomplete⟩ := recvBody_single htake htail hrest
    (scan_m_body hscan rfl) (by rw [htail]; omega)
  have hpieces : ∀ p ∈ pieces, p.length ≤ m₂.buffer.length := by
    intro p hp
    have hle := (sublist_flatten_of_mem hp).length_le
    rw [hcut] at hle
    omega
  subst hcut
  have hstart : (HttpRequestParser.new m₁.m_error m₁.uri_relaxed m₁.query_start).reset.toParsed
      = (HttpRequestParser.new m₂.m_error m₂.uri_relaxed m₂.query_start).toParsed :=
    congrArg (Parsed.mk {}) herror
  have hin : (connection pieces).incoming = pieces.map .bytes := rfl
  obtain ⟨s, data, offset, t, left, hloop, hparsed, hlen, hsplit, hdel⟩ :=
    (recvLoop_pieces hcs hr pieces [] hne hpieces rfl hin
      (Nat.le_succ_of_le (length_le_work pieces)) hrelaxed.symm rfl hstart hwhole
      hscan).read
  have hdata : s.m_data = r.m_data := congrArg Parsed.m_data hparsed
  obtain ⟨t₂, hrecv⟩ := recvBody_pieces hlen hsplit hdel
    (by rw [nil_append, htail]; omega) (hdata ▸ hcomplete)
  refine ⟨t₂, ?_⟩
  rw [recvRequest_eq, bind_ok hloop]
  show recvBody s.m_data (s.m_data.getHeaderAs (bytes "content-length") 0).toInt64.toInt
    data offset t = _
  rw [hdata] at hrecv ⊢
  exact hrecv

/-! ## A cut behind the method -/

/-- A scan that finishes from inside the method meets the space behind it; up to
there it performs no action. -/
theorem scan_method (hcs : cs.final = true) (xs : List UInt8) {n : Nat}
    (h : (machine relaxed).scan buffer xs p (.method n) r = .ok (k, cs, r')) :
    ∃ tok rest, xs = tok ++ SP :: rest ∧ ∀ (buffer : List UInt8) (p : Nat) (r : Registers),
        (machine relaxed).scan buffer tok p (.method n) r
          = .ok (p + tok.length, .method (n + tok.length), r) := by
  induction xs generalizing n p r with
  | nil =>
    cases h
    cases hcs
  | cons c xs ih =>
    by_cases hsp : c = SP
    · exact ⟨[], xs, by rw [hsp]; rfl, fun _ _ _ => rfl⟩
    · have hnext : (machine relaxed).next (.method n) c
          = if (digit c || upper c) && n < 20 then (.method (n + 1), []) else fail :=
        if_neg fun h => hsp (beq_iff_eq.mp h)
      by_cases hc : ((digit c || upper c) && n < 20) = true
      · rw [if_pos hc] at hnext
        have hstep : ∀ (buffer ys : List UInt8) (p : Nat) (r : Registers),
            (machine relaxed).scan buffer (c :: ys) p (.method n) r
              = (machine relaxed).scan buffer ys (p + 1) (.method (n + 1)) r := by
          intro buffer ys p r
          rw [Machine.scan, hnext]
          rfl
        rw [hstep] at h
        obtain ⟨tok, rest, rfl, htok⟩ := ih h
        refine ⟨c :: tok, rest, rfl, fun buffer p r => ?_⟩
        rw [hstep, htok, length_cons, Nat.add_assoc, Nat.add_assoc, Nat.add_comm 1]
      · -- any other byte is refused
        rw [if_neg hc] at hnext
        rw [Machine.scan, hnext] at h
        cases h
        cases hcs

/-- The method of a request that is read: a first byte and others, then a space. -/
theorem scan_request_line (hline : startsWithMethod R = true) (hcs : cs.final = true)
    (h : (machine relaxed).scan buffer R 0 .start r = .ok (k, cs, r')) :
    ∃ tok rest, R = tok ++ SP :: rest ∧ tok ≠ [] ∧ ∀ (buffer : List UInt8) (r : Registers),
        (machine relaxed).scan buffer tok 0 .start r
          = .ok (tok.length, .method tok.length, { r with mark := 0 }) := by
  cases R with
  | nil => cases hline
  | cons c xs =>
    have hnext : (machine relaxed).next .start c = (.method 1, [.mark]) := if_pos hline
    have hstep : ∀ (buffer ys : List UInt8) (r : Registers),
        (machine relaxed).scan buffer (c :: ys) 0 .start r
          = (machine relaxed).scan buffer ys 1 (.method 1) { r with mark := 0 } := by
      intro buffer ys r
      rw [Machine.scan, hnext]
      rfl
    rw [hstep] at h
    obtain ⟨tok, rest, rfl, htok⟩ := scan_method hcs xs h
    refine ⟨c :: tok, rest, rfl, cons_ne_nil _ _, fun buffer r => ?_⟩
    rw [hstep, htok, length_cons, Nat.add_comm]

/-- No method begins with a space. -/
theorem CharsToHttpMethod_space (g : List UInt8) : CharsToHttpMethod (SP :: g) = .INVALID_METHOD :=
  (CharsToHttpMethod_before_space [] g).trans (by decide +kernel)

/-- A call that begins with the space behind the method takes the method from
there, and ends in error. -/
theorem scan_cut_method {rest : List UInt8} {n : Nat} (hmark : r.mark = 0)
    (h : (machine relaxed).scan (SP :: rest ++ g) (SP :: rest) 0 (.method n) r = .ok (k, cs, r')) :
    r'.m_error ≠ 0 := by
  have hstep : (machine relaxed).scan (SP :: rest ++ g) (SP :: rest) 0 (.method n) r
      = (machine relaxed).scan (SP :: rest ++ g) rest 1 .uri
          { r with toParsed := on_request_method ((SP :: rest ++ g).drop r.mark) r.toParsed } :=
    rfl
  rw [hstep, hmark, drop_zero, cons_append, on_request_method, CharsToHttpMethod_space] at h
  intro hr
  cases scan_m_error h hr

/-- Every request has a division that loses it: behind the method. -/
theorem cut_behind_method [LexicalCast] (hsize : m₁.buffer.length = m₂.buffer.length)
    (herror : m₁.m_error = m₂.m_error) (hrelaxed : m₁.uri_relaxed = m₂.uri_relaxed)
    (hfit : R.length ≤ m₁.buffer.length)
    (hsingle : recvRequest m₁ (connection [R]) = .ok (some q) t₁)
    (hline : startsWithMethod R = true) :
    ∃ a b, a ++ b = R ∧ a ≠ [] ∧ b ≠ []
      ∧ ∀ q' t₂, recvRequest m₂ (connection [a, b]) ≠ .ok (some q') t₂ := by
  obtain ⟨cs, r, _, hscan, hcs, hr, -⟩ := single_read hfit hsingle
  have hclean : m₂.m_error = 0 := herror ▸ scan_m_error hscan hr
  obtain ⟨tok, rest, rfl, htok, hmethod⟩ := scan_request_line hline hcs hscan
  refine ⟨tok, SP :: rest, rfl, htok, cons_ne_nil _ _, fun q' t₂ h => ?_⟩
  rw [hrelaxed] at hmethod
  rw [length_append] at hfit
  have hpos := length_pos_iff.mpr htok
  have htok₂ : tok.length ≤ m₂.buffer.length := by omega
  have hin : (connection [tok, SP :: rest]).incoming = [.bytes tok, .bytes (SP :: rest)] := rfl
  rw [recvRequest_eq] at h
  obtain ⟨res, t, hloop, hbody⟩ := of_bind_ok h
  cases res with
  | none => cases hbody
  | some x =>
    obtain ⟨s', data, offset⟩ := x
    -- the first read takes the method and wants more
    obtain ⟨data', hlen', -, hfirst⟩ :=
      recvLoop_piece (s := HttpRequestParser.new m₂.m_error m₂.uri_relaxed m₂.query_start)
        (connection [tok, SP :: rest]).work rfl
        (recv_piece hin htok₂) htok htok₂ (hmethod _ _)
    rw [hfirst, afterExecute_running rfl rfl hclean (by omega), Nat.sub_self] at hloop
    have hwork : (connection [tok, SP :: rest]).work = tok.length + (SP :: rest).length + 2 := by
      show tok.length + 1 + ((SP :: rest).length + 1 + 0) = _
      omega
    rw [hwork] at hloop
    -- the second one begins with the space
    obtain ⟨p, cs', r', hsecond, -, herr, -⟩ := single_loop rfl (by omega) hloop
    exact scan_cut_method rfl hsecond herr

/-- **What the division into reads can do to a request** that one read turns into `q`: every
division into non-empty reads in which each action hands on positions of its own call only
gives `q` again; and if it begins with a request line, some division into two reads gives
no request.  What the memory held before does not matter, apart from `m_error` and
`uri_relaxed`. -/
theorem same_request [LexicalCast] {m₁ m₂ : Memory} {R : List UInt8} {q : HttpRequest}
    {t₁ : Transport} (hsize : m₁.buffer.length = m₂.buffer.length)
    (hsmall : m₁.buffer.length < 2 ^ 31)
    (herror : m₁.m_error = m₂.m_error) (hrelaxed : m₁.uri_relaxed = m₂.uri_relaxed)
    (hfit : R.length ≤ m₁.buffer.length)
    (hsingle : recvRequest m₁ (connection [R]) = .ok (some q) t₁)
    (hbody : R.length = headLength m₁.uri_relaxed R + q.m_body.length) :
    (∀ pieces : List (List UInt8), pieces.flatten = R → (∀ p ∈ pieces, p ≠ []) →
        tokensWhole m₁.uri_relaxed pieces = true →
        ∃ t₂, recvRequest m₂ (connection pieces) = .ok (some q) t₂)
      ∧ (startsWithMethod R = true → ∃ a b, a ++ b = R ∧ a ≠ [] ∧ b ≠ []
        ∧ ∀ q' t₂, recvRequest m₂ (connection [a, b]) ≠ .ok (some q') t₂) :=
  ⟨fun _ hcut hne hwhole =>
      request_in_pieces hsize hsmall herror hrelaxed hfit hsingle hbody hcut hne hwhole,
    cut_behind_method hsize herror hrelaxed hfit hsingle⟩

/-- A buffer of 64 bytes. -/
def memory64 : Memory := ⟨0, false, 0, List.replicate 64 0⟩

/-- `POST / HTTP/1.1` with a body of two bytes. -/
def postHi : HttpRequest where
  m_method := .POST
  m_headers := [(bytes "Content-Length", bytes "2")]
  m_body := bytes "hi"

/-- Four reads that cut between tokens and inside the body, and two that lose the
request. -/
theorem same_request_four :
    (∃ t, recvRequest memory64 (connection [bytes "POST ", bytes "/ HTTP/1.1\r\n",
          bytes "Content-Length: 2\r\n\r\nh", bytes "i"])
        = .ok (some postHi) t)
      ∧ ∃ a b, a ++ b = bytes "POST / HTTP/1.1\r\nContent-Length: 2\r\n\r\nhi" ∧ a ≠ [] ∧ b ≠ []
        ∧ ∀ q' t, recvRequest memory64 (connection [a, b]) ≠ .ok (some q') t := by
  have hsingle : recvRequest memory64
      (connection [bytes "POST / HTTP/1.1\r\nContent-Length: 2\r\n\r\nhi"])
      = .ok (some postHi) (connection []) := rfl
  obtain ⟨hsame, hlost⟩ := same_request (by rfl) (by decide) (by rfl)
    (by rfl) (by decide) hsingle (by decide +kernel)
  exact ⟨hsame _ (by rfl) (by decide) (by rfl), hlost (by rfl)⟩

/-- The condition is not necessary: a version read from no bytes is `HTTP/1.1`, so such a request
survives a cut right behind it. -/
example :
    tokensWhole false [bytes "GET / HTTP/1.1", bytes "\r\n\r\n"] = false
      ∧ ∃ t, recvRequest memory64 (connection [bytes "GET / HTTP/1.1", bytes "\r\n\r\n"])
        = .ok (some {}) t :=
  ⟨rfl, _, rfl⟩

/-- **A cut name loses its field**: with a read that ends inside `Content-Length` the same bytes are
read as another request, without error and without its body of two bytes. -/
theorem cut_name_loses_body : ∃ t t' : Transport, recvRequest memory64
          (connection [bytes "POST / HTTP/1.1\r\nContent-Length: 2\r\n\r\nhi"])
        = .ok (some postHi) t
      ∧ recvRequest memory64
          (connection [bytes "POST / HTTP/1.1\r\nContent-Le", bytes "ngth: 2\r\n\r\nhi"])
        = .ok (some { m_method := .POST, m_headers := [(bytes "ngth", bytes "2")] }) t' :=
  ⟨_, _, rfl, rfl⟩

end SylarHttp
