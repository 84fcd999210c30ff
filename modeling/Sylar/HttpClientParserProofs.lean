import Sylar.HttpClientScannerProofs
import Sylar.HttpRoundTripProofs

/-! # The response parser (`http_parser.cc`, `httpclient_parser.rl`)

`HttpResponseParser` runs the scanner over a buffer; the callbacks store what
they get in the `HttpResponse`.  The size of a chunk and whether the body
comes in chunks stay in the scanner's own structure.

* **`execute_scanned`** — a call of the parser is a scan, and its assertions hold.
* **`response_lockstep`** — a head in pieces, of which no action reads a position of an
  earlier one. -/

namespace SylarHttpClient

open ListWindow SylarHttp Scanner List

/-! ## Numbers -/

/-- The value of the leading digits. -/
def leadingDigits (isDigit : UInt8 → Bool) (value : UInt8 → Nat) (base : Nat) :
    List UInt8 → Nat → Nat
  | [], n => n
  | c :: rest, n =>
    if isDigit c then leadingDigits isDigit value base rest (base * n + value c) else n

def digitValue (c : UInt8) : Nat := c.toNat - 48

def xdigitValue (c : UInt8) : Nat :=
  if digit c then c.toNat - 48 else (tolower c).toNat - 87

def decDigits (s : List UInt8) : Nat := leadingDigits digit digitValue 10 s 0

def hexDigits (s : List UInt8) : Nat := leadingDigits xdigit xdigitValue 16 s 0

/-- A number with a sign as a `long`. -/
def clampLong (minus : Bool) (n : Nat) : Int :=
  if minus then max (-(n : Int)) (-2 ^ 63) else min (n : Int) (2 ^ 63 - 1)

/-- Blanks and a sign in front of a number. -/
def signed (s : List UInt8) : Bool × List UInt8 :=
  match s.dropWhile space with
  | c :: rest =>
    if c == byte '-' then (true, rest)
    else if c == byte '+' then (false, rest)
    else (false, c :: rest)
  | [] => (false, [])

/-- `strtol(s, NULL, 10)`. -/
def strtol10 (s : List UInt8) : Int :=
  clampLong (signed s).1 (decDigits (signed s).2)

/-- `0x` in front of a hexadecimal digit. -/
def hexPrefix (s : List UInt8) : List UInt8 :=
  match s with
  | a :: b :: c :: rest =>
    if a == byte '0' && tolower b == byte 'x' && xdigit c then c :: rest else s
  | _ => s

/-- `strtol(s, NULL, 16)`. -/
def strtol16 (s : List UInt8) : Int :=
  clampLong (signed s).1 (hexDigits (hexPrefix (signed s).2))

/-- A `long` stored in an `int`. -/
def toInt32 (n : Int) : Int := (Int32.ofInt n).toInt

/-! ## The callbacks -/

/-- What the callbacks work on: the response and the error code. -/
structure Parsed where
  m_data : HttpResponse
  m_error : Int
  deriving DecidableEq, Repr

/-- What the actions work on: the same, and the fields of `httpclient_parser`. -/
structure Registers extends Parsed where
  mark : Nat
  field_start : Nat
  field_len : Nat
  body_start : Nat
  content_len : Int
  chunked : Bool
  chunks_done : Bool
  deriving DecidableEq, Repr

def on_response_reason (v : List UInt8) (r : Parsed) : Parsed :=
  { r with m_data := { r.m_data with m_reason := v } }

/-- `(HttpStatus)(atoi(at))`. -/
def on_response_status (at_ : List UInt8) (r : Parsed) : Parsed :=
  { r with m_data := { r.m_data with m_status := (Int32.ofInt (strtol10 at_)).toUInt32 } }

def on_response_version (at_ : List UInt8) (length : Nat) (r : Parsed) : Parsed :=
  match versionOf at_ length with
  | some v => { r with m_data := { r.m_data with m_version := v } }
  | none => { r with m_error := 1001 }

def on_response_http_field (field : List UInt8) (flen : Nat) (value : List UInt8)
    (r : Parsed) : Parsed :=
  if flen = 0 then r
  else { r with m_data := r.m_data.setHeader field value }

/-- The embedded actions at `fpc`.  `on_response_chunk`, `on_response_last_chunk`
and `on_response_header_done` do nothing. -/
def perform (buffer : List UInt8) (fpc : Nat) :
    Act → Registers → Except HttpFault Registers
  | .mark, r => .ok { r with mark := fpc }
  | .start_field, r => .ok { r with field_start := fpc }
  | .write_field, r => do
    let n ← LEN r.field_start fpc
    .ok { r with field_len := n }
  | .write_content_len, r =>
    .ok { r with content_len := toInt32 (strtol10 (buffer.drop r.mark)) }
  | .write_connection_close, r => .ok r
  | .write_value, r => do
    let n ← LEN r.mark fpc
    let field := window buffer r.field_start r.field_len
    let value := window buffer r.mark n
    .ok { r with toParsed := on_response_http_field field r.field_len value r.toParsed }
  | .reason_phrase, r => do
    let n ← LEN r.mark fpc
    .ok { r with toParsed := on_response_reason (window buffer r.mark n) r.toParsed }
  | .status_code, r =>
    .ok { r with toParsed := on_response_status (buffer.drop r.mark) r.toParsed }
  | .http_version, r => do
    let n ← LEN r.mark fpc
    .ok { r with toParsed := on_response_version (buffer.drop r.mark) n r.toParsed }
  | .chunk_size, r =>
    let content_len := toInt32 (strtol16 (buffer.drop r.mark))
    .ok { r with chunked := true, content_len, chunks_done := content_len ≤ 0 }
  | .trans_chunked, r => .ok { r with chunked := true }
  | .done, r => .ok { r with body_start := fpc + 1 }

/-- The generated machine with its actions. -/
def machine : Machine Cs UInt8 Act Registers HttpFault where
  next := next
  dead := Cs.dead
  final := Cs.final
  perform := perform

/-! ## `HttpResponseParser` -/

/-- How a call can end other than by returning: as a request or a stream can, by an assertion, with
a `-1` taken for a length, or by `std::string::append` with a negative length. -/
inductive ClientFault where
  | http (e : HttpFault)
  | assertion
  | check
  | length_error
  deriving DecidableEq, Repr

/-- `HttpResponseParser` with its `httpclient_parser`. -/
structure HttpResponseParser extends Registers where
  cs : Cs
  deriving DecidableEq, Repr

/-- `httpclient_parser_init`. -/
def HttpResponseParser.init (s : HttpResponseParser) : HttpResponseParser :=
  { s with
    cs := .start
    body_start := 0
    content_len := -1
    chunked := false
    chunks_done := false
    mark := 0
    field_len := 0
    field_start := 0 }

/-- The constructor.  `m_error` and the response's `m_websocket` are not set; the memory holds
`error` and `websocket`. -/
def HttpResponseParser.new (error : Int) (websocket : Bool) : HttpResponseParser :=
  HttpResponseParser.init
    { m_data := HttpResponse.new 0x11 true websocket
      m_error := error
      mark := 0
      field_start := 0
      field_len := 0
      body_start := 0
      content_len := 0
      chunked := false
      chunks_done := false
      cs := .start }

/-- The registers at the start of `httpclient_parser_execute`. -/
def HttpResponseParser.reset (s : HttpResponseParser) : Registers :=
  { s.toRegisters with mark := 0, field_len := 0, field_start := 0 }

/-- `httpclient_parser_execute(parser, buffer, len, 0)`: the number of bytes
read. -/
def httpclient_parser_execute (s : HttpResponseParser) (buffer : List UInt8)
    (len : Nat) : Except ClientFault (Nat × HttpResponseParser) :=
  -- `pointer does not end on NUL`
  if buffer[len]? ≠ some 0 then .error .assertion
  else
    match machine.scan buffer (buffer.take len) 0 s.cs s.reset with
    | .error e => .error (.http e)
    | .ok (p, cs, r) =>
        if len < r.body_start then .error .assertion
        else if r.mark < len ∧ r.field_len ≤ len ∧ r.field_start < len then
          .ok (p, { s with toRegisters := r, cs })
        else .error .check

/-- `HttpResponseParser::execute(data, len, chunck)`: the number of bytes read; the rest has moved
to the front. -/
def HttpResponseParser.execute (s : HttpResponseParser) (data : List UInt8)
    (len : Nat) (chunck : Bool) :
    Except ClientFault (Nat × List UInt8 × HttpResponseParser) := do
  let (offset, s) ← httpclient_parser_execute (if chunck then s.init else s) data len
  .ok (offset, overwrite data 0 (window data offset (len - offset)), s)

/-- `isFinished()`: of the final states, `httpclient_parser_is_finished` knows the
first one only. -/
def HttpResponseParser.isFinished (s : HttpResponseParser) : Bool :=
  s.cs.dead || s.cs == .done

/-- `hasError()`. -/
def HttpResponseParser.hasError (s : HttpResponseParser) : Bool :=
  s.m_error != 0 || s.cs.dead

/-- `getContentLength()`. -/
def HttpResponseParser.getContentLength [LexicalCast] (s : HttpResponseParser) : UInt64 :=
  s.m_data.getHeaderAs (bytes "content-length") 0

variable {r : Registers} {d : List UInt8} {n fpc : Nat}

/-! ## Numbers in digits -/

/-- Leading digits are all of them up to a character that is none. -/
theorem leadingDigits_append {isDigit : UInt8 → Bool} (value : UInt8 → Nat) (base : Nat)
    {rest : List UInt8} (hrest : ∀ c ys, rest = c :: ys → isDigit c = false) (ds : List UInt8)
    (n : Nat) (h : ∀ c ∈ ds, isDigit c = true) :
    leadingDigits isDigit value base (ds ++ rest) n
      = ds.foldl (fun n c => base * n + value c) n := by
  induction ds generalizing n with
  | nil =>
    cases rest with
    | nil => rfl
    | cons c ys =>
      rw [nil_append, leadingDigits, hrest c ys rfl]
      rfl
  | cons c ds ih =>
    obtain ⟨hc, hds⟩ := forall_mem_cons.mp h
    rw [cons_append, leadingDigits, if_pos hc, ih _ hds]
    rfl

theorem decimal_foldl (ds : List UInt8) (n : Nat) (h : ∀ c ∈ ds, digit c = true) :
    decimal ds n = some (ds.foldl (fun n c => 10 * n + digitValue c) n) := by
  induction ds generalizing n with
  | nil => rfl
  | cons c ds ih =>
    obtain ⟨hc, hds⟩ := forall_mem_cons.mp h
    rw [decimal, if_pos hc, ih _ hds]
    rfl

private theorem digitClasses : ∀ c : UInt8, (digit c = true → xdigit c = true)
    ∧ (xdigit c = true → space c = false ∧ (c == byte '-') = false ∧ (c == byte '+') = false) :=
  forall_byte (by decide +kernel)

/-- A number that begins with a digit has no sign. -/
theorem signed_digits (rest : List UInt8) (hne : d ≠ []) (hd : ∀ c ∈ d, xdigit c = true) :
    signed (d ++ rest) = (false, d ++ rest) := by
  cases d with
  | nil => exact absurd rfl hne
  | cons c d =>
    obtain ⟨hspace, hminus, hplus⟩ := (digitClasses c).2 (hd c mem_cons_self)
    rw [signed, cons_append, dropWhile_cons_of_neg (by rw [hspace]; exact Bool.false_ne_true)]
    dsimp only
    rw [hminus, hplus]
    rfl

private theorem decDigits_foldl (hd : ∀ c ∈ d, digit c = true) :
    decDigits d = d.foldl (fun n c => 10 * n + digitValue c) 0 := by
  have hnil : ∀ c ys, ([] : List UInt8) = c :: ys → digit c = false := fun _ _ h => nomatch h
  rw [← leadingDigits_append digitValue 10 hnil d 0 hd, append_nil, decDigits]

/-- `strtol` of digits, whatever other byte follows. -/
theorem strtol10_digits (rest : List UInt8) (hne : d ≠ []) (hd : ∀ c ∈ d, digit c = true)
    (hrest : ∀ c ys, rest = c :: ys → digit c = false) :
    strtol10 (d ++ rest) = clampLong false (decDigits d) := by
  rw [strtol10, signed_digits rest hne fun c hc => (digitClasses c).1 (hd c hc),
    decDigits_foldl hd, ← leadingDigits_append digitValue 10 hrest d 0 hd, decDigits]

theorem decDigits_printed (n : Nat) : decDigits (printed n) = n := by
  have hvalue := decimal_printed n
  rw [decimal_foldl _ _ (printed_digits n), Option.some_inj] at hvalue
  rw [decDigits_foldl (printed_digits n), hvalue]

private theorem clampLong_nat (h : n < 2 ^ 63) : clampLong false n = n := by
  rw [clampLong, if_neg Bool.false_ne_true]
  omega

theorem toInt32_clamp (h : n < 2 ^ 31) : toInt32 (clampLong false n) = n := by
  rw [clampLong_nat (by omega), toInt32, Int32.ofInt_eq_ofNat]
  exact Int32.toInt_ofNat_of_lt h

/-! ## One call -/

/-- The noted positions are inside the text. -/
structure Inside (n : Nat) (r : Registers) : Prop where
  mark : r.mark < n
  field_start : r.field_start < n
  field_len : r.field_len ≤ n
  body_start : r.body_start ≤ n

theorem LEN_le {start : Nat} (h : LEN start fpc = .ok n) : n ≤ fpc := by
  rw [LEN] at h
  split at h
  · cases h
    exact Nat.sub_le _ _
  · cases h

theorem Inside.perform {buffer : List UInt8} {a : Act} {r' : Registers} (hfpc : fpc < n)
    (h : SylarHttpClient.perform buffer fpc a r = .ok r') (hr : Inside n r) : Inside n r' := by
  cases a with
  | write_field =>
    obtain ⟨len, hlen, h⟩ := bind_ok_iff.mp h
    cases h
    exact { hr with field_len := Nat.le_trans (LEN_le hlen) (Nat.le_of_lt hfpc) }
  | write_value | reason_phrase | http_version =>
    obtain ⟨len, -, h⟩ := bind_ok_iff.mp h
    cases h
    exact ⟨hr.mark, hr.field_start, hr.field_len, hr.body_start⟩
  | mark =>
    cases h
    exact { hr with mark := hfpc }
  | start_field =>
    cases h
    exact { hr with field_start := hfpc }
  | done =>
    cases h
    exact { hr with body_start := hfpc }
  | write_content_len | write_connection_close | status_code | chunk_size | trans_chunked =>
    cases h
    exact ⟨hr.mark, hr.field_start, hr.field_len, hr.body_start⟩

/-- **One call**: the assertions and the check hold, and what is left of the text
moves to the front. -/
theorem execute_scanned {s : HttpResponseParser} {piece : List UInt8} (g : List UInt8)
    (hne : piece ≠ []) (hbody : s.body_start ≤ piece.length) {p : Nat} {cs : Cs}
    (hscan : machine.scan (piece ++ 0 :: g) piece 0 s.cs s.reset = .ok (p, cs, r)) :
    s.execute (piece ++ 0 :: g) piece.length false = .ok (p, overwrite (piece ++ 0 :: g) 0
          (window (piece ++ 0 :: g) p (piece.length - p)), { toRegisters := r, cs }) := by
  have hpos : 0 < piece.length := length_pos_iff.mpr hne
  have hstart : Inside piece.length s.reset := ⟨hpos, hpos, Nat.zero_le _, hbody⟩
  have hinside : Inside piece.length r :=
    scan_invariant_below (P := Inside piece.length) Inside.perform piece
      (Nat.le_of_eq (Nat.zero_add _)) hscan hstart
  have hcall : httpclient_parser_execute s (piece ++ 0 :: g) piece.length
      = .ok (p, { toRegisters := r, cs }) := by
    rw [httpclient_parser_execute, if_neg (by simp), take_left, hscan]
    dsimp only
    rw [if_neg (Nat.not_lt.mpr hinside.body_start),
      if_pos ⟨hinside.mark, hinside.field_len, hinside.field_start⟩]
  rw [HttpResponseParser.execute, if_neg Bool.false_ne_true, hcall]
  rfl

/-! ## A head in pieces -/

/-- Which positions were written in the current call. -/
structure Fresh where
  mark : Bool
  field_start : Bool
  field_len : Bool
  deriving DecidableEq, Repr

/-- At the start of a call. -/
def Fresh.stale : Fresh := ⟨false, false, false⟩

/-- What is fresh after an action, and nothing if it hands on a position that is not. -/
def Act.after : Act → Fresh → Option Fresh
  | .mark, f => some { f with mark := true }
  | .start_field, f => some { f with field_start := true, field_len := false }
  | .write_field, f =>
    if f.field_start then some { f with field_len := true } else none
  | .write_value, f =>
    if f.field_start && f.field_len && f.mark then some f else none
  | .write_content_len, f => if f.mark then some f else none
  | .reason_phrase, f => if f.mark then some f else none
  | .status_code, f => if f.mark then some f else none
  | .http_version, f => if f.mark then some f else none
  | .chunk_size, f => if f.mark then some f else none
  | .write_connection_close, f => some f
  | .trans_chunked, f => some f
  | .done, f => some f

/-- The registers of the scan of the whole head and of a piece that begins at `b`, both `p` bytes
into the piece: same response, and the fresh positions are the same places. -/
structure Aligned (b p : Nat) (f : Fresh) (r₁ r₂ : Registers) : Prop where
  parsed : r₁.toParsed = r₂.toParsed
  chunked : r₁.chunked = r₂.chunked
  mark : f.mark = true → r₁.mark = b + r₂.mark ∧ r₂.mark ≤ p
  field_start : f.field_start = true →
    r₁.field_start = b + r₂.field_start ∧ r₂.field_start ≤ p
  field_len : f.field_len = true →
    r₁.field_len = r₂.field_len ∧ r₂.field_start + r₂.field_len ≤ p

/-- The same in a state: a fresh mark of the status is at a digit, since `strtol` would go on
behind a blank. -/
structure InStep (piece : List UInt8) (q : Cs) (b p : Nat) (f : Fresh) (r₁ r₂ : Registers) :
    Prop extends Aligned b p f r₁ r₂ where
  status : q = .status_code true → f.mark = true →
    r₂.mark < p ∧ ∃ d, piece[r₂.mark]? = some d ∧ digit d = true
  body_start : q.final = false → r₂.body_start = 0

section Pieces

variable {b p at₁ at₂ : Nat} {f f' : Fresh} {r₁ r₁' r₂ : Registers} {pre piece g₁ : List UInt8}

theorem Aligned.advance (h : Aligned b p f r₁ r₂) : Aligned b (p + 1) f r₁ r₂ :=
  ⟨h.parsed, h.chunked, fun hf => (h.mark hf).imp_right Nat.le_succ_of_le,
    fun hf => (h.field_start hf).imp_right Nat.le_succ_of_le,
    fun hf => (h.field_len hf).imp_right Nat.le_succ_of_le⟩

/-- At the start of a call only the response must agree. -/
theorem inStep_stale {s : HttpResponseParser} (piece : List UInt8)
    (hparsed : r₁.toParsed = s.toParsed) (hchunked : r₁.chunked = s.chunked)
    (hbody : s.body_start = 0) : InStep piece s.cs b 0 .stale r₁ s.reset where
  parsed := hparsed
  chunked := hchunked
  mark := nofun
  field_start := nofun
  field_len := nofun
  status := fun _ => nofun
  body_start := fun _ => hbody

/-- A callback `k` that looks at no more than the token at a fresh position. -/
theorem clientCallback_lockstep (g₂ : List UInt8) (hp : p < piece.length)
    (hal : Aligned pre.length p f r₁ r₂) (hat : at₁ = pre.length + at₂)
    (k : List UInt8 → Nat → Parsed → Parsed)
    (hk : ∀ {a₁ a₂ : List UInt8} {n : Nat} (x : Parsed), a₁.take n = a₂.take n →
      k a₁ n x = k a₂ n x) (h : (LEN at₁ (pre.length + p) >>= fun n => Except.ok { r₁ with
      toParsed := k ((pre ++ (piece ++ g₁)).drop at₁) n r₁.toParsed }) = .ok r₁') :
    ∃ r₂', (LEN at₂ p >>= fun n => Except.ok { r₂ with
        toParsed := k ((piece ++ g₂).drop at₂) n r₂.toParsed }) = .ok r₂'
      ∧ Aligned pre.length p f r₁' r₂' ∧ r₂'.body_start = r₂.body_start := by
  obtain ⟨n, hn, h⟩ := bind_ok_iff.mp h
  cases h
  obtain ⟨hn₂, hwin⟩ := token_aligned g₂ hp hat hn
  refine ⟨_, bind_ok_iff.mpr ⟨n, hn₂, rfl⟩, { hal with parsed := ?_ }, rfl⟩
  rw [hal.parsed]
  exact hk _ hwin

/-- **An action on positions of its own call** does the same in the piece as in the whole
head. -/
--  start_field =>|a new field forgets the length of the last one
theorem action_lockstep (g₂ : List UInt8) (hp : p < piece.length) {a : Act}
    (ha : a ≠ .status_code) (hf : a.after f = some f') (hal : Aligned pre.length p f r₁ r₂)
    (hrun : perform (pre ++ (piece ++ g₁)) (pre.length + p) a r₁ = .ok r₁') :
    ∃ r₂', perform (piece ++ g₂) p a r₂ = .ok r₂' ∧ Aligned pre.length p f' r₁' r₂'
      ∧ (a ≠ .done → r₂'.body_start = r₂.body_start) := by
  cases a with
  | status_code => exact absurd rfl ha
  | mark =>
    cases hf
    cases hrun
    exact ⟨_, rfl, { hal with mark := fun _ => ⟨rfl, Nat.le_refl _⟩ }, fun _ => rfl⟩
  | start_field =>
    cases hf
    cases hrun
    exact ⟨_, rfl, { hal with
      field_start := fun _ => ⟨rfl, Nat.le_refl _⟩
      field_len := nofun }, fun _ => rfl⟩
  | write_field =>
    obtain ⟨hfs, hf⟩ := Option.ite_none_right_eq_some.mp hf
    cases hf
    obtain ⟨n, hn, hrun⟩ := bind_ok_iff.mp hrun
    cases hrun
    obtain ⟨hn₂, hsum⟩ := LEN_aligned (hal.field_start hfs).1 hn
    exact ⟨{ r₂ with field_len := n }, bind_ok_iff.mpr ⟨n, hn₂, rfl⟩,
      { hal with field_len := fun _ => ⟨rfl, Nat.le_of_eq hsum⟩ }, fun _ => rfl⟩
  | write_content_len =>
    obtain ⟨-, hf⟩ := Option.ite_none_right_eq_some.mp hf
    cases hf
    cases hrun
    exact ⟨_, rfl, { hal with }, fun _ => rfl⟩
  | chunk_size =>
    obtain ⟨-, hf⟩ := Option.ite_none_right_eq_some.mp hf
    cases hf
    cases hrun
    exact ⟨_, rfl, { hal with chunked := rfl }, fun _ => rfl⟩
  | write_connection_close =>
    cases hf
    cases hrun
    exact ⟨r₂, rfl, hal, fun _ => rfl⟩
  | trans_chunked =>
    cases hf
    cases hrun
    exact ⟨_, rfl, { hal with chunked := rfl }, fun _ => rfl⟩
  | done =>
    cases hf
    cases hrun
    exact ⟨_, rfl, { hal with }, fun h => absurd rfl h⟩
  | reason_phrase =>
    obtain ⟨hm, hf⟩ := Option.ite_none_right_eq_some.mp hf
    cases hf
    obtain ⟨r₂', hrun₂, hal', hbody⟩ := clientCallback_lockstep g₂ hp hal (hal.mark hm).1
      (fun mem n => on_response_reason (mem.take n)) (fun _ h => by rw [h]) hrun
    exact ⟨r₂', hrun₂, hal', fun _ => hbody⟩
  | http_version =>
    obtain ⟨hm, hf⟩ := Option.ite_none_right_eq_some.mp hf
    cases hf
    obtain ⟨r₂', hrun₂, hal', hbody⟩ := clientCallback_lockstep g₂ hp hal (hal.mark hm).1
      on_response_version (fun x h => by
        rw [on_response_version, on_response_version, versionOf_eq_of_take h]) hrun
    exact ⟨r₂', hrun₂, hal', fun _ => hbody⟩
  | write_value =>
    obtain ⟨hfresh, hf⟩ := Option.ite_none_right_eq_some.mp hf
    cases hf
    simp only [Bool.and_eq_true] at hfresh
    obtain ⟨⟨hfs, hfl⟩, hm⟩ := hfresh
    have hfield := window_aligned pre g₁ g₂ (Nat.le_trans (hal.field_len hfl).2 (Nat.le_of_lt hp))
    rw [← (hal.field_start hfs).1, ← (hal.field_len hfl).1] at hfield
    have hrun₂ : (LEN r₁.mark (pre.length + p) >>= fun n => Except.ok { r₁ with
        toParsed := on_response_http_field
          (window (piece ++ g₂) r₂.field_start r₂.field_len) r₂.field_len
          (window (pre ++ (piece ++ g₁)) r₁.mark n) r₁.toParsed }) = .ok r₁' := by
      rw [← (hal.field_len hfl).1, ← hfield]
      exact hrun
    obtain ⟨r₂', hrun₂, hal', hbody⟩ := clientCallback_lockstep g₂ hp hal (hal.mark hm).1
      (fun mem n => on_response_http_field (window (piece ++ g₂) r₂.field_start r₂.field_len)
        r₂.field_len (mem.take n)) (fun _ h => by rw [h]) hrun₂
    exact ⟨r₂', hrun₂, hal', fun _ => hbody⟩

/-- The leading digits of a number do not depend on what stands behind a blank. -/
theorem leadingDigits_before_space (tok rest₁ rest₂ : List UInt8) (n : Nat) :
    leadingDigits digit digitValue 10 (tok ++ SP :: rest₁) n
      = leadingDigits digit digitValue 10 (tok ++ SP :: rest₂) n := by
  induction tok generalizing n with
  | nil => rfl
  | cons c tok ih => simp only [cons_append, leadingDigits, ih]

theorem strtol10_before_space {d : UInt8} (hd : digit d = true) (tok rest₁ rest₂ : List UInt8) :
    strtol10 (d :: tok ++ SP :: rest₁) = strtol10 (d :: tok ++ SP :: rest₂) := by
  have hsigned : ∀ rest, signed (d :: tok ++ SP :: rest) = (false, d :: tok ++ SP :: rest) := by
    intro rest
    exact signed_digits (d := [d]) (tok ++ SP :: rest) (cons_ne_nil _ _)
      (forall_mem_singleton.mpr ((digitClasses d).1 hd))
  rw [strtol10, strtol10, hsigned, hsigned, decDigits, decDigits,
    leadingDigits_before_space _ rest₁ rest₂]

/-- A transition other than that of the status; the action `done` is the last. -/
structure Ordinary (t : Cs × List Act) : Prop where
  status : .status_code ∉ t.2
  state : t.1 ≠ .status_code true
  done : .done ∈ t.2 → t.1.final = true

theorem next_ordinary (q : Cs) (c : UInt8) (hq : ∀ read, q ≠ .status_code read) :
    Ordinary (next q c) := by
  have hkey : ∀ k : Keyword, .status_code ∉ k.start_value ∧ .done ∉ k.start_value := by
    intro k
    cases k <;> decide
  unfold next
  split
  all_goals
    try simp only [lastBreak, lineBreak, extensionNext, headerNext, specialEnd, valueEnd,
      spacesNext, fail]
    repeat' split
  all_goals first
    | exact absurd rfl (hq _)
    | exact ⟨by simp [hkey], by simp, by simp [hkey, Cs.final]⟩

/-- A transition of the status: `strtol` begins at a digit of this piece. -/
theorem status_lockstep (g₂ : List UInt8) {c : UInt8} {read : Bool} (hc : piece[p]? = some c)
    (hf : (next (.status_code read) c).2.foldlM (fun f a => a.after f) f = some f')
    (hin : InStep piece (.status_code read) pre.length p f r₁ r₂)
    (hrun : machine.performAll (pre ++ (piece ++ g₁)) (pre.length + p)
      (next (.status_code read) c).2 r₁ = .ok r₁') :
    ∃ r₂', machine.performAll (piece ++ g₂) p (next (.status_code read) c).2 r₂ = .ok r₂'
      ∧ InStep piece (next (.status_code read) c).1 pre.length (p + 1) f' r₁' r₂' := by
  have hbody : r₂.body_start = 0 := hin.body_start rfl
  rw [next] at hf hrun ⊢
  split_ifs at hf hrun ⊢ with hdigit hread hend
  · subst hread
    cases hf
    cases hrun
    exact ⟨r₂, rfl, { hin.toAligned.advance with
      status := fun _ hm => (hin.status rfl hm).imp_left Nat.lt_succ_of_lt
      body_start := fun _ => hbody }⟩
  · cases hf
    cases hrun
    exact ⟨_, rfl, { hin.toAligned.advance with
      mark := fun _ => ⟨rfl, Nat.le_succ p⟩
      status := fun _ _ => ⟨Nat.lt_succ_self p, c, hc, hdigit⟩
      body_start := fun _ => hbody }⟩
  · -- the blank behind the digits
    obtain ⟨rfl, hsp⟩ := Bool.and_eq_true_iff.mp hend
    obtain rfl := beq_iff_eq.mp hsp
    obtain ⟨f₁, hf₁, hf⟩ := Option.bind_eq_some_iff.mp hf
    cases hf
    obtain ⟨hm, hf₁⟩ := Option.ite_none_right_eq_some.mp hf₁
    cases hf₁
    cases hrun
    obtain ⟨hlt, d, hd, hdig⟩ := hin.status rfl hm
    obtain ⟨rest₁, rest₂, hdrop₁, hdrop₂⟩ := drop_aligned pre g₁ g₂ hc (hin.mark hm).2
    obtain ⟨tok, htok⟩ : ∃ tok, (piece.take p).drop r₂.mark = d :: tok := by
      obtain ⟨hmark, hget⟩ := List.getElem?_eq_some_iff.mp hd
      have hlen : r₂.mark < (piece.take p).length := by
        rw [length_take]
        omega
      have hfirst := drop_eq_getElem_cons hlen
      rw [getElem_take, hget] at hfirst
      exact ⟨_, hfirst⟩
    refine ⟨_, rfl, { hin.toAligned.advance with
      parsed := ?_
      status := nofun
      body_start := fun _ => hbody }⟩
    show on_response_status _ _ = on_response_status _ _
    rw [(hin.mark hm).1, hdrop₁, hdrop₂, htok, on_response_status, on_response_status,
      strtol10_before_space hdig _ rest₁ rest₂, hin.parsed]
  · cases hf
    cases hrun
    exact ⟨r₂, rfl, { hin.toAligned.advance with
      status := nofun
      body_start := fun _ => hbody }⟩

/-- **A piece of a head is scanned as in the whole head.** -/
theorem response_lockstep : Lockstep machine Act.after InStep where
  step := by
    intro pre piece g₁ g₂ p q c f f' r₁ r₁' r₂ hq hc hf hin hrun
    have hp : p < piece.length := (List.getElem?_eq_some_iff.mp hc).1
    by_cases hstatus : ∃ read, q = .status_code read
    · obtain ⟨read, rfl⟩ := hstatus
      exact status_lockstep g₂ hc hf hin hrun
    · have hord := next_ordinary q c fun read h => hstatus ⟨read, h⟩
      have hbody : r₂.body_start = 0 := hin.body_start (Bool.or_eq_false_iff.mp hq).2
      obtain ⟨r₂', hrun₂, hal, hkept⟩ := performAll_lockstep (M := machine)
        (R := fun f r₁ r => Aligned pre.length p f r₁ r
          ∧ (.done ∉ (next q c).2 → r.body_start = 0)) _ (by
          intro a ha f f' r₁ r₁' r hf ⟨hal, hkept⟩ hrun
          obtain ⟨r', hrun', hal', hbody'⟩ := action_lockstep g₂ hp
            (fun h => hord.status (h ▸ ha)) hf hal hrun
          exact ⟨r', hrun', hal', fun h => (hbody' fun hdone => h (hdone ▸ ha)).trans (hkept h)⟩)
        hf ⟨hin.toAligned, fun _ => hbody⟩ hrun
      exact ⟨r₂', hrun₂, { hal.advance with
        status := fun h => absurd h hord.state
        body_start := fun hfin => hkept fun h =>
          Bool.noConfusion ((hord.done h).symm.trans hfin) }⟩

end Pieces
end SylarHttpClient
