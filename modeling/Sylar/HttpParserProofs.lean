import Mathlib.Data.List.Find
import Sylar.HttpScannerProofs
import Sylar.ScannerProofs
import Sylar.StreamProofs

/-! # The request parser (`http_parser.cc`, `http11_parser.rl`)

`HttpRequestParser` runs the scanner over a buffer; the scanner's actions
call back with parts of the buffer, and the callbacks store them in the
`HttpRequest`.

`http_parser_execute` keeps the scanner's state from call to call but resets
`mark`, `field_start` and `field_len`, and leaves `query_start` as it is: a
position remembered in one call does not belong to the next call's buffer.

* **`actions_lockstep`** — actions that read only positions of their own
  call do the same in a piece as in the whole input. -/

namespace SylarHttp

open ListWindow SylarStream Scanner List

/-- The bytes of a string literal. -/
def bytes (s : String) : List UInt8 := s.toList.map byte

/-! ## `HttpRequest` -/

/-- `HttpMethod`. -/
inductive HttpMethod where
  | DELETE | GET | HEAD | POST | PUT
  | CONNECT | OPTIONS | TRACE
  | COPY | LOCK | MKCOL | MOVE | PROPFIND | PROPPATCH | SEARCH | UNLOCK
  | BIND | REBIND | UNBIND | ACL
  | REPORT | MKACTIVITY | CHECKOUT | MERGE
  | MSEARCH | NOTIFY | SUBSCRIBE | UNSUBSCRIBE
  | PATCH | PURGE
  | MKCALENDAR
  | LINK | UNLINK
  | SOURCE
  | INVALID_METHOD
  deriving DecidableEq, Repr

def HTTP_METHOD_MAP : List (HttpMethod × String) :=
  [(.DELETE, "DELETE"), (.GET, "GET"), (.HEAD, "HEAD"), (.POST, "POST"),
    (.PUT, "PUT"), (.CONNECT, "CONNECT"), (.OPTIONS, "OPTIONS"),
    (.TRACE, "TRACE"), (.COPY, "COPY"), (.LOCK, "LOCK"), (.MKCOL, "MKCOL"),
    (.MOVE, "MOVE"), (.PROPFIND, "PROPFIND"), (.PROPPATCH, "PROPPATCH"),
    (.SEARCH, "SEARCH"), (.UNLOCK, "UNLOCK"), (.BIND, "BIND"),
    (.REBIND, "REBIND"), (.UNBIND, "UNBIND"), (.ACL, "ACL"),
    (.REPORT, "REPORT"), (.MKACTIVITY, "MKACTIVITY"), (.CHECKOUT, "CHECKOUT"),
    (.MERGE, "MERGE"), (.MSEARCH, "M-SEARCH"), (.NOTIFY, "NOTIFY"),
    (.SUBSCRIBE, "SUBSCRIBE"), (.UNSUBSCRIBE, "UNSUBSCRIBE"), (.PATCH, "PATCH"),
    (.PURGE, "PURGE"), (.MKCALENDAR, "MKCALENDAR"), (.LINK, "LINK"),
    (.UNLINK, "UNLINK"), (.SOURCE, "SOURCE")]

/-- `CharsToHttpMethod`: the first name of the map that the memory at `m`
begins with. -/
def CharsToHttpMethod (m : List UInt8) : HttpMethod :=
  match HTTP_METHOD_MAP.find? fun e => (bytes e.2).isPrefixOf m with
  | some e => e.1
  | none => .INVALID_METHOD

/-- `tolower` on a byte. -/
def tolower (c : UInt8) : UInt8 := if upper c then c + 32 else c

/-- What `strcasecmp` sees of a string: up to the first null byte, in lower
case. -/
def folded (s : List UInt8) : List UInt8 := (s.takeWhile (· != 0)).map tolower

/-- `CaseInsensitiveLess`. -/
def caseInsensitiveLess (l r : List UInt8) : Bool := decide (folded l < folded r)

/-- `MapType`: a map in the order of `CaseInsensitiveLess`. -/
abbrev MapType := List (List UInt8 × List UInt8)

/-- `m[key] = val`: an entry that is there keeps its key. -/
def MapType.set (key val : List UInt8) : MapType → MapType
  | [] => [(key, val)]
  | (k, v) :: rest =>
    if caseInsensitiveLess key k then (key, val) :: (k, v) :: rest
    else if caseInsensitiveLess k key then (k, v) :: MapType.set key val rest
    else (k, val) :: rest

/-- `m.find(key)`. -/
def MapType.lookup (key : List UInt8) (m : MapType) : Option (List UInt8) :=
  (m.find? fun e => !caseInsensitiveLess key e.1 && !caseInsensitiveLess e.1 key).map
    Prod.snd

/-- The decimal digits of a number, or nothing. -/
def decimal : List UInt8 → Nat → Option Nat
  | [], n => some n
  | c :: rest, n =>
    if digit c then decimal rest (10 * n + (c.toNat - 48)) else none

/-- `boost::lexical_cast<uint64_t>`, which is not part of the sources (`none` is the exception):
digits alone are cast to their value, if it fits. -/
class LexicalCast where
  lexical_cast : List UInt8 → Option UInt64
  digits : ∀ {v : List UInt8} {n : Nat}, v ≠ [] → decimal v 0 = some n →
    lexical_cast v = if 2 ^ 64 ≤ n then none else some (UInt64.ofNat n)

/-- A cast to compute with: no text but digits has a value. -/
instance digitsCast : LexicalCast where
  lexical_cast v :=
    if v = [] then none
    else (decimal v 0).bind fun n => if 2 ^ 64 ≤ n then none else some (UInt64.ofNat n)
  digits hne hvalue := by rw [if_neg hne, hvalue, Option.bind_some]

/-- `HttpRequest`, without the parameter and cookie maps the parser leaves
empty. -/
structure HttpRequest where
  m_method : HttpMethod := .GET
  m_version : UInt8 := 0x11
  m_close : Bool := true
  m_path : List UInt8 := bytes "/"
  m_query : List UInt8 := []
  m_fragment : List UInt8 := []
  m_headers : MapType := []
  m_body : List UInt8 := []
  deriving DecidableEq, Repr

/-- `getHeaderAs<uint64_t>(key, def)`. -/
def HttpRequest.getHeaderAs [LexicalCast] (q : HttpRequest) (key : List UInt8)
    (dflt : UInt64) : UInt64 :=
  match q.m_headers.lookup key with
  | none => dflt
  | some v => (LexicalCast.lexical_cast v).getD dflt

/-! ## The callbacks -/

/-- A string is constructed with a negative length, or the stream fails. -/
inductive HttpFault where
  | length_error
  | stream (e : StreamFault)
  deriving DecidableEq, Repr

/-- What the callbacks work on: the request and the error code. -/
structure Parsed where
  m_data : HttpRequest
  m_error : Int
  deriving DecidableEq, Repr

/-- What the actions work on: the same, and the positions of `http_parser`. -/
structure Registers extends Parsed where
  mark : Nat
  field_start : Nat
  field_len : Nat
  query_start : Nat
  deriving DecidableEq, Repr

/-- `LEN(AT, FPC)`.  It is handed on as a `size_t`; a negative one makes the
string constructor throw. -/
def LEN (at_ fpc : Nat) : Except HttpFault Nat :=
  if at_ ≤ fpc then .ok (fpc - at_) else .error .length_error

/-- `strncmp(at, s, length) == 0`. -/
def strncmpEq : Nat → List UInt8 → List UInt8 → Bool
  | 0, _, _ => true
  | n + 1, a :: as, b :: bs => a == b && (a == 0 || strncmpEq n as bs)
  | _, _, _ => false

def on_request_method (at_ : List UInt8) (r : Parsed) : Parsed :=
  match CharsToHttpMethod at_ with
  | .INVALID_METHOD => { r with m_error := 1000 }
  | m => { r with m_data := { r.m_data with m_method := m } }

def on_request_fragment (v : List UInt8) (r : Parsed) : Parsed :=
  { r with m_data := { r.m_data with m_fragment := v } }

def on_request_path (v : List UInt8) (r : Parsed) : Parsed :=
  { r with m_data := { r.m_data with m_path := v } }

def on_request_query (v : List UInt8) (r : Parsed) : Parsed :=
  { r with m_data := { r.m_data with m_query := v } }

/-- The version a text stands for; the literals end with a null byte. -/
def versionOf (at_ : List UInt8) (length : Nat) : Option UInt8 :=
  if strncmpEq length at_ (bytes "HTTP/1.1" ++ [0]) then some 0x11
  else if strncmpEq length at_ (bytes "HTTP/1.0" ++ [0]) then some 0x10
  else none

def on_request_version (at_ : List UInt8) (length : Nat) (r : Parsed) :
    Parsed :=
  match versionOf at_ length with
  | some v => { r with m_data := { r.m_data with m_version := v } }
  | none => { r with m_error := 1001 }

def on_request_http_field (field : List UInt8) (flen : Nat) (value : List UInt8)
    (r : Parsed) : Parsed :=
  if flen = 0 then r
  else
    { r with m_data :=
      { r.m_data with m_headers := r.m_data.m_headers.set field value } }

/-- The embedded actions at `fpc`.  `on_request_uri` and
`on_request_header_done` do nothing. -/
def perform (buffer : List UInt8) (fpc : Nat) :
    Act → Registers → Except HttpFault Registers
  | .mark, r => .ok { r with mark := fpc }
  | .start_field, r => .ok { r with field_start := fpc }
  -- `field_start` is 0 in a call that has not seen the name's first byte
  | .write_field, r => do
    let n ← LEN r.field_start fpc
    .ok { r with field_len := n }
  | .write_value, r => do
    let n ← LEN r.mark fpc
    let field := window buffer r.field_start r.field_len
    let value := window buffer r.mark n
    .ok { r with toParsed := on_request_http_field field r.field_len value r.toParsed }
  -- the callback looks at the memory from `mark` on, not at the token's length
  | .request_method, r =>
    .ok { r with toParsed := on_request_method (buffer.drop r.mark) r.toParsed }
  | .request_uri, r => .ok r
  | .fragment, r => do
    let n ← LEN r.mark fpc
    .ok { r with toParsed := on_request_fragment (window buffer r.mark n) r.toParsed }
  | .start_query, r => .ok { r with query_start := fpc }
  -- a position kept from an earlier call may lie ahead of `fpc`
  | .query_string, r => do
    let n ← LEN r.query_start fpc
    .ok { r with
      toParsed := on_request_query (window buffer r.query_start n) r.toParsed }
  | .http_version, r => do
    let n ← LEN r.mark fpc
    .ok { r with toParsed := on_request_version (buffer.drop r.mark) n r.toParsed }
  | .request_path, r => do
    let n ← LEN r.mark fpc
    .ok { r with toParsed := on_request_path (window buffer r.mark n) r.toParsed }
  | .xml, r => .ok r
  | .json, r => .ok r
  | .done, r => .ok r

/-- The generated machine with its actions. -/
def machine (relaxed : Bool) : Machine Cs UInt8 Act Registers HttpFault where
  next := next relaxed
  dead := Cs.dead
  final := Cs.final
  perform := perform

/-! ## `HttpRequestParser` -/

/-- `HttpRequestParser` with its `http_parser`. -/
structure HttpRequestParser extends Registers where
  cs : Cs
  uri_relaxed : Bool

/-- The constructor.  `m_error`, `uri_relaxed` and `query_start` are not set; the memory holds
`error`, `relaxed` and `query`. -/
def HttpRequestParser.new (error : Int) (relaxed : Bool) (query : Nat) :
    HttpRequestParser where
  mark := 0
  field_start := 0
  field_len := 0
  query_start := query
  m_data := {}
  m_error := error
  cs := .start
  uri_relaxed := relaxed

/-- The registers at the start of `http_parser_execute`. -/
def HttpRequestParser.reset (s : HttpRequestParser) : Registers :=
  { s.toRegisters with mark := 0, field_len := 0, field_start := 0 }

/-- The parser at the end of `http_parser_execute`. -/
def HttpRequestParser.after (s : HttpRequestParser) (cs : Cs) (r : Registers) :
    HttpRequestParser :=
  { s with toRegisters := r, cs := if s.cs.dead then s.cs else cs }

/-- `http_parser_execute(parser, buffer, len, 0)`: the number of bytes read. -/
def http_parser_execute (s : HttpRequestParser) (buffer : List UInt8) (len : Nat) :
    Except HttpFault (Nat × HttpRequestParser) :=
  if len = 0 then .ok (0, s)
  else
    match (machine s.uri_relaxed).scan buffer (buffer.take len) 0 s.cs s.reset with
    | .error e => .error e
    | .ok (p, cs, r) => .ok (p, s.after cs r)

/-- `HttpRequestParser::execute(data, len)`: the number of bytes read; the rest has moved to the
front. -/
def HttpRequestParser.execute (s : HttpRequestParser) (data : List UInt8)
    (len : Nat) : Except HttpFault (Nat × List UInt8 × HttpRequestParser) := do
  let (offset, s) ← http_parser_execute s data len
  .ok (offset, overwrite data 0 (window data offset (len - offset)), s)

/-- `isFinished()`: `http_parser_finish` is `-1`, `1` or `0`. -/
def HttpRequestParser.isFinished (s : HttpRequestParser) : Bool :=
  s.cs.dead || s.cs.final

/-- `hasError()`. -/
def HttpRequestParser.hasError (s : HttpRequestParser) : Bool :=
  s.m_error != 0 || s.cs.dead

/-- `getContentLength()`. -/
def HttpRequestParser.getContentLength [LexicalCast] (s : HttpRequestParser) : UInt64 :=
  s.m_data.getHeaderAs (bytes "content-length") 0

/-! ## Positions of the same call -/

/-- Which positions were written in the current call. -/
structure Fresh where
  mark : Bool
  field_start : Bool
  field_len : Bool
  query_start : Bool
  deriving DecidableEq, Repr

/-- At the start of a call. -/
def Fresh.stale : Fresh := ⟨false, false, false, false⟩

/-- What is fresh after an action, and nothing if it hands on a position that is not (`request_uri`
does so, but to a callback that does nothing). -/
def Act.after : Act → Fresh → Option Fresh
  | .mark, f => some { f with mark := true }
  | .start_field, f => some { f with field_start := true, field_len := false }
  | .write_field, f =>
    if f.field_start then some { f with field_len := true } else none
  | .write_value, f =>
    if f.field_start && f.field_len && f.mark then some f else none
  | .start_query, f => some { f with query_start := true }
  | .query_string, f => if f.query_start then some f else none
  | .request_method, f => if f.mark then some f else none
  | .fragment, f => if f.mark then some f else none
  | .http_version, f => if f.mark then some f else none
  | .request_path, f => if f.mark then some f else none
  | .request_uri, f => some f
  | .xml, f => some f
  | .json, f => some f
  | .done, f => some f

/-- The registers of the scan of the whole input and of a piece that begins at `b`, both `p` bytes
into the piece: same request, and the fresh positions are the same places. -/
structure Aligned (b p : Nat) (f : Fresh) (r₁ r₂ : Registers) : Prop where
  parsed : r₁.toParsed = r₂.toParsed
  mark : f.mark = true → r₁.mark = b + r₂.mark ∧ r₂.mark ≤ p
  field_start : f.field_start = true →
    r₁.field_start = b + r₂.field_start ∧ r₂.field_start ≤ p
  field_len : f.field_len = true →
    r₁.field_len = r₂.field_len ∧ r₂.field_start + r₂.field_len ≤ p
  query_start : f.query_start = true →
    r₁.query_start = b + r₂.query_start ∧ r₂.query_start ≤ p

variable {b m k : Nat} {r₁ r₂ : Registers} {x y : Parsed} {relaxed : Bool} {xs : List UInt8}
  {cs cs' : Cs} {s : HttpRequestParser}

/-- At the start of a call only the request must agree. -/
theorem aligned_stale (h : r₁.toParsed = r₂.toParsed) : Aligned b 0 .stale r₁ r₂ :=
  ⟨h, nofun, nofun, nofun, nofun⟩

theorem Aligned.advance {p : Nat} {f : Fresh} (h : Aligned b p f r₁ r₂) :
    Aligned b (p + 1) f r₁ r₂ :=
  ⟨h.parsed, fun hf => (h.mark hf).imp_right Nat.le_succ_of_le,
    fun hf => (h.field_start hf).imp_right Nat.le_succ_of_le,
    fun hf => (h.field_len hf).imp_right Nat.le_succ_of_le,
    fun hf => (h.query_start hf).imp_right Nat.le_succ_of_le⟩

variable {p at₁ at₂ n : Nat} {piece pre g₁ buffer : List UInt8} {r r' : Registers}

theorem LEN_aligned (h : at₁ = b + at₂) (hn : LEN at₁ (b + p) = .ok n) :
    LEN at₂ p = .ok n ∧ at₂ + n = p := by
  subst h
  rw [LEN] at hn ⊢
  by_cases hle : b + at₂ ≤ b + p
  · rw [if_pos hle] at hn
    rw [if_pos (by omega)]
    cases hn
    exact ⟨by congr 1; omega, by omega⟩
  · rw [if_neg hle] at hn
    nomatch hn

/-- A part of the piece, read in either buffer. -/
theorem window_aligned (pre g₁ g₂ : List UInt8) (h : m + n ≤ piece.length) :
    window (pre ++ (piece ++ g₁)) (pre.length + m) n = window (piece ++ g₂) m n := by
  rw [window_append_right, window_append_left g₁ h, window_append_left g₂ h]

/-- `strncmp` looks at no more than `n` bytes. -/
theorem strncmpEq_take (n : Nat) (a b : List UInt8) :
    strncmpEq n (a.take n) b = strncmpEq n a b := by
  induction n generalizing a b with
  | zero => rfl
  | succ n ih =>
    cases a with
    | nil => rfl
    | cons x xs =>
      cases b with
      | nil => rfl
      | cons y ys => simp only [take_succ_cons, strncmpEq, ih]

theorem versionOf_eq_of_take {a₁ a₂ : List UInt8} (h : a₁.take n = a₂.take n) :
    versionOf a₁ n = versionOf a₂ n := by
  simp only [versionOf]
  rw [← strncmpEq_take n a₁, ← strncmpEq_take n a₁, h, strncmpEq_take, strncmpEq_take]

/-- A name without spaces is not found across one. -/
theorem isPrefixOf_before_space (name tok rest : List UInt8) (hsp : SP ∉ name) :
    name.isPrefixOf (tok ++ SP :: rest) = name.isPrefixOf tok := by
  induction name generalizing tok with
  | nil => rfl
  | cons c name ih =>
    rw [mem_cons, not_or] at hsp
    cases tok with
    | nil =>
      have hne : (c == SP) = false := beq_false_of_ne (Ne.symm hsp.1)
      simp only [nil_append, isPrefixOf, hne, Bool.false_and]
    | cons x tok => simp only [cons_append, isPrefixOf, ih tok hsp.2]

/-- The method of a token does not depend on what stands behind its space. -/
theorem CharsToHttpMethod_before_space (tok rest : List UInt8) :
    CharsToHttpMethod (tok ++ SP :: rest) = CharsToHttpMethod tok := by
  have hnames : ∀ e ∈ HTTP_METHOD_MAP, SP ∉ bytes e.2 := by decide +kernel
  have hfind := find?_congr fun e he => isPrefixOf_before_space _ tok rest (hnames e he)
  rw [CharsToHttpMethod, CharsToHttpMethod, hfind]

theorem bind_ok_iff {α β : Type} {x : Except HttpFault α} {k : α → Except HttpFault β} {b : β} :
    (x >>= k) = .ok b ↔ ∃ a, x = .ok a ∧ k a = .ok b := by
  cases x with
  | error e => exact ⟨nofun, fun ⟨_, h, _⟩ => nomatch h⟩
  | ok a => exact ⟨fun h => ⟨a, rfl, h⟩, fun ⟨_, h, hk⟩ => by cases h; exact hk⟩

/-- From the fresh mark of the piece to the current byte, in either buffer. -/
theorem token_aligned (g₂ : List UInt8) (hp : p < piece.length) (h : at₁ = pre.length + at₂)
    (hn : LEN at₁ (pre.length + p) = .ok n) :
    LEN at₂ p = .ok n ∧ window (pre ++ (piece ++ g₁)) at₁ n = window (piece ++ g₂) at₂ n := by
  obtain ⟨hlen, hsum⟩ := LEN_aligned h hn
  exact ⟨hlen, h ▸ window_aligned pre g₁ g₂ (by omega)⟩

/-- A callback `k` that looks at no more than the token at a fresh position. -/
theorem callback_lockstep (g₂ : List UInt8) (hp : p < piece.length) {f : Fresh}
    {r₁' : Registers} (hal : Aligned pre.length p f r₁ r₂) (hat : at₁ = pre.length + at₂)
    (k : List UInt8 → Nat → Parsed → Parsed)
    (hk : ∀ {a₁ a₂ : List UInt8} {n : Nat} (x : Parsed), a₁.take n = a₂.take n →
      k a₁ n x = k a₂ n x) (h : (LEN at₁ (pre.length + p) >>= fun n => Except.ok { r₁ with
      toParsed := k ((pre ++ (piece ++ g₁)).drop at₁) n r₁.toParsed }) = .ok r₁') :
    ∃ r₂', (LEN at₂ p >>= fun n => Except.ok { r₂ with
        toParsed := k ((piece ++ g₂).drop at₂) n r₂.toParsed }) = .ok r₂'
      ∧ Aligned pre.length p f r₁' r₂' := by
  obtain ⟨n, hn, h⟩ := bind_ok_iff.mp h
  cases h
  obtain ⟨hn₂, hwin⟩ := token_aligned g₂ hp hat hn
  refine ⟨_, bind_ok_iff.mpr ⟨n, hn₂, rfl⟩, { hal with parsed := ?_ }⟩
  rw [hal.parsed]
  exact hk _ hwin

/-- From a position of the piece on, in either buffer: up to a later symbol it is the same. -/
theorem drop_aligned (pre g₁ g₂ : List UInt8) {c : UInt8} (hp : piece[p]? = some c) (hm : m ≤ p) :
    ∃ rest₁ rest₂, (pre ++ (piece ++ g₁)).drop (pre.length + m)
        = (piece.take p).drop m ++ c :: rest₁
      ∧ (piece ++ g₂).drop m = (piece.take p).drop m ++ c :: rest₂ := by
  obtain ⟨hlt, hc⟩ := List.getElem?_eq_some_iff.mp hp
  have hsplit : ∀ g, (piece ++ g).drop m
      = (piece.take p).drop m ++ c :: (piece.drop (p + 1) ++ g) := by
    intro g
    have hpiece : piece = piece.take p ++ c :: piece.drop (p + 1) := by
      rw [← hc, getElem_cons_drop, take_append_drop]
    conv_lhs => rw [hpiece]
    rw [append_assoc, drop_append_of_le_length (by rw [length_take]; omega)]
    rfl
  refine ⟨piece.drop (p + 1) ++ g₁, _, ?_, hsplit g₂⟩
  rw [drop_append, Nat.add_sub_cancel_left, drop_eq_nil_of_le (by omega), nil_append]
  exact hsplit g₁

/-- **Actions on positions of their own call** do the same in the piece as in
the whole input. -/
theorem actions_lockstep (relaxed : Bool) :
    Lockstep (machine relaxed) Act.after fun _ _ => Aligned where
  step := by
    intro pre piece g₁ g₂ p q c f f' r₁ r₁' r₂ _ hc hf hal hrun
    have hp : p < piece.length := (List.getElem?_eq_some_iff.mp hc).1
    refine (performAll_lockstep (R := Aligned pre.length p) _ ?_ hf hal hrun).imp
      fun _ h => ⟨h.1, h.2.advance⟩
    intro a ha f f' r₁ r₁' r₂ hf hal hrun
    cases a with
    | mark =>
      cases hf
      cases hrun
      exact ⟨_, rfl, { hal with mark := fun _ => ⟨rfl, Nat.le_refl _⟩ }⟩
    | start_field =>
      cases hf
      cases hrun
      exact ⟨_, rfl, { hal with
        field_start := fun _ => ⟨rfl, Nat.le_refl _⟩
        field_len := nofun }⟩
    | start_query =>
      cases hf
      cases hrun
      exact ⟨_, rfl, { hal with query_start := fun _ => ⟨rfl, Nat.le_refl _⟩ }⟩
    | write_field =>
      obtain ⟨hfs, hf⟩ := Option.ite_none_right_eq_some.mp hf
      cases hf
      obtain ⟨n, hn, hrun⟩ := bind_ok_iff.mp hrun
      cases hrun
      obtain ⟨hn₂, hsum⟩ := LEN_aligned (hal.field_start hfs).1 hn
      exact ⟨{ r₂ with field_len := n }, bind_ok_iff.mpr ⟨n, hn₂, rfl⟩,
        { hal with field_len := fun _ => ⟨rfl, Nat.le_of_eq hsum⟩ }⟩
    | request_uri | xml | json | done =>
      cases hf
      cases hrun
      exact ⟨r₂, rfl, hal⟩
    | request_path =>
      obtain ⟨hm, hf⟩ := Option.ite_none_right_eq_some.mp hf
      cases hf
      exact callback_lockstep g₂ hp hal (hal.mark hm).1
        (fun mem n => on_request_path (mem.take n)) (fun _ h => by rw [h]) hrun
    | fragment =>
      obtain ⟨hm, hf⟩ := Option.ite_none_right_eq_some.mp hf
      cases hf
      exact callback_lockstep g₂ hp hal (hal.mark hm).1
        (fun mem n => on_request_fragment (mem.take n)) (fun _ h => by rw [h]) hrun
    | query_string =>
      obtain ⟨hq, hf⟩ := Option.ite_none_right_eq_some.mp hf
      cases hf
      exact callback_lockstep g₂ hp hal (hal.query_start hq).1
        (fun mem n => on_request_query (mem.take n)) (fun _ h => by rw [h]) hrun
    | http_version =>
      obtain ⟨hm, hf⟩ := Option.ite_none_right_eq_some.mp hf
      cases hf
      refine callback_lockstep g₂ hp hal (hal.mark hm).1 on_request_version ?_ hrun
      intro a₁ a₂ n x h
      rw [on_request_version, on_request_version, versionOf_eq_of_take h]
    | write_value =>
      obtain ⟨hfresh, hf⟩ := Option.ite_none_right_eq_some.mp hf
      cases hf
      simp only [Bool.and_eq_true] at hfresh
      obtain ⟨⟨hfs, hfl⟩, hm⟩ := hfresh
      have hfield := window_aligned pre g₁ g₂ (Nat.le_trans (hal.field_len hfl).2 (Nat.le_of_lt hp))
      rw [← (hal.field_start hfs).1, ← (hal.field_len hfl).1] at hfield
      -- the name is an earlier token of the same call, the value is the current one
      have hrun₂ : (LEN r₁.mark (pre.length + p) >>= fun n => Except.ok { r₁ with
          toParsed := on_request_http_field
            (window (piece ++ g₂) r₂.field_start r₂.field_len) r₂.field_len
            (window (pre ++ (piece ++ g₁)) r₁.mark n) r₁.toParsed }) = .ok r₁' := by
        rw [← (hal.field_len hfl).1, ← hfield]
        exact hrun
      exact callback_lockstep g₂ hp hal (hal.mark hm).1 (fun mem n =>
        on_request_http_field (window (piece ++ g₂) r₂.field_start r₂.field_len)
          r₂.field_len (mem.take n)) (fun _ h => by rw [h]) hrun₂
    | request_method =>
      obtain ⟨hm, hf⟩ := Option.ite_none_right_eq_some.mp hf
      cases hf
      cases hrun
      obtain rfl := request_method_at_space ha
      refine ⟨_, rfl, { hal with parsed := ?_ }⟩
      obtain ⟨rest₁, rest₂, hdrop₁, hdrop₂⟩ := drop_aligned pre g₁ g₂ hc (hal.mark hm).2
      rw [(hal.mark hm).1, hdrop₁, hdrop₂, on_request_method, on_request_method,
        CharsToHttpMethod_before_space, CharsToHttpMethod_before_space, hal.parsed]

/-! ## What an action can store -/

/-- What a callback does: nothing, an error, or a change of the request other
than of its body. -/
inductive Stores (x : Parsed) : Parsed → Prop
  | nothing : Stores x x
  | error {e : Int} (he : e ≠ 0) : Stores x { x with m_error := e }
  | data {d : HttpRequest} (hd : d.m_body = x.m_data.m_body) :
      Stores x { x with m_data := d }

/-- What an action does to what is parsed: nothing, or one of the callbacks. -/
inductive Calls (x : Parsed) : Parsed → Prop
  | nothing : Calls x x
  | method (at_ : List UInt8) : Calls x (on_request_method at_ x)
  | fragment (at_ : List UInt8) : Calls x (on_request_fragment at_ x)
  | query (at_ : List UInt8) : Calls x (on_request_query at_ x)
  | path (at_ : List UInt8) : Calls x (on_request_path at_ x)
  | version (at_ : List UInt8) (n : Nat) : Calls x (on_request_version at_ n x)
  | http_field (field : List UInt8) (flen : Nat) (value : List UInt8) :
      Calls x (on_request_http_field field flen value x)

/-- One action calls at most one callback. -/
theorem perform_calls {a : Act} (h : perform buffer p a r = .ok r') :
    Calls r.toParsed r'.toParsed := by
  cases a with
  | mark | start_field | start_query | request_uri | xml | json | done =>
    cases h
    exact .nothing
  | request_method =>
    cases h
    exact .method _
  | write_field | write_value | http_version | fragment | query_string | request_path =>
    obtain ⟨n, -, h⟩ := bind_ok_iff.mp h
    cases h
    constructor

/-- A callback stores at most one thing. -/
theorem Calls.stores (h : Calls x y) : Stores x y := by
  cases h with
  | nothing => exact .nothing
  | fragment | query | path => exact .data rfl
  | method at_ =>
    rw [on_request_method]
    split
    · exact .error (by decide)
    · exact .data rfl
  | version at_ n =>
    rw [on_request_version]
    split
    · exact .data rfl
    · exact .error (by decide)
  | http_field field flen value =>
    rw [on_request_http_field]
    split
    · exact .nothing
    · exact .data rfl

theorem Stores.m_error_ne (h : Stores x y) (hx : x.m_error ≠ 0) : y.m_error ≠ 0 := by
  cases h with
  | nothing => exact hx
  | error he => exact he
  | data hd => exact hx

theorem Stores.m_body (h : Stores x y) : y.m_data.m_body = x.m_data.m_body := by
  cases h with
  | nothing => rfl
  | error he => rfl
  | data hd => exact hd

/-- An error stays. -/
theorem scan_m_error (h : (machine relaxed).scan buffer xs p cs r = .ok (k, cs', r'))
    (hr : r'.m_error = 0) : r.m_error = 0 := by
  by_contra hne
  exact scan_invariant (P := fun r => r.m_error ≠ 0)
    (fun hp => (perform_calls hp).stores.m_error_ne) xs h hne hr

/-- The parser stores no body. -/
theorem scan_m_body (h : (machine relaxed).scan buffer xs p cs r = .ok (k, cs', r'))
    (hr : r.m_data.m_body = []) : r'.m_data.m_body = [] :=
  scan_invariant (P := fun r => r.m_data.m_body = [])
    (fun hp hr => (perform_calls hp).stores.m_body.trans hr) xs h hr

/-- What every action keeps, a call of the parser keeps. -/
theorem execute_invariant {P : Parsed → Prop}
    (hP : ∀ {buffer p a r r'}, perform buffer p a r = .ok r' → P r.toParsed → P r'.toParsed)
    {s' : HttpRequestParser} {data data' : List UInt8} {len : Nat}
    (h : s.execute data len = .ok (n, data', s')) (hs : P s.toParsed) : P s'.toParsed := by
  obtain ⟨⟨k, s₁⟩, hexec, h⟩ := bind_ok_iff.mp h
  cases h
  rw [http_parser_execute] at hexec
  split at hexec
  · cases hexec
    exact hs
  · split at hexec
    · cases hexec
    · next p cs r hscan =>
      cases hexec
      exact scan_invariant (P := fun r => P r.toParsed) hP _ hscan hs

/-! ## One piece at the front of the buffer -/

/-- A call that takes `p` bytes of the piece at the front of the buffer leaves
the others at the front. -/
theorem take_moved (g : List UInt8) (hp : p ≤ piece.length) :
    (overwrite (piece ++ g) 0 (window (piece ++ g) p (piece.length - p))).take
      (piece.length - p) = piece.drop p := by
  have hwin : window (piece ++ g) p (piece.length - p) = piece.drop p := by
    rw [window_append_left g (by omega), window]
    exact take_of_length_le (by rw [length_drop])
  have htake := take_add_overwrite (l := piece ++ g) (piece.drop p) (p := 0) (Nat.zero_le _)
  rw [Nat.zero_add, length_drop, take_zero, nil_append] at htake
  rw [hwin, htake]

theorem length_moved (g : List UInt8) (hp : p ≤ piece.length) :
    (overwrite (piece ++ g) 0 (window (piece ++ g) p (piece.length - p))).length
      = piece.length + g.length := by
  have hwin := length_window (l := piece ++ g) (p := p) (n := piece.length - p)
    (by rw [length_append]; omega)
  rw [length_overwrite (by rw [hwin, length_append]; omega), length_append]

/-- The parser on a piece at the front of the buffer. -/
theorem execute_piece (g : List UInt8) (hne : piece ≠ []) : s.execute (piece ++ g) piece.length
      = ((machine s.uri_relaxed).scan (piece ++ g) piece 0 s.cs s.reset).map fun x => (x.1,
            overwrite (piece ++ g) 0 (window (piece ++ g) x.1 (piece.length - x.1)),
            s.after x.2.1 x.2.2) := by
  have hlen : piece.length ≠ 0 := fun h => hne (length_eq_zero_iff.mp h)
  rw [HttpRequestParser.execute, http_parser_execute, if_neg hlen, take_left]
  cases (machine s.uri_relaxed).scan (piece ++ g) piece 0 s.cs s.reset with
  | error e => rfl
  | ok x => rfl

end SylarHttp
