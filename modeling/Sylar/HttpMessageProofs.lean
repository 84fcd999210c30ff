import Sylar.HttpParserProofs

/-! # Printing requests and responses (`http.cc`)

`dump` writes the first line, the header fields in the order of the map, and
the body with its length.  The field `connection` is written from `m_close`,
and an entry of that name in the map is left out.

* **`lexical_cast_printed`** — a printed length is read back. -/

namespace SylarHttp

/-! ## `HttpResponse` -/

/-- `HttpStatus`; a received status is cast from any number. -/
abbrev HttpStatus := UInt32

def HTTP_STATUS_MAP : List (HttpStatus × String) :=
  [(100, "Continue"), (101, "Switching Protocols"), (102, "Processing"), (200, "OK"),
    (201, "Created"), (202, "Accepted"), (203, "Non-Authoritative Information"),
    (204, "No Content"), (205, "Reset Content"), (206, "Partial Content"),
    (207, "Multi-Status"), (208, "Already Reported"), (226, "IM Used"),
    (300, "Multiple Choices"), (301, "Moved Permanently"), (302, "Found"),
    (303, "See Other"), (304, "Not Modified"), (305, "Use Proxy"),
    (307, "Temporary Redirect"), (308, "Permanent Redirect"), (400, "Bad Request"),
    (401, "Unauthorized"), (402, "Payment Required"), (403, "Forbidden"),
    (404, "Not Found"), (405, "Method Not Allowed"), (406, "Not Acceptable"),
    (407, "Proxy Authentication Required"), (408, "Request Timeout"),
    (409, "Conflict"), (410, "Gone"), (411, "Length Required"),
    (412, "Precondition Failed"), (413, "Payload Too Large"), (414, "URI Too Long"),
    (415, "Unsupported Media Type"), (416, "Range Not Satisfiable"),
    (417, "Expectation Failed"), (421, "Misdirected Request"),
    (422, "Unprocessable Entity"), (423, "Locked"), (424, "Failed Dependency"),
    (426, "Upgrade Required"), (428, "Precondition Required"),
    (429, "Too Many Requests"), (431, "Request Header Fields Too Large"),
    (451, "Unavailable For Legal Reasons"), (500, "Internal Server Error"),
    (501, "Not Implemented"), (502, "Bad Gateway"), (503, "Service Unavailable"),
    (504, "Gateway Timeout"), (505, "HTTP Version Not Supported"),
    (506, "Variant Also Negotiates"), (507, "Insufficient Storage"),
    (508, "Loop Detected"), (510, "Not Extended"),
    (511, "Network Authentication Required")]

/-- `HttpResponse`.  No call stores a cookie. -/
structure HttpResponse where
  m_status : HttpStatus := 200
  m_version : UInt8 := 0x11
  m_close : Bool := true
  m_websocket : Bool
  m_body : List UInt8 := []
  m_reason : List UInt8 := []
  m_headers : MapType := []
  m_cookies : List (List UInt8) := []
  deriving DecidableEq, Repr

/-- The constructor does not set `m_websocket`: the memory holds `websocket`. -/
def HttpResponse.new (version : UInt8) (close websocket : Bool) : HttpResponse :=
  { m_version := version, m_close := close, m_websocket := websocket }

def HttpResponse.setHeader (r : HttpResponse) (key val : List UInt8) : HttpResponse :=
  { r with m_headers := r.m_headers.set key val }

/-- `getHeaderAs<uint64_t>(key, def)`. -/
def HttpResponse.getHeaderAs [LexicalCast] (r : HttpResponse) (key : List UInt8)
    (dflt : UInt64) : UInt64 :=
  match r.m_headers.lookup key with
  | none => dflt
  | some v => (LexicalCast.lexical_cast v).getD dflt

/-! ## `dump` -/

/-- What `<<` prints for a number. -/
def printed (n : Nat) : List UInt8 := (Nat.toDigits 10 n).map byte

/-- `HttpMethodToString`. -/
def HttpMethodToString (m : HttpMethod) : String :=
  match HTTP_METHOD_MAP.find? fun e => e.1 == m with
  | some e => e.2
  | none => "<unknown>"

/-- `HttpStatusToString`. -/
def HttpStatusToString (s : HttpStatus) : String :=
  match HTTP_STATUS_MAP.find? fun e => e.1 == s with
  | some e => e.2
  | none => "<unknown>"

def CRLF : List UInt8 := [CR, LF]

/-- `HTTP/1.1`. -/
def versionText (m_version : UInt8) : List UInt8 :=
  bytes "HTTP/" ++ printed (m_version >>> 4).toNat ++ bytes "."
    ++ printed (m_version &&& 0x0F).toNat

def headerLine (key val : List UInt8) : List UInt8 :=
  key ++ bytes ": " ++ val ++ CRLF

/-- `strcasecmp(key, "connection") == 0`. -/
def isConnection (key : List UInt8) : Bool := folded key == bytes "connection"

def connectionLine (m_close : Bool) : List UInt8 :=
  headerLine (bytes "connection") (bytes (if m_close then "close" else "keep-alive"))

/-- The end of the head and the body, with its length if there is one. -/
def bodyText (m_body : List UInt8) : List UInt8 :=
  if m_body = [] then CRLF
  else headerLine (bytes "content-length") (printed m_body.length) ++ CRLF ++ m_body

/-- The query or the fragment, if there is one. -/
def uriPart (mark : String) (part : List UInt8) : List UInt8 :=
  (if part = [] then [] else bytes mark) ++ part

def HttpRequest.requestLine (q : HttpRequest) : List UInt8 :=
  bytes (HttpMethodToString q.m_method) ++ bytes " " ++ q.m_path
    ++ uriPart "?" q.m_query ++ uriPart "#" q.m_fragment ++ bytes " "
    ++ versionText q.m_version ++ CRLF

/-- The fields that are printed from the map. -/
def MapType.shown (m_headers : MapType) : MapType :=
  m_headers.filter fun e => !isConnection e.1

def MapType.dump (m_headers : MapType) : List UInt8 :=
  m_headers.flatMap fun e => headerLine e.1 e.2

/-- **`HttpRequest::dump`.** -/
def HttpRequest.dump (q : HttpRequest) : List UInt8 :=
  q.requestLine ++ connectionLine q.m_close ++ q.m_headers.shown.dump
    ++ bodyText q.m_body

def HttpResponse.statusLine (r : HttpResponse) : List UInt8 :=
  versionText r.m_version ++ bytes " " ++ printed r.m_status.toNat ++ bytes " "
    ++ (if r.m_reason = [] then bytes (HttpStatusToString r.m_status) else r.m_reason)
    ++ CRLF

/-- **`HttpResponse::dump`.** -/
def HttpResponse.dump (r : HttpResponse) : List UInt8 :=
  r.statusLine
    ++ (if r.m_websocket then r.m_headers else r.m_headers.shown).dump
    ++ r.m_cookies.flatMap (headerLine (bytes "Set-Cookie"))
    ++ (if r.m_websocket then [] else connectionLine r.m_close)
    ++ bodyText r.m_body

/-! ## Printed numbers -/

theorem digit_byte {c : Char} (h : c.isDigit = true) :
    digit (byte c) = true ∧ (byte c).toNat = c.toNat := by
  have hrange : 48 ≤ c.toNat ∧ c.toNat ≤ 57 := by
    simpa [Char.isDigit, UInt32.le_iff_toNat_le] using h
  have hnat : (byte c).toNat = c.toNat := by
    rw [byte, Char.toUInt8, UInt32.toNat_toUInt8]
    exact Nat.mod_eq_of_lt (Nat.lt_of_le_of_lt hrange.2 (by decide))
  refine ⟨?_, hnat⟩
  have hle : byte '0' ≤ byte c ∧ byte c ≤ byte '9' := by
    rw [UInt8.le_iff_toNat_le, UInt8.le_iff_toNat_le, hnat]
    exact hrange
  simp [digit, inRange, hle.1, hle.2]

theorem printed_digits (n : Nat) : ∀ c ∈ printed n, digit c = true := by
  intro c hc
  obtain ⟨x, hx, rfl⟩ := List.mem_map.mp hc
  exact (digit_byte (Nat.isDigit_of_mem_toDigits (by decide) (by decide) hx)).1

theorem printed_ne_nil (n : Nat) : printed n ≠ [] :=
  fun h => Nat.toDigits_ne_nil (List.map_eq_nil_iff.mp h)

theorem decimal_digits (cs : List Char) (n : Nat) (h : ∀ c ∈ cs, c.isDigit = true) :
    decimal (cs.map byte) n = some (Nat.ofDigitChars 10 cs n) := by
  induction cs generalizing n with
  | nil => rfl
  | cons c cs ih =>
    obtain ⟨hc, hcs⟩ := List.forall_mem_cons.mp h
    obtain ⟨hdigit, hnat⟩ := digit_byte hc
    rw [List.map_cons, decimal, if_pos hdigit, hnat, Nat.ofDigitChars_cons]
    exact ih _ hcs

theorem decimal_printed (n : Nat) : decimal (printed n) 0 = some n := by
  rw [printed, decimal_digits _ _ fun c hc =>
    Nat.isDigit_of_mem_toDigits (by decide) (by decide) hc]
  exact congrArg some Nat.ofDigitChars_ten_toDigits

/-- **A printed number is read back** by `lexical_cast<uint64_t>`, if it fits. -/
theorem lexical_cast_printed [LexicalCast] {n : Nat} (h : n < 2 ^ 64) :
    LexicalCast.lexical_cast (printed n) = some (UInt64.ofNat n) := by
  rw [LexicalCast.digits (printed_ne_nil n) (decimal_printed n), if_neg (by omega)]

end SylarHttp
