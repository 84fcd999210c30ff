import Mathlib.Computability.RegularExpressions
import Mathlib.Data.UInt

/-! # The scanner for requests (`http11_parser.rl`)

The machine generated from the grammar, with its embedded actions: a
request line and header fields, or one of the two socket messages (XML and
JSON) the grammar also accepts.

The state names follow the grammar's rules; every state of the generated
machine is one of them, except that the states inside an IP literal are the
residual expressions of the grammar's `IP_literal`.

Some rules of the grammar do not say what their comments say, and the
machine does what they say: `("1"-"9")` is a difference of sets, that is
`"1"`; `6( h16 ":" )` is the byte 6 followed by one group; and
`HTTP_CTL` is `{0, 127}`, so that control characters are token
characters. -/

namespace SylarHttp

/-! ## Character classes -/

/-- The byte of an ASCII character. -/
def byte (c : Char) : UInt8 := c.toUInt8

def inRange (lo hi : Char) (c : UInt8) : Bool := byte lo ≤ c && c ≤ byte hi

def oneOf (cs : List Char) (c : UInt8) : Bool := cs.any fun x => byte x == c

def CR : UInt8 := 13
def LF : UInt8 := 10
def SP : UInt8 := 32
def HT : UInt8 := 9

def digit (c : UInt8) : Bool := inRange '0' '9' c
def upper (c : UInt8) : Bool := inRange 'A' 'Z' c
def alpha (c : UInt8) : Bool := upper c || inRange 'a' 'z' c
def xdigit (c : UInt8) : Bool := digit c || inRange 'A' 'F' c || inRange 'a' 'f' c

/-- `sub_delims`: from `&` to `,` are the apostrophe, round brackets, star and plus sign;
`more_delims` count when `uri_relaxed` is set. -/
def sub_delims (relaxed : Bool) (c : UInt8) : Bool :=
  oneOf ['!', '$', ';', '='] c || inRange '&' ',' c
    || (relaxed && oneOf ['{', '}', '^'] c)

def unreserved (c : UInt8) : Bool :=
  alpha c || digit c || oneOf ['-', '.', '_', '~'] c

def reg_name (relaxed : Bool) (c : UInt8) : Bool :=
  unreserved c || sub_delims relaxed c

def segment_nz_nc (relaxed : Bool) (c : UInt8) : Bool :=
  reg_name relaxed c || c == byte '@'

/-- A `pchar` that is not percent-encoded. -/
def pchar (relaxed : Bool) (c : UInt8) : Bool :=
  128 ≤ c || segment_nz_nc relaxed c || c == byte ':'

/-- `HTTP_CTL`, as the generator reads `(0 - 31) | 127`. -/
def HTTP_CTL (c : UInt8) : Bool := c == 0 || c == 127

/-- `HTTP_separator`; 34 and 92 are the double quote and the backslash. -/
def HTTP_separator (c : UInt8) : Bool :=
  oneOf ['(', ')', '<', '>', '@', ',', ';', ':', '/', '[', ']', '?', '=', '{', '}'] c
    || c == 34 || c == 92 || c == SP || c == HT

def token (c : UInt8) : Bool := c < 128 && !HTTP_CTL c && !HTTP_separator c

/-! ## IP literals -/

section IPLiteral

open RegularExpression

/-- One byte of a class. -/
def oneByte (p : UInt8 → Bool) : RegularExpression UInt8 :=
  (((List.range 256).map UInt8.ofNat).filter p).foldr (fun c r => char c + r) 0

def text (cs : List Char) : RegularExpression UInt8 :=
  cs.foldr (fun c r => char (byte c) * r) 1

def opt (r : RegularExpression UInt8) : RegularExpression UInt8 := 1 + r

/-- `r{n,}`. -/
def atLeast (n : Nat) (r : RegularExpression UInt8) : RegularExpression UInt8 :=
  r ^ n * star r

def dec_octet : RegularExpression UInt8 :=
  oneByte digit
    + text ['1'] * oneByte digit
    + text ['1'] * oneByte digit ^ 2
    + text ['2', '0'] * oneByte digit
    + text ['2', '5', '0']

def IPv4address : RegularExpression UInt8 :=
  dec_octet * text ['.'] * dec_octet * text ['.'] * dec_octet * text ['.'] * dec_octet

def h16 : RegularExpression UInt8 :=
  oneByte xdigit * opt (oneByte xdigit * opt (oneByte xdigit * opt (oneByte xdigit)))

def ls32 : RegularExpression UInt8 := h16 * text [':'] * h16 + IPv4address

/-- `h16 ":"`. -/
def group : RegularExpression UInt8 := h16 * text [':']

/-- A literal number of the grammar is the byte of that value. -/
def IPv6address : RegularExpression UInt8 :=
  char 6 * group * ls32
    + text [':', ':'] * char 5 * group * ls32
    + opt h16 * text [':', ':'] * char 4 * group * ls32
    + opt (atLeast 1 group * h16) * text [':', ':'] * char 3 * group * ls32
    + opt (atLeast 2 group * h16) * text [':', ':'] * char 2 * group * ls32
    + opt (atLeast 3 group * h16) * text [':', ':'] * group * ls32
    + opt (atLeast 4 group * h16) * text [':', ':'] * ls32
    + opt (atLeast 5 group * h16) * text [':', ':'] * h16
    + opt (atLeast 6 group * h16) * text [':', ':']

def IPvFuture (relaxed : Bool) : RegularExpression UInt8 :=
  text ['v'] * atLeast 1 (oneByte xdigit) * text ['.']
    * atLeast 1 (oneByte fun c => reg_name relaxed c || c == byte ':')

/-- No word is left: the machine has no such state. -/
def void : RegularExpression UInt8 → Bool
  | .zero => true
  | .epsilon => false
  | .char _ => false
  | .plus p q => void p && void q
  | .comp p q => void p || void q
  | .star _ => false

end IPLiteral

/-! ## The machine -/

/-- The embedded actions; `start_value` marks like `mark`. -/
inductive Act where
  | mark
  | start_field
  | write_field
  | write_value
  | request_method
  | request_uri
  | fragment
  | start_query
  | query_string
  | http_version
  | request_path
  | xml
  | json
  | done
  deriving DecidableEq, Repr

/-- A path is read in a request line or in a JSON message. -/
inductive Ctx where
  | line
  | socket
  deriving DecidableEq, Repr

/-- The states. -/
inductive Cs where
  | error
  | start
  /-- `n` bytes of the method have been read. -/
  | method (n : Nat)
  | uri
  /-- A first segment that may be a scheme. -/
  | scheme
  /-- Behind the colon of the scheme. -/
  | hier_part
  /-- A first segment that is not a scheme. -/
  | segment_nz_nc (x : Ctx)
  | path (x : Ctx)
  /-- Behind a first slash. -/
  | slash (x : Ctx)
  | authority (x : Ctx)
  /-- User information or a host. -/
  | userinfo (x : Ctx)
  /-- Behind a colon: more user information, or a port. -/
  | passwordOrPort (x : Ctx)
  | password (x : Ctx)
  | host (x : Ctx)
  | reg_name (x : Ctx)
  | port (x : Ctx)
  | IP_literal (x : Ctx) (rest : RegularExpression UInt8)
  | closed (x : Ctx)
  /-- Two digits of a percent-encoded byte are missing, or one. -/
  | pct_encoded (back : Cs)
  | pct_digit (back : Cs)
  | questionMark
  | query
  | numberSign
  | fragment
  | HTTP_Version
  /-- What is missing of `HTTP/1.`. -/
  | versionText (left : List Char)
  | versionNumber
  | versionEnd
  | lineEnd
  | header
  /-- A carriage return at the start of a header line. -/
  | emptyLine
  | field_name
  | colon
  | field_value
  | xmlStart
  | xmlName
  | xmlData
  | xmlClose
  | jsonPath
  | jsonStart
  | jsonData
  | jsonClose
  | done
  | socketDone

/-- `cs == http_parser_error`. -/
def Cs.dead : Cs → Bool
  | .error => true
  | _ => false

/-- `cs >= http_parser_first_final`. -/
def Cs.final : Cs → Bool
  | .done => true
  | .socketDone => true
  | _ => false

/-- No transition. -/
def fail : Cs × List Act := (.error, [])

/-- The transition with a mark before its own actions. -/
def marked (t : Cs × List Act) : Cs × List Act := (t.1, .mark :: t.2)

/-- The transition with a mark of the query before its own actions. -/
def queryMarked (t : Cs × List Act) : Cs × List Act := (t.1, .start_query :: t.2)

/-- The byte behind the path. -/
def pathEnd : Ctx → UInt8 → Cs × List Act
  | .line, c =>
    if c == SP then (.HTTP_Version, [.request_path, .request_uri])
    else if c == byte '#' then (.numberSign, [.request_path, .request_uri])
    else if c == byte '?' then (.questionMark, [.request_path])
    else fail
  | .socket, c => if c == SP then (.jsonStart, [.request_path]) else fail

/-- A byte of the path, or the byte behind it. -/
def pathNext (relaxed : Bool) (x : Ctx) (c : UInt8) : Cs × List Act :=
  if pchar relaxed c || c == byte '/' then (.path x, [])
  else if c == byte '%' then (.pct_encoded (.path x), [])
  else pathEnd x c

/-- The byte behind the authority. -/
def authorityEnd (x : Ctx) (c : UInt8) : Cs × List Act :=
  if c == byte '/' then (.path x, []) else pathEnd x c

/-- A byte where user information or a host stands. -/
def userinfoNext (relaxed : Bool) (x : Ctx) (c : UInt8) : Cs × List Act :=
  if reg_name relaxed c then (.userinfo x, [])
  else if c == byte '%' then (.pct_encoded (.userinfo x), [])
  else if c == byte ':' then (.passwordOrPort x, [])
  else if c == byte '@' then (.host x, [])
  else authorityEnd x c

/-- A byte where a password stands. -/
def passwordNext (relaxed : Bool) (x : Ctx) (c : UInt8) : Cs × List Act :=
  if reg_name relaxed c || c == byte ':' then (.password x, [])
  else if c == byte '%' then (.pct_encoded (.password x), [])
  else if c == byte '@' then (.host x, [])
  else fail

/-- A byte where a host stands. -/
def hostNext (relaxed : Bool) (x : Ctx) (c : UInt8) : Cs × List Act :=
  if reg_name relaxed c then (.reg_name x, [])
  else if c == byte '%' then (.pct_encoded (.reg_name x), [])
  else if c == byte ':' then (.port x, [])
  else authorityEnd x c

/-- The start of an IP literal. -/
def literalStart (relaxed : Bool) (x : Ctx) : Cs × List Act :=
  (.IP_literal x (IPv6address + IPvFuture relaxed), [])

/-- A byte inside an IP literal of which `rest` is still to come. -/
def literalNext (x : Ctx) (rest : RegularExpression UInt8) (c : UInt8) :
    Cs × List Act :=
  if c == byte ']' && rest.matchEpsilon then (.closed x, [])
  else if void (rest.deriv c) then fail
  else (.IP_literal x (rest.deriv c), [])

/-- The byte behind the query. -/
def queryNext (relaxed : Bool) (c : UInt8) : Cs × List Act :=
  if pchar relaxed c || c == byte '/' || c == byte '?' then (.query, [])
  else if c == byte '%' then (.pct_encoded .query, [])
  else if c == SP then (.HTTP_Version, [.query_string, .request_uri])
  else if c == byte '#' then (.numberSign, [.query_string, .request_uri])
  else fail

/-- Inside a fragment. -/
def fragmentNext (relaxed : Bool) (c : UInt8) : Cs × List Act :=
  if pchar relaxed c || c == byte '/' || c == byte '?' then (.fragment, [])
  else if c == byte '%' then (.pct_encoded .fragment, [])
  else if c == SP then (.HTTP_Version, [.fragment])
  else fail

/-- The end of a line, with the actions that stand there. -/
def lineBreak (c : UInt8) (as : List Act) (other : Cs × List Act) :
    Cs × List Act :=
  if c == LF then (.header, as)
  else if c == CR then (.lineEnd, as)
  else other

/-- A byte of a field name, or the colon behind it. -/
def fieldNameNext (c : UInt8) : Cs × List Act :=
  if token c then (.field_name, [])
  else if c == byte ':' then (.colon, [.write_field])
  else fail

def xmlNameChar (c : UInt8) : Bool := alpha c || digit c || oneOf ['-', '.'] c

/-- `space`, a slash or a closing bracket. -/
def xmlNameEnd (c : UInt8) : Bool :=
  (9 ≤ c && c ≤ 13) || c == SP || oneOf ['/', '>'] c

/-- **The transitions**: `%% write exec` with its actions. -/
def next (relaxed : Bool) : Cs → UInt8 → Cs × List Act
  | .error, _ => fail
  | .start, c =>
    if digit c || upper c then (.method 1, [.mark])
    else if c == byte '<' then (.xmlStart, [.mark])
    else if c == byte '@' then (.jsonPath, [.mark])
    else fail
  -- `{1,20}`: a twenty-first character is refused
  | .method n, c =>
    if c == SP then (.uri, [.request_method])
    else if (digit c || upper c) && n < 20 then (.method (n + 1), [])
    else fail
  | .uri, c => marked
    (if alpha c then (.scheme, [])
    else if segment_nz_nc relaxed c then (.segment_nz_nc .line, [])
    else if c == byte '%' then (.pct_encoded (.segment_nz_nc .line), [])
    else if c == byte '/' then (.slash .line, [])
    else pathEnd .line c)
  | .scheme, c =>
    if alpha c || digit c || oneOf ['+', '-', '.'] c then (.scheme, [])
    else if c == byte ':' then (.hier_part, [])
    else if segment_nz_nc relaxed c then (.segment_nz_nc .line, [])
    else if c == byte '%' then (.pct_encoded (.segment_nz_nc .line), [])
    else authorityEnd .line c
  | .hier_part, c => marked
    (if c == byte '/' then (.slash .line, []) else pathNext relaxed .line c)
  | .segment_nz_nc x, c =>
    if segment_nz_nc relaxed c then (.segment_nz_nc x, [])
    else if c == byte '%' then (.pct_encoded (.segment_nz_nc x), [])
    else authorityEnd x c
  | .path x, c => pathNext relaxed x c
  | .slash x, c =>
    if c == byte '/' then (.authority x, []) else pathNext relaxed x c
  | .authority x, c =>
    if c == byte '[' then literalStart relaxed x else userinfoNext relaxed x c
  | .userinfo x, c => userinfoNext relaxed x c
  -- only digits so far: this may still turn out to be the port
  | .passwordOrPort x, c =>
    if digit c then (.passwordOrPort x, [])
    else if reg_name relaxed c || oneOf [':', '%', '@'] c then
      passwordNext relaxed x c
    else authorityEnd x c
  | .password x, c => passwordNext relaxed x c
  | .host x, c =>
    if c == byte '[' then literalStart relaxed x else hostNext relaxed x c
  | .reg_name x, c => hostNext relaxed x c
  | .port x, c => if digit c then (.port x, []) else authorityEnd x c
  | .IP_literal x rest, c => literalNext x rest c
  | .closed x, c => if c == byte ':' then (.port x, []) else authorityEnd x c
  | .pct_encoded back, c => if xdigit c then (.pct_digit back, []) else fail
  | .pct_digit back, c => if xdigit c then (back, []) else fail
  | .questionMark, c => queryMarked (queryNext relaxed c)
  | .query, c => queryNext relaxed c
  | .numberSign, c => marked (fragmentNext relaxed c)
  | .fragment, c => fragmentNext relaxed c
  | .HTTP_Version, c =>
    if c == byte 'H' then (.versionText ['T', 'T', 'P', '/', '1', '.'], [.mark])
    else fail
  | .versionText [], _ => fail
  | .versionText [x], c => if c == byte x then (.versionNumber, []) else fail
  | .versionText (x :: y :: left), c =>
    if c == byte x then (.versionText (y :: left), []) else fail
  | .versionNumber, c => if oneOf ['0', '1'] c then (.versionEnd, []) else fail
  | .versionEnd, c => lineBreak c [.http_version] fail
  | .lineEnd, c => if c == LF then (.header, []) else fail
  -- the line breaks are token characters too, but end the head here
  | .header, c =>
    if c == LF then (.done, [.start_field, .done])
    else if c == CR then (.emptyLine, [.start_field])
    else if token c then (.field_name, [.start_field])
    else fail
  | .emptyLine, c => if c == LF then (.done, [.done]) else fieldNameNext c
  | .field_name, c => fieldNameNext c
  -- every blank marks the value again, so it starts behind them
  | .colon, c => marked
    (lineBreak c [.write_value]
      (if c == SP || c == HT then (.colon, [])
      else if HTTP_CTL c then fail
      else (.field_value, [])))
  | .field_value, c =>
    lineBreak c [.write_value] (if HTTP_CTL c then fail else (.field_value, []))
  | .xmlStart, c => if xmlNameChar c then (.xmlName, []) else fail
  | .xmlName, c =>
    if xmlNameChar c then (.xmlName, [])
    else if xmlNameEnd c then (.xmlData, [.request_path])
    else fail
  | .xmlData, c => if c == byte '>' then (.xmlClose, []) else (.xmlData, [])
  | .xmlClose, c =>
    if c == 0 then (.socketDone, [.xml, .done])
    else if c == byte '>' then (.xmlClose, [])
    else (.xmlData, [])
  | .jsonPath, c =>
    if segment_nz_nc relaxed c then (.segment_nz_nc .socket, [])
    else if c == byte '%' then (.pct_encoded (.segment_nz_nc .socket), [])
    else if c == byte '/' then (.slash .socket, [])
    else pathEnd .socket c
  | .jsonStart, c => if c == byte '{' then (.jsonData, [.mark]) else fail
  | .jsonData, c => if c == byte '}' then (.jsonClose, []) else (.jsonData, [])
  | .jsonClose, c =>
    if c == 0 then (.socketDone, [.json, .done])
    else if c == byte '}' then (.jsonClose, [])
    else (.jsonData, [])
  -- a final state is left only when the machine is called again in it
  | .done, c => fieldNameNext c
  | .socketDone, _ => fail

/-! ## Where the method is reported -/

/-- The transition does not report a method. -/
private def Quiet (t : Cs × List Act) : Prop := .request_method ∉ t.2

variable {t : Cs × List Act} {cs : Cs}

theorem Quiet.ite {p : Bool} {u : Cs × List Act} (ht : Quiet t) (hu : Quiet u) :
    Quiet (if p then t else u) := by
  split
  · exact ht
  · exact hu

theorem Quiet.marked (h : Quiet t) : Quiet (marked t) := by
  rintro (_ | ⟨_, hmem⟩)
  exact h hmem

theorem Quiet.queryMarked (h : Quiet t) : Quiet (queryMarked t) := by
  rintro (_ | ⟨_, hmem⟩)
  exact h hmem

/-- Only the end of the method reports it. -/
theorem quiet_next (relaxed : Bool) (h : ∀ n, cs ≠ .method n) (c : UInt8) :
    Quiet (next relaxed cs c) := by
  have quiet : ∀ (q : Cs) {as : List Act}, .request_method ∉ as → Quiet (q, as) := fun _ _ h => h
  have hend : ∀ x, Quiet (pathEnd x c) := by
    intro x
    cases x
    · exact .ite (quiet _ (by decide)) (.ite (quiet _ (by decide))
        (.ite (quiet _ (by decide)) (quiet _ (by decide))))
    · exact .ite (quiet _ (by decide)) (quiet _ (by decide))
  cases cs
  case method n => exact absurd rfl (h n)
  case versionText left =>
    rcases left with _ | ⟨x, _ | ⟨y, left⟩⟩
    · exact quiet _ (by decide)
    · exact .ite (quiet _ (by decide)) (quiet _ (by decide))
    · exact .ite (quiet _ (by decide)) (quiet _ (by decide))
  all_goals
    unfold next
    simp only [pathNext, authorityEnd, userinfoNext, passwordNext, hostNext,
      literalStart, literalNext, queryNext, fragmentNext, lineBreak, fieldNameNext]
    repeat' first
      | exact hend _
      | exact quiet _ (by decide)
      | apply Quiet.marked
      | apply Quiet.queryMarked
      | apply Quiet.ite

/-- The method is reported at a space, so its token ends there. -/
theorem request_method_at_space {relaxed : Bool} {c : UInt8}
    (h : .request_method ∈ (next relaxed cs c).2) : c = SP := by
  by_cases hcs : ∃ n, cs = .method n
  · obtain ⟨n, rfl⟩ := hcs
    by_contra hc
    rw [next, if_neg (by rwa [beq_iff_eq])] at h
    split at h
    · nomatch h
    · nomatch h
  · exact absurd h (quiet_next relaxed (fun n hn => hcs ⟨n, hn⟩) c)

end SylarHttp
