import Sylar.HttpParserProofs

/-! # The scanner for responses (`httpclient_parser.rl`)

   The machine generated from the grammar: a status line and header fields, or
   the size line of a chunk.

   Three header fields have rules of their own beside the general one, and the
   machine follows both: it reads a name and keeps which of the three names it
   may still become, and behind that name it reads a value and keeps what is
   missing of the value of the special rule.  The special rules allow `space*`
   behind the colon, which has the line breaks inside, and the general one does
   not.  So behind an empty value one of them may go on in the next line, where
   for the other a new header line starts.
-/

namespace SylarHttpClient

open SylarHttp List

/-! ## Character classes -/

def CTL (c : UInt8) : Bool := c ≤ 31 || c == 127

def token (c : UInt8) : Bool := c < 128 && !CTL c && !HTTP_separator c

/-- `space`: the line breaks are among them. -/
def space (c : UInt8) : Bool := (9 ≤ c && c ≤ 13) || c == SP

/-! ## The special header fields -/

inductive Keyword where
  | transfer_encoding_chunked
  | conn_close
  | content_length
  deriving DecidableEq, Repr

def Keyword.name : Keyword → List Char
  | .transfer_encoding_chunked => "transfer-encoding".toList
  | .conn_close => "connection".toList
  | .content_length => "content-length".toList

/-- The value of the special rule; a content length is any digits. -/
def Keyword.value : Keyword → List Char
  | .transfer_encoding_chunked => "chunked".toList
  | .conn_close => "close".toList
  | .content_length => []

/-- What is missing of a name or of a value. -/
abbrev Part := Keyword × List Char

/-- A byte of a part, in upper or lower case. -/
def Part.advance (p : Part) (c : UInt8) : Option Part :=
  match p.2 with
  | [] => none
  | x :: left => if tolower c == byte x then some (p.1, left) else none

/-- The names that are still possible. -/
def advance (names : List Part) (c : UInt8) : List Part :=
  names.filterMap fun p => p.advance c

/-- The names at the start of a header line. -/
def allNames : List Part :=
  [.transfer_encoding_chunked, .conn_close, .content_length].map fun k => (k, k.name)

/-- The name that has been read. -/
def finished (names : List Part) : Option Keyword :=
  (names.find? fun p => p.2 == []).map Prod.fst

/-- A byte of the value of a special rule. -/
def valueNext (p : Part) (c : UInt8) : Option Part :=
  match p.1 with
  | .content_length => if digit c then some p else none
  | _ => p.advance c

/-- Its first byte. -/
def valueStart (k : Keyword) (c : UInt8) : Option Part := valueNext (k, k.value) c

/-! ## The machine -/

/-- The embedded actions; `start_value` marks like `mark`. -/
inductive Act where
  | mark
  | start_field
  | write_field
  | write_content_len
  | write_connection_close
  | write_value
  | reason_phrase
  | status_code
  | http_version
  | chunk_size
  | trans_chunked
  | done
  deriving DecidableEq, Repr

/-- The states. -/
inductive Cs where
  | error
  | start
  | chunk_size
  /-- Behind a semicolon. -/
  | chunk_extension
  | chunk_ext_name
  /-- Behind an equals sign. -/
  | chunk_ext_equals
  | chunk_ext_val
  /-- A carriage return that only a line feed can follow, which ends the head. -/
  | lastLine
  /-- What is missing of `HTTP/`. -/
  | versionText (left : List Char)
  /-- The two numbers of the version; whether a digit has been read. -/
  | major (read : Bool)
  | minor (read : Bool)
  | status_code (read : Bool)
  | reason_phrase (read : Bool)
  /-- At the start of a header line; whether the line before was `conn_close`. -/
  | header (closing : Bool)
  /-- The same, or still before the value of a special rule. -/
  | wrapped (k : Keyword)
  | wrappedCR (k : Keyword)
  /-- A name, or at the same time the value of a special rule from the line
      before. -/
  | field_name (names : List Part) (value : Option Part)
  | colon (k : Option Keyword)
  | colonCR (k : Keyword)
  /-- A value, which may be that of a special rule. -/
  | field_value (value : Option Part)
  /-- Before the value of a special rule, and inside it, in a later line. -/
  | spaces (k : Keyword)
  | specialValue (value : Part)
  | lineEnd
  | chunkedEnd
  | closeEnd
  | done
  | doneWrapped (k : Keyword)
  deriving DecidableEq, Repr

/-- `cs == httpclient_parser_error`. -/
def Cs.dead : Cs → Bool
  | .error => true
  | _ => false

/-- The action `done` leaves the machine. -/
def Cs.final : Cs → Bool
  | .done => true
  | .doneWrapped _ => true
  | _ => false

/-- No transition. -/
def fail : Cs × List Act := (.error, [])

/-- The line feed that ends the head, or its carriage return. -/
def lastBreak (c : UInt8) (as : List Act) (other : Cs × List Act) : Cs × List Act :=
  if c == LF then (.done, as ++ [.done])
  else if c == CR then (.lastLine, as)
  else other

/-- The end of a line, with the actions that stand there. -/
def lineBreak (c : UInt8) (as : List Act) (other : Cs × List Act) : Cs × List Act :=
  if c == LF then (.header false, as)
  else if c == CR then (.lineEnd, as)
  else other

/-- The end of a chunk extension or of the size before it. -/
def extensionNext (c : UInt8) (as : List Act) : Cs × List Act :=
  lastBreak c as (if c == byte ';' then (.chunk_extension, as) else fail)

/-- The start of a header line behind the actions `as`. -/
def headerNext (as : List Act) (c : UInt8) : Cs × List Act :=
  lastBreak c as
    (if token c then (.field_name (advance allNames c) none, as ++ [.start_field])
    else fail)

/-- `conn_close` does not mark its value. -/
def Keyword.start_value : Keyword → List Act
  | .conn_close => []
  | _ => [.mark]

/-- The line break behind the value of a special rule. -/
def specialEnd (k : Keyword) (c : UInt8) : Cs × List Act :=
  match k with
  | .conn_close =>
    if c == LF then (.header true, []) else if c == CR then (.closeEnd, []) else fail
  | .transfer_encoding_chunked =>
    if c == LF then (.header false, [.write_value, .trans_chunked])
    else if c == CR then (.chunkedEnd, [.write_value])
    else fail
  | .content_length => lineBreak c [.write_content_len, .write_value] fail

/-- The same where the general rule ends too. -/
def valueEnd (value : Option Part) (c : UInt8) : Cs × List Act :=
  match value with
  | some (.conn_close, []) =>
    if c == LF then (.header true, [.write_value]) else (.closeEnd, [.write_value])
  | some (k, []) => specialEnd k c
  | _ => lineBreak c [.write_value] fail

/-- Before the value of a special rule in a later line. -/
def spacesNext (k : Keyword) (c : UInt8) : Cs × List Act :=
  if space c then (.spaces k, [])
  else
    match valueStart k c with
    | some p => (.specialValue p, k.start_value)
    | none => fail

/-- **The transitions**: `%% write exec` with its actions. -/
def next : Cs → UInt8 → Cs × List Act
  | .error, _ => fail
  | .start, c =>
    if c == byte 'H' then (.versionText ['T', 'T', 'P', '/'], [.mark])
    else if xdigit c then (.chunk_size, [.mark])
    else fail
  | .chunk_size, c =>
    if xdigit c then (.chunk_size, []) else extensionNext c [.chunk_size]
  | .chunk_extension, c => if token c then (.chunk_ext_name, [.start_field]) else fail
  | .chunk_ext_name, c =>
    if token c then (.chunk_ext_name, [])
    else if c == byte '=' then (.chunk_ext_equals, [.write_field, .mark])
    else extensionNext c [.write_field, .mark, .write_value]
  | .chunk_ext_equals, c => if token c then (.chunk_ext_val, [.mark]) else fail
  | .chunk_ext_val, c =>
    if token c then (.chunk_ext_val, []) else extensionNext c [.write_value]
  | .lastLine, c => if c == LF then (.done, [.done]) else fail
  | .versionText [], _ => fail
  | .versionText [x], c => if c == byte x then (.major false, []) else fail
  | .versionText (x :: y :: left), c =>
    if c == byte x then (.versionText (y :: left), []) else fail
  | .major read, c =>
    if digit c then (.major true, [])
    else if read && c == byte '.' then (.minor false, [])
    else fail
  | .minor read, c =>
    if digit c then (.minor true, [])
    else if read && c == SP then (.status_code false, [.http_version])
    else fail
  | .status_code read, c =>
    if digit c then (.status_code true, if read then [] else [.mark])
    else if read && c == SP then (.reason_phrase false, [.status_code])
    else fail
  -- a first carriage return belongs to the phrase
  | .reason_phrase false, c =>
    if c == LF then fail else (.reason_phrase true, [.mark])
  | .reason_phrase true, c =>
    lineBreak c [.reason_phrase] (.reason_phrase true, [])
  | .header closing, c =>
    headerNext (if closing then [.write_connection_close] else []) c
  | .wrapped k, c =>
    if c == LF then (.doneWrapped k, [.done])
    else if c == CR then (.wrappedCR k, [])
    else if space c then (.spaces k, [])
    else if token c then
      (.field_name (advance allNames c) (valueStart k c),
        (if (valueStart k c).isSome then k.start_value else []) ++ [.start_field])
    else fail
  | .wrappedCR k, c => if c == LF then (.doneWrapped k, [.done]) else spacesNext k c
  | .field_name names value, c =>
    if token c then
      (.field_name (advance names c) (value.bind fun p => valueNext p c), [])
    else if c == byte ':' then (.colon (finished names), [.write_field])
    else
      match value with
      | some (k, []) => specialEnd k c
      | _ => fail
  -- every blank marks the value again, so it starts behind them
  | .colon k, c =>
    if c == LF then
      ((match k with | none => .header false | some k => .wrapped k),
        [.mark, .write_value])
    else if c == CR then
      ((match k with | none => .lineEnd | some k => .colonCR k), [.mark, .write_value])
    else if space c then (.colon k, [.mark])
    else (.field_value (k.bind fun k => valueStart k c), [.mark])
  | .colonCR k, c => if c == LF then (.wrapped k, []) else spacesNext k c
  | .field_value value, c =>
    if c == LF || c == CR then valueEnd value c
    else (.field_value (value.bind fun p => valueNext p c), [])
  | .spaces k, c => spacesNext k c
  | .specialValue p, c =>
    match valueNext p c with
    | some p => (.specialValue p, [])
    | none => if p.2 == [] then specialEnd p.1 c else fail
  | .lineEnd, c => if c == LF then (.header false, []) else fail
  | .chunkedEnd, c => if c == LF then (.header false, [.trans_chunked]) else fail
  | .closeEnd, c => if c == LF then (.header true, []) else fail
  -- a final state is left only when the machine is called again in it
  | .done, _ => fail
  | .doneWrapped k, c => spacesNext k c

end SylarHttpClient
