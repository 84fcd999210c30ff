import Sylar.HttpClientParserProofs

/-! # The scanner for URIs (`uri.rl`)

The machine generated from the grammar, with its embedded actions, and `Uri` around it.

The state names follow the grammar's rules.  What has been read of a host is a `Word`:
it may still be a `reg_name`, or only an `IPv4address`, which has the byte 2 where the
grammar has the number `2` in `dec_octet`.

All components are cut out of the text between one `mark` and the current position, and
the actions that save them reset the mark, which other actions then use.  The generator
embeds an action into a transition once, even where two rules ask for it. -/

namespace SylarUri

open SylarHttp (byte oneOf digit alpha xdigit oneByte opt h16 group void bytes printed)
open ListWindow Scanner

/-! ## Character classes -/

/-- A character of a scheme. -/
def schemeChar (c : UInt8) : Bool := alpha c || digit c || oneOf ['+', '-', '.'] c

/-- A character of a `reg_name`, that is `unreserved` or `sub_delims`. -/
def regChar (c : UInt8) : Bool := SylarHttp.reg_name false c

/-- A character of user information, colons included. -/
def userinfoChar (c : UInt8) : Bool := regChar c || c == byte ':'

/-- A `pchar` that is not percent-encoded; it may be any byte above 127. -/
def pchar (c : UInt8) : Bool := SylarHttp.pchar false c

/-- A character of `segment_nz_nc`. -/
def segmentChar (c : UInt8) : Bool := pchar c && c != byte ':'

/-- A character of a path. -/
def pathChar (c : UInt8) : Bool := pchar c || c == byte '/'

/-- A character of a query or a fragment. -/
def queryChar (c : UInt8) : Bool := pathChar c || c == byte '?'

/-! ## Hosts -/

section Host

open RegularExpression

/-- The number `2` stands for the byte of that value. -/
def dec_octet : RegularExpression UInt8 :=
  oneByte digit
    + oneByte (fun c => digit c && c != byte '0') * oneByte digit
    + SylarHttp.text ['1'] * oneByte digit ^ 2
    + char 2 * oneByte (SylarHttp.inRange '0' '4') * oneByte digit
    + SylarHttp.text ['2', '5'] * oneByte (SylarHttp.inRange '0' '5')

/-- `IPv4address`. -/
def IPv4address : RegularExpression UInt8 :=
  dec_octet * SylarHttp.text ['.'] * dec_octet * SylarHttp.text ['.'] * dec_octet
    * SylarHttp.text ['.'] * dec_octet

/-- The last 32 bits of an IPv6 address. -/
def ls32 : RegularExpression UInt8 := h16 * SylarHttp.text [':'] * h16 + IPv4address

/-- `IPv6address`, with its nine forms. -/
def IPv6address : RegularExpression UInt8 :=
  group ^ 6 * ls32
    + SylarHttp.text [':', ':'] * group ^ 5 * ls32
    + opt h16 * SylarHttp.text [':', ':'] * group ^ 4 * ls32
    + opt (group * h16) * SylarHttp.text [':', ':'] * group ^ 3 * ls32
    + opt (group ^ 2 * h16) * SylarHttp.text [':', ':'] * group ^ 2 * ls32
    + opt (group ^ 3 * h16) * SylarHttp.text [':', ':'] * group * ls32
    + opt (group ^ 4 * h16) * SylarHttp.text [':', ':'] * ls32
    + opt (group ^ 5 * h16) * SylarHttp.text [':', ':'] * h16
    + opt (group ^ 6 * h16) * SylarHttp.text [':', ':']

def IPvFuture : RegularExpression UInt8 := SylarHttp.IPvFuture false

/-- What stands between the brackets of an `IP_literal`. -/
def literal : RegularExpression UInt8 := IPv6address + IPvFuture

/-- What has been read of a host without brackets: text that may be a `reg_name`, with the rest of
an `IPv4address` if it may be one too, or the latter alone. -/
inductive Word where
  | text (rest : RegularExpression UInt8)
  | octets (rest : RegularExpression UInt8)

/-- Nothing has been read. -/
def Word.start : Word := .text IPv4address

/-- The expression behind a byte; all those without words count as one state. -/
def residual (r : RegularExpression UInt8) (c : UInt8) : RegularExpression UInt8 :=
  if void (r.deriv c) then 0 else r.deriv c

/-- The word with one more byte. -/
def Word.step : Word → UInt8 → Option Word
  | .text rest, c =>
    if regChar c then some (.text (residual rest c))
    else if void (rest.deriv c) then none
    else some (.octets (rest.deriv c))
  | .octets rest, c => if void (rest.deriv c) then none else some (.octets (rest.deriv c))

/-- It may still be a `reg_name`. -/
def Word.isText : Word → Bool
  | .text _ => true
  | .octets _ => false

/-- The host may end here. -/
def Word.complete : Word → Bool
  | .text _ => true
  | .octets rest => rest.matchEpsilon

end Host

/-! ## The machine -/

/-- The embedded actions. -/
inductive Act where
  | marku
  | markh
  | save_scheme
  | save_port
  | save_userinfo
  | save_host
  | save_path
  | save_query
  | save_fragment
  deriving DecidableEq, Repr

/-- The part of the grammar an authority stands in: `relative_part` or `hier_part`, which
alone saves the path. -/
inductive Part where
  | relative
  | hier
  deriving DecidableEq, Repr

/-- The states. -/
inductive Cs where
  | error
  | start
  /-- A first segment that may be a scheme. -/
  | scheme
  /-- Behind the colon of the scheme. -/
  | hier_part
  /-- A first segment that is not a scheme. -/
  | segment_nz_nc
  /-- A path that is not saved. -/
  | path
  /-- Behind a first slash. -/
  | slash (x : Part)
  /-- In front of a host; in front of user information too, if `b`. -/
  | host (x : Part) (b : Bool)
  /-- A host, or user information if `b`. -/
  | word (x : Part) (b : Bool) (w : Word)
  | IP_literal (x : Part) (rest : RegularExpression UInt8)
  | closed (x : Part)
  /-- Behind a colon: a port, or more user information if `b`. -/
  | portStart (x : Part) (b : Bool)
  | port (x : Part) (b : Bool)
  | password (x : Part)
  | path_abempty
  /-- Two digits of a percent-encoded byte are missing, or one. -/
  | pct_encoded (back : Cs)
  | pct_digit (back : Cs)
  | questionMark
  | query
  | numberSign
  | fragment

/-- `cs == uri_parser_error`. -/
def Cs.dead : Cs → Bool
  | .error => true
  | _ => false

/-- `cs >= uri_parser_first_final`. -/
def Cs.final : Cs → Bool
  | .error | .password _ | .IP_literal _ _ | .pct_encoded _ | .pct_digit _ => false
  | .word _ _ w => w.complete
  | _ => true

/-- No transition. -/
def fail : Cs × List Act := (.error, [])

/-- The transition with `markh` in front of its actions. -/
def markedh (t : Cs × List Act) : Cs × List Act := (t.1, (.markh :: t.2).eraseDups)

/-- With the action `marku` in front. -/
def markedu (t : Cs × List Act) : Cs × List Act := (t.1, (.marku :: t.2).eraseDups)

/-- The byte behind a path that is not saved. -/
def pathEnd (c : UInt8) : Cs × List Act :=
  if c == byte '?' then (.questionMark, [])
  else if c == byte '#' then (.numberSign, [])
  else fail

/-- Inside a path. -/
def pathNext (c : UInt8) : Cs × List Act :=
  if pathChar c then (.path, [])
  else if c == byte '%' then (.pct_encoded .path, [])
  else pathEnd c

/-- Inside a first segment without a colon. -/
def segmentNext (c : UInt8) : Cs × List Act :=
  if segmentChar c then (.segment_nz_nc, [])
  else if c == byte '%' then (.pct_encoded .segment_nz_nc, [])
  else if c == byte '/' then (.path, [])
  else pathEnd c

/-- The actions at the start of the path behind an authority. -/
def enterPath : Part → List Act → List Act
  | .relative, as => as
  | .hier, as => (as ++ [Act.markh]).eraseDups

/-- The actions when this path is empty. -/
def leavePath : Part → List Act → List Act
  | .relative, as => as
  | .hier, as => (as ++ [Act.markh, Act.save_path]).eraseDups

/-- The byte behind an authority, which ends with the actions `as`. -/
def authorityEnd (x : Part) (as : List Act) (c : UInt8) : Cs × List Act :=
  if c == byte '/' then
    (match x with | .relative => .path | .hier => .path_abempty, enterPath x as)
  else if c == byte '?' then (.questionMark, leavePath x as)
  else if c == byte '#' then (.numberSign, leavePath x as)
  else fail

/-- A byte of user information, or the one behind it. -/
def infoByte (c : UInt8) : Bool := userinfoChar c || oneOf ['%', '@'] c

/-- A byte where a password stands. -/
def passwordNext (x : Part) (c : UInt8) : Cs × List Act :=
  if userinfoChar c then (.password x, [])
  else if c == byte '%' then (.pct_encoded (.password x), [])
  else if c == byte '@' then (.host x false, [.save_userinfo])
  else fail

/-- A byte where a host stands, or user information if `b`, of which `w` has been read. -/
def wordNext (x : Part) (b : Bool) (w : Word) (c : UInt8) : Cs × List Act :=
  if c == byte ':' then
    if w.complete then (.portStart x (b && w.isText), [.save_host]) else fail
  else if c == byte '@' then
    if b && w.isText then (.host x false, [.save_userinfo]) else fail
  else if c == byte '%' then
    if w.isText then (.pct_encoded (.word x b (.text 0)), []) else fail
  else if oneOf ['/', '?', '#'] c then
    if w.complete then authorityEnd x [.save_host] c else fail
  else
    match w.step c with
    | some w => (.word x b w, [])
    | none => fail

/-- A byte inside an IP literal of which `rest` is still to come. -/
def literalNext (x : Part) (rest : RegularExpression UInt8) (c : UInt8) : Cs × List Act :=
  if c == byte ']' then if rest.matchEpsilon then (.closed x, []) else fail
  else if void (rest.deriv c) then fail
  else (.IP_literal x (rest.deriv c), [])

/-- Inside a query. -/
def queryNext (c : UInt8) : Cs × List Act :=
  if queryChar c then (.query, [])
  else if c == byte '%' then (.pct_encoded .query, [])
  else if c == byte '#' then (.numberSign, [.save_query])
  else fail

/-- Inside a fragment. -/
def fragmentNext (c : UInt8) : Cs × List Act :=
  if queryChar c then (.fragment, [])
  else if c == byte '%' then (.pct_encoded .fragment, [])
  else fail

/-- **The transitions**: `%% write exec` with its actions. -/
def next : Cs → UInt8 → Cs × List Act
  | .error, _ => fail
  | .start, c =>
    if alpha c then (.scheme, [.marku])
    else if c == byte '/' then (.slash .relative, [])
    else segmentNext c
  | .scheme, c =>
    if schemeChar c then (.scheme, [])
    else if c == byte ':' then (.hier_part, [.save_scheme])
    else segmentNext c
  | .hier_part, c => if c == byte '/' then (.slash .hier, []) else pathNext c
  | .segment_nz_nc, c => segmentNext c
  | .path, c => pathNext c
  | .slash x, c => if c == byte '/' then (.host x true, []) else pathNext c
  | .host x b, c =>
    if c == byte '[' then (.IP_literal x literal, [.markh])
    else markedh (wordNext x b .start c)
  | .word x b w, c => wordNext x b w c
  | .IP_literal x rest, c => literalNext x rest c
  | .closed x, c =>
    if c == byte ':' then (.portStart x false, [.save_host])
    else authorityEnd x [.save_host] c
  -- a digit moves the mark, although this may turn out to be no port
  | .portStart x b, c =>
    if digit c then (.port x b, [.markh])
    else if b && infoByte c then passwordNext x c
    else authorityEnd x [.markh, .save_port] c
  | .port x b, c =>
    if digit c then (.port x b, [])
    else if b && infoByte c then passwordNext x c
    else authorityEnd x [.save_port] c
  | .password x, c => passwordNext x c
  | .path_abempty, c =>
    if pathChar c then (.path_abempty, [])
    else if c == byte '%' then (.pct_encoded .path_abempty, [])
    else if c == byte '?' then (.questionMark, [.save_path])
    else if c == byte '#' then (.numberSign, [.save_path])
    else fail
  | .pct_encoded back, c => if xdigit c then (.pct_digit back, []) else fail
  | .pct_digit back, c => if xdigit c then (back, []) else fail
  | .questionMark, c => markedu (queryNext c)
  | .query, c => queryNext c
  | .numberSign, c => markedu (fragmentNext c)
  | .fragment, c => fragmentNext c

/-- The actions at the end of the text. -/
def eofActs : Cs → List Act
  | .host x _ => leavePath x [.markh, .save_host]
  | .word x _ w => if w.complete then leavePath x [.save_host] else []
  | .portStart x _ => leavePath x [.markh, .save_port]
  | .port x _ => leavePath x [.save_port]
  | .closed x => leavePath x [.save_host]
  | .path_abempty => [.save_path]
  | .questionMark => [.marku, .save_query]
  | .query => [.save_query]
  | .numberSign => [.marku, .save_fragment]
  | .fragment => [.save_fragment]
  | _ => []

/-! ## `Uri` -/

/-- `Uri`, with its default values. -/
structure Uri where
  m_scheme : List UInt8 := []
  m_userinfo : List UInt8 := []
  m_host : List UInt8 := []
  m_port : Int := 0
  m_path : List UInt8 := []
  m_query : List UInt8 := []
  m_fragment : List UInt8 := []
  deriving DecidableEq, Repr

/-- A string or a number is taken from the null pointer, or a string gets a negative length. -/
inductive UriFault where
  | null_mark
  | length_error
  deriving DecidableEq, Repr

/-- The URI and the mark of the scanner; `none` is the null pointer. -/
structure Registers extends Uri where
  mark : Option Nat := none
  deriving DecidableEq, Repr

/-- `std::string(mark, fpc - mark)`. -/
def marked (buffer : List UInt8) (fpc : Nat) : Option Nat → Except UriFault (List UInt8)
  | none => .error .null_mark
  | some mark =>
    if mark ≤ fpc then .ok (window buffer mark (fpc - mark)) else .error .length_error

/-- `atoi`: a `long` stored in an `int`. -/
def atoi (s : List UInt8) : Int := SylarHttpClient.toInt32 (SylarHttpClient.strtol10 s)

/-- The setter an action calls with a string. -/
def Act.store : Act → List UInt8 → Uri → Uri
  | .save_scheme, v, u => { u with m_scheme := v }
  | .save_userinfo, v, u => { u with m_userinfo := v }
  | .save_host, v, u => { u with m_host := v }
  | .save_path, v, u => { u with m_path := v }
  | .save_query, v, u => { u with m_query := v }
  | .save_fragment, v, u => { u with m_fragment := v }
  | .marku, _, u | .markh, _, u | .save_port, _, u => u

/-- A string is taken from the mark; `keep` is the mark behind the action. -/
def take (buffer : List UInt8) (fpc : Nat) (a : Act) (keep : Option Nat) (r : Registers) :
    Except UriFault Registers := do
  let v ← marked buffer fpc r.mark
  .ok ⟨a.store v r.toUri, keep⟩

/-- The embedded actions at `fpc`. -/
def perform (buffer : List UInt8) (fpc : Nat) :
    Act → Registers → Except UriFault Registers
  | .marku, r | .markh, r => .ok { r with mark := some fpc }
  | .save_port, r =>
    match r.mark with
    | none => .error .null_mark
    | some mark =>
        .ok { r with
          m_port := if fpc ≠ mark then atoi (buffer.drop mark) else r.m_port
          mark := none }
  | .save_userinfo, r => if r.mark = none then .ok r else take buffer fpc .save_userinfo none r
  -- the mark stays
  | .save_host, r => if r.mark = none then .ok r else take buffer fpc .save_host r.mark r
  | a, r => take buffer fpc a none r

/-- The generated machine with its actions; a final state does not stop it. -/
def machine : Machine Cs UInt8 Act Registers UriFault where
  next := next
  dead := Cs.dead
  final := fun _ => false
  perform := perform

/-- What is returned when the scan has ended at `p`. -/
def finish (buffer : List UInt8) (p : Nat) (cs : Cs) (r : Registers) :
    Except UriFault (Option Uri) :=
  if cs.dead then .ok none
  else do
    let r ← machine.performAll buffer p (eofActs cs) r
    .ok (if cs.final then some r.toUri else none)

/-- **`Uri::Create`**; `none` is the null pointer. -/
def Create (uristr : List UInt8) : Except UriFault (Option Uri) := do
  let (p, cs, r) ← machine.scan uristr uristr 0 .start {}
  finish uristr p cs r

/-- `Uri::isDefaultPort`. -/
def Uri.isDefaultPort (u : Uri) : Bool :=
  if u.m_port == 0 then true
  else if u.m_scheme == bytes "http" || u.m_scheme == bytes "ws" then u.m_port == 80
  else if u.m_scheme == bytes "https" || u.m_scheme == bytes "wss" then u.m_port == 443
  else false

/-- `Uri::getPath`. -/
def Uri.getPath (u : Uri) : List UInt8 := if u.m_path = [] then bytes "/" else u.m_path

/-- `Uri::getPort`. -/
def Uri.getPort (u : Uri) : Int :=
  if u.m_port ≠ 0 then u.m_port
  else if u.m_scheme == bytes "http" || u.m_scheme == bytes "ws" then 80
  else if u.m_scheme == bytes "https" || u.m_scheme == bytes "wss" then 443
  else u.m_port

/-- `std::to_string` of an `int`. -/
def to_string (n : Int) : List UInt8 :=
  if n < 0 then byte '-' :: printed n.natAbs else printed n.natAbs

/-- **`Uri::toString`**, that is `dump`. -/
def Uri.toString (u : Uri) : List UInt8 :=
  u.m_scheme ++ bytes "://"
    ++ u.m_userinfo ++ (if u.m_userinfo = [] then [] else bytes "@")
    ++ u.m_host
    ++ (if u.isDefaultPort then [] else bytes ":" ++ to_string u.m_port)
    ++ u.getPath
    ++ (if u.m_query = [] then [] else bytes "?") ++ u.m_query
    ++ (if u.m_fragment = [] then [] else bytes "#") ++ u.m_fragment

end SylarUri
