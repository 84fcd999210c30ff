import Sylar.HttpClientParserProofs

/-! # Whether both sides agree where a body ends (`http.cc`, `http_parser.cc`)

`dump` prints the length of a body that is not empty, behind the header
fields of the application; the receiver keeps the last of several fields of
one name.  An empty body has no length of its own, and a length that the
application set is printed like any other field, while its `connection` is
left out.

* **`length_agrees`** — among the printed fields the length is that of the body, if the body
  is not empty or the application declared no other one.
* **`framing_agreement`** — a printed message is read as one message exactly if the scanner
  takes its head and finds that length. -/

namespace HttpFraming

open ListWindow SylarHttp Scanner List
open SylarHttpClient (HttpResponseParser)

/-! ## Header maps -/

/-- `m_headers.erase(key)`. -/
def erase (key : List UInt8) (m : MapType) : MapType :=
  m.filter fun e => caseInsensitiveLess key e.1 || caseInsensitiveLess e.1 key

/-- The maps the public setters build. -/
inductive Built : MapType → Prop where
  | empty : Built []
  | setHeader {m : MapType} (key val : List UInt8) : Built m → Built (m.set key val)
  | delHeader {m : MapType} (key : List UInt8) : Built m → Built (erase key m)

variable {m es : MapType} {isBlank : UInt8 → Bool} {body : List UInt8}

theorem Built.sorted (h : Built m) : FoldedMap.Sorted folded m := by
  induction h with
  | empty => exact List.Pairwise.nil
  | setHeader key val _ ih =>
    rw [MapType.set_eq]
    exact FoldedMap.sorted_set ih key val
  | delHeader key _ ih => exact ih.sublist filter_sublist

/-! ## The length -/

/-- What `getHeaderAs` makes of a field that was found or not. -/
def lengthOf [LexicalCast] (found : Option (List UInt8)) : UInt64 :=
  match found with
  | none => 0
  | some v => (LexicalCast.lexical_cast v).getD 0

/-- The length in the header map of a receiver. -/
def foundLength [LexicalCast] (m : MapType) : UInt64 := lengthOf (m.lookup (bytes "content-length"))

/-- The length that a receiver which leaves out `isBlank` finds among the header
fields of the application. -/
def declaredLength [LexicalCast] (isBlank : UInt8 → Bool) (m : MapType) : UInt64 :=
  lengthOf ((m.lookup (bytes "content-length")).map fun v => v.dropWhile isBlank)

/-- The map of a receiver behind the fields `es`. -/
def received (isBlank : UInt8 → Bool) (es : MapType) : MapType :=
  FoldedMap.setAll folded (es.trimmed isBlank) []

/-- The fields for the length of the body. -/
def lengthFields (m : MapType) : MapType :=
  m.filter fun e => folded e.1 = folded (bytes "content-length")

private theorem blank_digit : ∀ c : UInt8, digit c = true →
    blank c = false ∧ SylarHttpClient.space c = false :=
  forall_byte (by decide +kernel)

/-- Without a body the receiver finds what the application declared. -/
theorem lookup_empty (hm : FoldedMap.Sorted folded m) (hes : lengthFields es = lengthFields m) :
    (received isBlank es).lookup (bytes "content-length")
      = (m.lookup (bytes "content-length")).map fun v => v.dropWhile isBlank := by
  have htrim : ∀ xs : MapType, lengthFields (xs.trimmed isBlank)
      = (lengthFields xs).trimmed isBlank := fun xs => filter_map
  rw [MapType.lookup_eq, MapType.lookup_eq, ← FoldedMap.lookup_map_values]
  refine FoldedMap.lookup_setAll_sorted (hm.map_values _) ?_
  show lengthFields (es.trimmed isBlank) = lengthFields (m.trimmed isBlank)
  rw [htrim, htrim, hes]

/-- **The length the receiver finds** among the fields printed for the map `m` and for the body. -/
theorem length_agrees [LexicalCast] {fields : MapType}
    (hdigit : ∀ c, digit c = true → isBlank c = false) (hm : Built m)
    (hfields : lengthFields fields = lengthFields m) (hsize : body.length < 2 ^ 64) :
    (foundLength (received isBlank (fields ++ contentLengthField body))).toNat = body.length
      ↔ body ≠ [] ∨ declaredLength isBlank m = 0 := by
  by_cases hbody : body = []
  · subst hbody
    have hfound : foundLength (received isBlank (fields ++ contentLengthField []))
        = declaredLength isBlank m := by
      show foundLength (received isBlank (fields ++ [])) = _
      rw [append_nil, foundLength, lookup_empty hm.sorted hfields]
      rfl
    rw [hfound]
    simp [← UInt64.toNat_inj]
  · -- the field for the length of the body is the last one of its name
    have hvalue : (printed body.length).dropWhile isBlank = printed body.length := by
      cases hprinted : printed body.length with
      | nil => rfl
      | cons c ds =>
        have hc := printed_digits body.length c (by rw [hprinted]; exact mem_cons_self)
        rw [dropWhile_cons_of_neg (by rw [hdigit c hc]; exact Bool.false_ne_true)]
    have hfound : (received isBlank (fields ++ contentLengthField body)).lookup
        (bytes "content-length") = some (printed body.length) := by
      rw [received, MapType.trimmed_append, FoldedMap.setAll_append, contentLengthField,
        if_neg hbody, MapType.lookup_eq]
      show FoldedMap.lookup folded _ (FoldedMap.set folded _
        ((printed body.length).dropWhile isBlank) _) = _
      rw [FoldedMap.lookup_set_self rfl, hvalue]
    rw [foundLength, hfound, lengthOf, lexical_cast_printed hsize, Option.getD_some,
      UInt64.toNat_ofNat_of_lt' hsize]
    simp [hbody]

/-! ## One message -/

/-- A parser reads a printed message as one: no error, the length of the body, and the body is all
that is left. -/
def Framed {ε π : Type} (call : Except ε (Nat × List UInt8 × π)) (isFinished hasError : π → Bool)
    (getContentLength : π → UInt64) (dump body : List UInt8) : Prop :=
  ∃ n data s, call = .ok (n, data, s) ∧ isFinished s = true ∧ hasError s = false
    ∧ (getContentLength s).toNat = body.length ∧ n + body.length = dump.length
    ∧ data.take body.length = body

/-- A call that has taken `p` bytes, when what it leaves moves to the front. -/
theorem framed_of_call {ε π : Type} {call : Except ε (Nat × List UInt8 × π)} {s : π}
    {isFinished hasError : π → Bool} {getContentLength : π → UInt64} {dump g : List UInt8} {p : Nat}
    (hbody : body <:+ dump)
    (hcall : call = .ok (p, overwrite (dump ++ g) 0 (window (dump ++ g) p (dump.length - p)), s)) :
    Framed call isFinished hasError getContentLength dump body ↔ p = dump.length - body.length
      ∧ isFinished s = true ∧ hasError s = false
      ∧ (getContentLength s).toNat = body.length := by
  obtain ⟨head, rfl⟩ := hbody
  rw [length_append, Nat.add_sub_cancel]
  constructor
  · rintro ⟨n, data, s', hcall', hfinished, herror, hlength, hn, -⟩
    rw [hcall] at hcall'
    cases hcall'
    rw [length_append] at hn
    exact ⟨by omega, hfinished, herror, hlength⟩
  · rintro ⟨rfl, hfinished, herror, hlength⟩
    have hmoved := take_moved g
      (show head.length ≤ (head ++ body).length by rw [length_append]; omega)
    rw [drop_left, length_append, Nat.add_sub_cancel_left] at hmoved
    rw [length_append, Nat.add_sub_cancel_left] at hcall
    exact ⟨_, _, _, hcall, hfinished, herror, hlength, length_append.symm, hmoved⟩

/-! ## Requests -/

/-- The parser of the receiver reads the printed request as one message. -/
def RequestFramed [LexicalCast] (q : HttpRequest) (relaxed : Bool) (query : Nat)
    (rest : List UInt8) : Prop :=
  Framed ((HttpRequestParser.new 0 relaxed query).execute (q.dump ++ rest) q.dump.length)
    HttpRequestParser.isFinished HttpRequestParser.hasError HttpRequestParser.getContentLength
    q.dump q.m_body

/-- The scanner takes the printed head, to its end and without error, and has read the fields
`m`. -/
def RequestTaken (q : HttpRequest) (relaxed : Bool) (query : Nat) (rest : List UInt8)
    (m : MapType) : Prop :=
  ∃ cs r, (machine relaxed).scan (q.dump ++ rest) q.dump 0 .start
      (HttpRequestParser.new 0 relaxed query).reset
      = .ok (q.dump.length - q.m_body.length, cs, r)
    ∧ cs.final = true ∧ r.m_error = 0 ∧ r.m_data.m_headers = m

/-- Fields of other names. -/
theorem lengthFields_other (h : ∀ e ∈ es, folded e.1 ≠ folded (bytes "content-length")) :
    lengthFields es = [] :=
  filter_eq_nil_iff.mpr fun e he => by simpa using h e he

theorem lengthFields_shown (m : MapType) : lengthFields m.shown = lengthFields m := by
  rw [lengthFields, MapType.shown, filter_filter]
  refine filter_congr fun e _ => ?_
  by_cases hlength : folded e.1 = folded (bytes "content-length")
  · have hshown : isConnection e.1 = false := by
      rw [isConnection, hlength]
      decide +kernel
    simp [hlength, hshown]
  · simp [hlength]

private theorem connectionField_other (m_close : Bool) :
    ∀ e ∈ [connectionField m_close], folded e.1 ≠ folded (bytes "content-length") := by
  cases m_close <;> decide +kernel

theorem lengthFields_request (q : HttpRequest) :
    lengthFields (connectionField q.m_close :: q.m_headers.shown) = lengthFields q.m_headers := by
  show lengthFields ([connectionField q.m_close] ++ q.m_headers.shown) = _
  rw [lengthFields, filter_append, ← lengthFields, ← lengthFields,
    lengthFields_other (connectionField_other _), nil_append, lengthFields_shown]

/-- A request is read so if the scanner takes its request line, and no field breaks out of its
line. -/
theorem request_taken {q : HttpRequest} {relaxed : Bool} {query : Nat} {rest : List UInt8}
    {r : Registers} (hline : (machine relaxed).Passes [] q.requestLine
      (q.fields.dump ++ (CRLF ++ q.m_body ++ rest)) .start
      (HttpRequestParser.new 0 relaxed query).reset .header r) (herr : r.m_error = 0)
    (hnone : r.m_data.m_headers = []) (hfields : ∀ e ∈ q.m_headers.shown, LineField valueChar e) :
    RequestTaken q relaxed query rest (received blank q.fields) := by
  obtain ⟨r₂, hscan, hr₂⟩ := lines_scanned rest hline hfields
  refine ⟨_, r₂, hscan, rfl, ?_, ?_⟩
  · rw [hr₂]
    exact herr
  · rw [hr₂, Parsed.withHeaders, hnone]
    rfl

section Requests

variable [LexicalCast] {q : HttpRequest} {relaxed : Bool} {query : Nat} {rest : List UInt8}

/-- A request is framed if the scanner takes its head and finds the length of its body. -/
theorem request_framed_iff : RequestFramed q relaxed query rest
      ↔ ∃ m, RequestTaken q relaxed query rest m ∧ (foundLength m).toNat = q.m_body.length := by
  have hdump := q.dump_eq
  rw [← append_assoc] at hdump
  have hne : q.dump ≠ [] := by
    rw [hdump]
    exact append_ne_nil_of_left_ne_nil (append_ne_nil_of_right_ne_nil _ (cons_ne_nil _ _)) _
  have hexec := execute_piece (s := HttpRequestParser.new 0 relaxed query) rest hne
  change _ = ((machine relaxed).scan _ _ 0 .start _).map _ at hexec
  cases hscan : (machine relaxed).scan (q.dump ++ rest) q.dump 0 .start
      (HttpRequestParser.new 0 relaxed query).reset with
  | error e =>
    rw [hscan] at hexec
    refine iff_of_false ?_ ?_
    · rintro ⟨n, data, s, hcall, -⟩
      rw [hexec] at hcall
      cases hcall
    · rintro ⟨m, ⟨cs, r, hscan', -⟩, -⟩
      rw [hscan] at hscan'
      cases hscan'
  | ok x =>
    obtain ⟨k, cs, r⟩ := x
    rw [hscan] at hexec
    rw [RequestFramed, framed_of_call ⟨_, hdump.symm⟩ hexec]
    constructor
    · rintro ⟨rfl, hfinished, herror, hlength⟩
      have hdone : (cs.dead || cs.final) = true := hfinished
      have herr : (r.m_error != 0 || cs.dead) = false := herror
      rw [Bool.or_eq_false_iff] at herr
      rw [herr.2, Bool.false_or] at hdone
      exact ⟨_, ⟨cs, r, hscan, hdone, bne_eq_false_iff_eq.mp herr.1, rfl⟩, hlength⟩
    · rintro ⟨m, ⟨cs', r', hscan', hcs, herr, rfl⟩, hlength⟩
      cases hscan.symm.trans hscan'
      refine ⟨rfl, ?_, ?_, hlength⟩
      · show (cs.dead || cs.final) = true
        rw [hcs, Bool.or_true]
      · show (r.m_error != 0 || cs.dead) = false
        have hlive : cs.dead = false := by
          cases cs <;> first | rfl | cases hcs
        rw [herr, hlive]
        rfl

/-- A request whose fields are read as they are printed. -/
theorem request_taken_framed (hbuilt : Built q.m_headers)
    (h : RequestTaken q relaxed query rest (received blank q.fields))
    (hsize : q.m_body.length < 2 ^ 64) : RequestFramed q relaxed query rest
      ↔ q.m_body ≠ [] ∨ declaredLength blank q.m_headers = 0 := by
  have hlength := length_agrees (fun c hc => (blank_digit c hc).1) hbuilt
    (lengthFields_request q) hsize
  rw [← hlength, request_framed_iff]
  constructor
  · rintro ⟨m, htaken, hfound⟩
    obtain ⟨cs, r, hscan, -, -, rfl⟩ := htaken
    obtain ⟨cs', r', hscan', -, -, heq⟩ := h
    cases hscan.symm.trans hscan'
    rw [heq] at hfound
    exact hfound
  · exact fun hfound => ⟨_, h, hfound⟩

end Requests

/-! ## Responses -/

/-- The fields that are printed in front of the length. -/
def frontFields (rsp : HttpResponse) : MapType :=
  (if rsp.m_websocket then rsp.m_headers else rsp.m_headers.shown)
    ++ rsp.m_cookies.map (fun c => (bytes "Set-Cookie", c))
    ++ (if rsp.m_websocket then [] else [connectionField rsp.m_close])

theorem response_dump_eq (rsp : HttpResponse) : rsp.dump = rsp.statusLine
      ++ ((frontFields rsp).dump ++ ((contentLengthField rsp.m_body).dump ++ CRLF))
      ++ rsp.m_body := by
  have hcookies : rsp.m_cookies.flatMap (headerLine (bytes "Set-Cookie"))
      = MapType.dump (rsp.m_cookies.map fun c => (bytes "Set-Cookie", c)) := by
    rw [MapType.dump, flatMap_map]
  have hconnection : (if rsp.m_websocket then [] else connectionLine rsp.m_close)
      = MapType.dump (if rsp.m_websocket then [] else [connectionField rsp.m_close]) := by
    split
    · rfl
    · exact (append_nil _).symm
  rw [HttpResponse.dump, hcookies, hconnection, bodyText_eq, frontFields]
  simp only [MapType.dump_append, append_assoc]

/-- The parser of the receiver reads the printed response as one message. -/
def ResponseFramed [LexicalCast] (rsp : HttpResponse) (websocket : Bool) (rest : List UInt8) :
    Prop :=
  Framed ((HttpResponseParser.new 0 websocket).execute (rsp.dump ++ 0 :: rest) rsp.dump.length
    false) HttpResponseParser.isFinished HttpResponseParser.hasError
    HttpResponseParser.getContentLength rsp.dump rsp.m_body

/-- The scanner takes the printed head to its end, without error, and has read the fields `m`.  A
field that wraps takes the empty line as part of its value. -/
def ResponseTaken (rsp : HttpResponse) (websocket : Bool) (rest : List UInt8) (m : MapType) :
    Prop :=
  ∃ r, SylarHttpClient.machine.scan (rsp.dump ++ 0 :: rest) rsp.dump 0 .start
      (HttpResponseParser.new 0 websocket).reset
      = .ok (rsp.dump.length - rsp.m_body.length, .done, r)
    ∧ r.m_error = 0 ∧ r.m_data.m_headers = m

theorem lengthFields_response (rsp : HttpResponse) :
    lengthFields (frontFields rsp) = lengthFields rsp.m_headers := by
  have hcookie : folded (bytes "Set-Cookie") ≠ folded (bytes "content-length") := by
    decide +kernel
  have hcookies : lengthFields (rsp.m_cookies.map fun c => (bytes "Set-Cookie", c)) = [] := by
    refine lengthFields_other fun e he => ?_
    obtain ⟨c, -, rfl⟩ := mem_map.mp he
    exact hcookie
  have hconnection : lengthFields
      (if rsp.m_websocket then [] else [connectionField rsp.m_close]) = [] := by
    split
    · rfl
    · exact lengthFields_other (connectionField_other _)
  have hheaders : lengthFields
      (if rsp.m_websocket then rsp.m_headers else rsp.m_headers.shown)
      = lengthFields rsp.m_headers := by
    split
    · rfl
    · exact lengthFields_shown _
  rw [lengthFields] at hcookies hconnection hheaders ⊢
  rw [frontFields, filter_append, filter_append, hheaders, hcookies, hconnection,
    append_nil, append_nil]

section Responses

variable [LexicalCast] {rsp : HttpResponse} {websocket : Bool} {rest : List UInt8}

/-- A response is framed if the scanner takes its head and finds the length of its body. -/
theorem response_framed_iff : ResponseFramed rsp websocket rest
      ↔ ∃ m, ResponseTaken rsp websocket rest m ∧ (foundLength m).toNat = rsp.m_body.length := by
  have hdump := response_dump_eq rsp
  have hne : rsp.dump ≠ [] := by
    rw [hdump]
    exact append_ne_nil_of_left_ne_nil (append_ne_nil_of_right_ne_nil _
      (append_ne_nil_of_right_ne_nil _ (append_ne_nil_of_right_ne_nil _ (cons_ne_nil _ _)))) _
  cases hscan : SylarHttpClient.machine.scan (rsp.dump ++ 0 :: rest) rsp.dump 0 .start
      (HttpResponseParser.new 0 websocket).reset with
  | error e =>
    have hfails : (HttpResponseParser.new 0 websocket).execute (rsp.dump ++ 0 :: rest)
        rsp.dump.length false = .error (.http e) := by
      rw [HttpResponseParser.execute, if_neg Bool.false_ne_true,
        SylarHttpClient.httpclient_parser_execute, if_neg (by simp), take_left]
      rw [show (HttpResponseParser.new 0 websocket).cs = .start from rfl, hscan]
      rfl
    refine iff_of_false ?_ ?_
    · rintro ⟨n, data, s, hcall, -⟩
      rw [hfails] at hcall
      cases hcall
    · rintro ⟨m, ⟨r, hscan', -⟩, -⟩
      rw [hscan] at hscan'
      cases hscan'
  | ok x =>
    obtain ⟨k, cs, r⟩ := x
    have hexec := SylarHttpClient.execute_scanned (s := HttpResponseParser.new 0 websocket) rest hne
      (Nat.zero_le _) hscan
    rw [ResponseFramed, framed_of_call ⟨_, hdump.symm⟩ hexec]
    constructor
    · rintro ⟨rfl, hfinished, herror, hlength⟩
      have hdone : (cs.dead || cs == .done) = true := hfinished
      have herr : (r.m_error != 0 || cs.dead) = false := herror
      rw [Bool.or_eq_false_iff] at herr
      rw [herr.2, Bool.false_or] at hdone
      obtain rfl := eq_of_beq hdone
      exact ⟨_, ⟨r, hscan, bne_eq_false_iff_eq.mp herr.1, rfl⟩, hlength⟩
    · rintro ⟨m, ⟨r', hscan', herr, rfl⟩, hlength⟩
      cases hscan.symm.trans hscan'
      refine ⟨rfl, rfl, ?_, hlength⟩
      show (r.m_error != 0 || false) = false
      rw [herr]
      rfl

/-- A response whose fields are read as they are printed. -/
theorem response_taken_framed (hbuilt : Built rsp.m_headers)
    (h : ResponseTaken rsp websocket rest (received SylarHttpClient.space
      (frontFields rsp ++ contentLengthField rsp.m_body)))
    (hsize : rsp.m_body.length < 2 ^ 64) : ResponseFramed rsp websocket rest
      ↔ rsp.m_body ≠ [] ∨ declaredLength SylarHttpClient.space rsp.m_headers = 0 := by
  have hlength := length_agrees (fun c hc => (blank_digit c hc).2) hbuilt
    (lengthFields_response rsp) hsize
  rw [← hlength, response_framed_iff]
  constructor
  · rintro ⟨m, htaken, hfound⟩
    obtain ⟨r, hscan, -, rfl⟩ := htaken
    obtain ⟨r', hscan', -, heq⟩ := h
    cases hscan.symm.trans hscan'
    rw [heq] at hfound
    exact hfound
  · exact fun hfound => ⟨_, h, hfound⟩

end Responses

/-- Messages whose application sets a length, with a body and without. -/
def requestWith (path length body : List UInt8) : HttpRequest where
  m_path := path
  m_headers := MapType.set (bytes "Content-Length") length []
  m_body := body

def responseWith (length body : List UInt8) : HttpResponse where
  m_websocket := false
  m_headers := MapType.set (bytes "Content-Length") length []
  m_body := body

end HttpFraming
