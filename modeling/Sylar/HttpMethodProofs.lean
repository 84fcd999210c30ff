import Sylar.HttpRoundTripProofs

/-! # Recognising the method (`http.cc`, `http_parser.cc`, `http11_parser.rl`)

`on_request_method` gets a pointer into the buffer and a length, and ignores the
length: `CharsToHttpMethod` takes the first name of its table that the buffer begins
with at that place.

* **`uri_read`** — the URI is read without a fault and keeps the method.
* **`method_recognition_iff`** — when a method token is taken for what it says, and when the
  printed request line is read back. -/

namespace SylarHttp

open Scanner List

/-! ## The table -/

/-- `tok` is the name of the method. -/
def Names (m : HttpMethod) (tok : List UInt8) : Prop :=
  ∃ e ∈ HTTP_METHOD_MAP, e.1 = m ∧ bytes e.2 = tok

/-- No name of the table is the beginning of another one, or stands for nothing. -/
theorem names_apart : ∀ e ∈ HTTP_METHOD_MAP, e.1 ≠ .INVALID_METHOD ∧
      ∀ f ∈ HTTP_METHOD_MAP, (bytes e.2).isPrefixOf (bytes f.2) = true → e = f := by
  decide +kernel

private theorem prefix_unique {e f : HttpMethod × String} (he : e ∈ HTTP_METHOD_MAP)
    (hf : f ∈ HTTP_METHOD_MAP) (h : bytes e.2 <+: bytes f.2) : e = f :=
  (names_apart e he).2 f hf (List.isPrefixOf_iff_prefix.mpr h)

/-- The callback stores the method whose name the token begins with, or reports an
error. -/
theorem on_request_method_cases (tok : List UInt8) (x : Parsed) :
    (∃ e ∈ HTTP_METHOD_MAP, bytes e.2 <+: tok
        ∧ on_request_method tok x = { x with m_data := { x.m_data with m_method := e.1 } })
      ∨ (∀ e ∈ HTTP_METHOD_MAP, ¬ bytes e.2 <+: tok)
        ∧ on_request_method tok x = { x with m_error := 1000 } := by
  rw [on_request_method, CharsToHttpMethod]
  cases hfind : HTTP_METHOD_MAP.find? fun e => (bytes e.2).isPrefixOf tok with
  | none =>
    refine Or.inr ⟨fun e he hpre => ?_, rfl⟩
    exact find?_eq_none.mp hfind e he (List.isPrefixOf_iff_prefix.mpr hpre)
  | some e =>
    have he := mem_of_find?_eq_some hfind
    have hpre : bytes e.2 <+: tok := isPrefixOf_iff_prefix.mp
        (find?_some (p := fun e : HttpMethod × String => (bytes e.2).isPrefixOf tok) hfind)
    refine Or.inl ⟨e, he, hpre, ?_⟩
    dsimp only
    split
    · next hinvalid => exact absurd hinvalid (names_apart e he).1
    · rfl

/-! ## The URI of the request line -/

/-- Which part of the head a state belongs to: the method, the URI, the blank behind it, or
what comes later. -/
def Cs.phase : Cs → Nat
  | .start | .method _ => 0
  | .uri | .scheme | .hier_part | .segment_nz_nc _ | .path _ | .slash _ | .authority _
  | .userinfo _ | .passwordOrPort _ | .password _ | .host _ | .reg_name _ | .port _
  | .IP_literal _ _ | .closed _ | .questionMark | .query | .numberSign | .fragment
  | .jsonPath => 1
  | .pct_encoded back | .pct_digit back => min 1 back.phase
  | .HTTP_Version => 2
  | .error | .versionText _ | .versionNumber | .versionEnd | .lineEnd | .header | .emptyLine
  | .field_name | .colon | .field_value | .xmlStart | .xmlName | .xmlData | .xmlClose
  | .jsonStart | .jsonData | .jsonClose | .done | .socketDone => 3

theorem Cs.phase_le (cs : Cs) : cs.phase ≤ 3 := by
  cases cs with
  | pct_encoded back | pct_digit back => exact (Nat.min_le_left _ _).trans (by decide)
  | _ => exact Nat.le_of_ble_eq_true rfl

variable {cs : Cs} {p : Nat} {relaxed : Bool}

theorem Cs.eq_of_phase (h : cs.phase = 2) : cs = .HTTP_Version := by
  cases cs with
  | HTTP_Version => rfl
  | pct_encoded back | pct_digit back =>
    exact absurd h (Nat.ne_of_lt (Nat.lt_succ_of_le (Nat.min_le_left _ _)))
  | _ => cases h

/-- The start of the query is known in this state. -/
def Cs.inQuery : Cs → Bool
  | .query => true
  | .pct_encoded back | .pct_digit back => back.inQuery
  | _ => false

/-- The actions inside a URI. -/
def Act.ofUri : Act → Bool
  | .mark | .request_path | .request_uri | .fragment | .start_query | .query_string => true
  | _ => false

/-- A transition from phase `n`, `known` telling whether the start of the query is known: it does
not go back, and in a URI it has the actions of a URI and uses no unknown position. -/
structure Forward (n : Nat) (known : Bool) (t : Cs × List Act) : Prop where
  phase : n ≤ t.1.phase
  acts : n = 1 → ∀ a ∈ t.2, a.ofUri = true
  query : n = 1 → .query_string ∈ t.2 ∨ t.1.inQuery = true → known = true

section Forward

variable {n : Nat} {known : Bool} {t u : Cs × List Act}

theorem Forward.ite {p : Bool} (ht : Forward n known t) (hu : Forward n known u) :
    Forward n known (if p then t else u) := by
  split
  · exact ht
  · exact hu

theorem Forward.marked (h : Forward n known t) : Forward n known (marked t) := by
  refine ⟨h.phase, ?_, ?_⟩
  · rintro hn a (_ | ⟨_, hmem⟩)
    · rfl
    · exact h.acts hn a hmem
  · rintro hn ((_ | ⟨_, hmem⟩) | hin)
    · exact h.query hn (Or.inl hmem)
    · exact h.query hn (Or.inr hin)

/-- A transition without actions that does not enter the query. -/
theorem Forward.stay (q : Cs) (h : n ≤ q.phase) (hq : q.inQuery = false) :
    Forward n known (q, []) := by
  refine ⟨h, fun _ => nofun, ?_⟩
  rintro - (hmem | hin)
  · cases hmem
  · rw [hq] at hin
    cases hin

theorem Forward.fail (h : n ≤ 3) : Forward n known fail := .stay .error h rfl

/-- A transition out of a URI. -/
theorem Forward.later {q : Cs} {as : List Act} (h : n ≤ q.phase) (hn : n ≠ 1) :
    Forward n known (q, as) :=
  ⟨h, fun h => absurd h hn, fun h => absurd h hn⟩

end Forward

theorem queryNext_forward (relaxed : Bool) (c : UInt8) : Forward 1 true (queryNext relaxed c) := by
  refine .ite ?_ (.ite ?_ (.ite ?_ (.ite ?_ (.fail (by decide)))))
  all_goals exact ⟨by decide, by decide, fun _ _ => rfl⟩

theorem pathEnd_forward (known : Bool) (x : Ctx) (c : UInt8) : Forward 1 known (pathEnd x c) := by
  have hquery : ∀ {q : Cs} {as : List Act}, q.inQuery = false → .query_string ∉ as →
      1 = 1 → .query_string ∈ as ∨ q.inQuery = true → known = true := by
    rintro q as hq has - (hmem | hin)
    · exact absurd hmem has
    · rw [hq] at hin
      cases hin
  cases x with
  | line =>
    refine .ite ?_ (.ite ?_ (.ite ?_ (.fail (by decide))))
    all_goals exact ⟨by decide, by decide, hquery rfl (by decide)⟩
  | socket =>
    refine .ite ?_ (.fail (by decide))
    exact ⟨by decide, by decide, hquery rfl (by decide)⟩

/-- One transition goes forward. -/
theorem next_forward (relaxed : Bool) (hcs : cs ≠ .questionMark) (c : UInt8) :
    Forward cs.phase cs.inQuery (next relaxed cs c) := by
  cases cs
  case questionMark => exact absurd rfl hcs
  case query => exact queryNext_forward relaxed c
  case pct_encoded back =>
    refine .ite ⟨Nat.le_refl _, fun _ => nofun, ?_⟩ (.fail (Cs.phase_le _))
    rintro - (hmem | hin)
    · cases hmem
    · exact hin
  case pct_digit back =>
    refine .ite ⟨Nat.min_le_right _ _, fun _ => nofun, ?_⟩ (.fail (Cs.phase_le _))
    rintro - (hmem | hin)
    · cases hmem
    · exact hin
  case versionText left =>
    rcases left with _ | ⟨x, _ | ⟨y, left⟩⟩
    · exact .fail (Nat.le_refl _)
    · exact .ite (.later (Nat.le_refl _) (show 3 ≠ 1 by decide)) (.fail (Nat.le_refl _))
    · exact .ite (.later (Nat.le_refl _) (show 3 ≠ 1 by decide)) (.fail (Nat.le_refl _))
  all_goals
    unfold next
    simp only [pathNext, authorityEnd, userinfoNext, passwordNext, hostNext,
      literalStart, literalNext, fragmentNext, lineBreak, fieldNameNext]
    repeat' first
      | exact pathEnd_forward ..
      | exact .stay _ (Nat.le_refl _) rfl
      | exact .fail (Cs.phase_le _)
      | exact .later (by decide) (by decide)
      | exact .later (Nat.zero_le _) Nat.zero_ne_one
      | exact ⟨by decide, by decide, by decide⟩
      | apply Forward.marked
      | apply Forward.ite

/-- The positions a state relies on lie behind it. -/
structure Located (p : Nat) (cs : Cs) (r : Registers) : Prop where
  mark : r.mark ≤ p
  query_start : cs.inQuery = true → r.query_start ≤ p

/-- The same method and the same error. -/
def SameMethod (r r' : Registers) : Prop :=
  r'.m_data.m_method = r.m_data.m_method ∧ r'.m_error = r.m_error

variable {r : Registers} {tok line : List UInt8}

/-- An action of a URI takes place and touches neither the method nor the error. -/
theorem perform_ofUri (buffer : List UInt8) {a : Act} (ha : a.ofUri = true)
    (hmark : r.mark ≤ p) (hquery : a = .query_string → r.query_start ≤ p) :
    ∃ r', perform buffer p a r = .ok r' ∧ r'.mark ≤ p
      ∧ (r.query_start ≤ p → r'.query_start ≤ p) ∧ SameMethod r r' := by
  cases a with
  | mark => exact ⟨_, rfl, Nat.le_refl _, id, rfl, rfl⟩
  | request_uri => exact ⟨_, rfl, hmark, id, rfl, rfl⟩
  | start_query => exact ⟨_, rfl, hmark, fun _ => Nat.le_refl _, rfl, rfl⟩
  | query_string =>
    rw [perform, LEN, if_pos (hquery rfl)]
    exact ⟨_, rfl, hmark, id, rfl, rfl⟩
  | request_path | fragment =>
    rw [perform, LEN, if_pos hmark]
    exact ⟨_, rfl, hmark, id, rfl, rfl⟩
  | _ => cases ha

theorem performAll_ofUri (relaxed : Bool) (buffer : List UInt8) (as : List Act) {r : Registers}
    (has : ∀ a ∈ as, a.ofUri = true) (hmark : r.mark ≤ p)
    (hquery : .query_string ∈ as → r.query_start ≤ p) :
    ∃ r', (machine relaxed).performAll buffer p as r = .ok r' ∧ r'.mark ≤ p
      ∧ (r.query_start ≤ p → r'.query_start ≤ p) ∧ SameMethod r r' := by
  induction as generalizing r with
  | nil =>
    exact ⟨r, rfl, hmark, id, rfl, rfl⟩
  | cons a as ih =>
    obtain ⟨ha, has⟩ := forall_mem_cons.mp has
    obtain ⟨r₁, hact, hmark₁, hkeep₁, hmethod₁, herror₁⟩ := perform_ofUri buffer
      ha hmark (fun h => hquery (mem_cons.mpr (Or.inl h.symm)))
    obtain ⟨r₂, hacts, hmark₂, hkeep₂, hmethod₂, herror₂⟩ := ih has hmark₁
      (fun h => hkeep₁ (hquery (mem_cons_of_mem _ h)))
    refine ⟨r₂, ?_, hmark₂, hkeep₂ ∘ hkeep₁, hmethod₂.trans hmethod₁, herror₂.trans herror₁⟩
    show perform buffer p a r >>= _ = _
    rw [hact]
    exact hacts

/-- One byte of the URI is read without a fault. -/
theorem uriByte_read (relaxed : Bool) (buffer : List UInt8) (c : UInt8)
    (hphase : cs.phase = 1) (hr : Located p cs r) :
    ∃ r', (machine relaxed).performAll buffer p (next relaxed cs c).2 r = .ok r'
      ∧ Located p (next relaxed cs c).1 r' ∧ SameMethod r r' := by
  by_cases hmark : cs = .questionMark
  · -- the start of the query is stored before anything else
    subst hmark
    have hnext := queryNext_forward relaxed c
    obtain ⟨r', hacts, hmark', hkeep, hsame⟩ := performAll_ofUri relaxed buffer
      (queryNext relaxed c).2 (r := { r with query_start := p })
      (hnext.acts rfl) hr.mark (fun _ => Nat.le_refl _)
    exact ⟨r', hacts, ⟨hmark', fun _ => hkeep (Nat.le_refl _)⟩, hsame⟩
  · have hnext := next_forward relaxed hmark c
    obtain ⟨r', hacts, hmark', hkeep, hsame⟩ := performAll_ofUri relaxed buffer
      (next relaxed cs c).2 (hnext.acts hphase) hr.mark
      (fun h => hr.query_start (hnext.query hphase (Or.inl h)))
    exact ⟨r', hacts,
      ⟨hmark', fun h => hkeep (hr.query_start (hnext.query hphase (Or.inr h)))⟩, hsame⟩

theorem next_phase (relaxed : Bool) (cs : Cs) (c : UInt8) :
    cs.phase ≤ (next relaxed cs c).1.phase := by
  by_cases hmark : cs = .questionMark
  · subst hmark
    exact (queryNext_forward relaxed c).phase
  · exact (next_forward relaxed hmark c).phase

/-- A scan goes forward. -/
theorem control_phase (relaxed : Bool) (xs : List UInt8) (cs : Cs) :
    cs.phase ≤ ((machine relaxed).control xs cs).phase := by
  induction xs generalizing cs with
  | nil => exact Nat.le_refl _
  | cons c xs ih =>
    rw [Machine.control]
    split
    · exact next_phase relaxed cs c
    · exact (next_phase relaxed cs c).trans (ih _)

/-- Behind the URI the machine does not come back to its blank. -/
theorem eq_nil_of_control {xs : List UInt8}
    (h : (machine relaxed).control xs .HTTP_Version = .HTTP_Version) : xs = [] := by
  cases xs with
  | nil => rfl
  | cons c xs =>
    have hlater : 3 ≤ (next relaxed .HTTP_Version c).1.phase := by
      show 3 ≤ (if c == byte 'H' then _ else _ : Cs × List Act).1.phase
      split <;> exact Nat.le_refl _
    have hend : 3 ≤ ((machine relaxed).control (c :: xs) .HTTP_Version).phase := by
      rw [Machine.control]
      split
      · exact hlater
      · exact hlater.trans (control_phase relaxed xs _)
    rw [h] at hend
    exact absurd hend (by decide)

/-- **The URI** is read without a fault and touches neither the method nor the error. -/
theorem uri_read (relaxed : Bool) (buffer : List UInt8) (xs : List UInt8) {p : Nat} {cs : Cs}
    {r : Registers} (hphase : cs.phase = 1) (hend : (machine relaxed).control xs cs = .HTTP_Version)
    (hr : Located p cs r) :
    ∃ r', (machine relaxed).scan buffer xs p cs r = .ok (p + xs.length, .HTTP_Version, r')
      ∧ SameMethod r r' := by
  induction xs generalizing p cs r with
  | nil =>
    rw [Machine.control] at hend
    subst hend
    cases hphase
  | cons c xs ih =>
    obtain ⟨r₁, hacts, hr₁, hsame₁⟩ := uriByte_read relaxed buffer c hphase hr
    obtain ⟨hrunning, hrest⟩ := control_cons hend rfl
    rw [scan_cons xs hrunning hacts, length_cons, ← Nat.add_assoc, Nat.add_right_comm]
    have hforward : 1 ≤ (next relaxed cs c).1.phase := hphase ▸ next_phase relaxed cs c
    rcases hforward.eq_or_lt with hone | htwo
    · obtain ⟨r', hscan, hsame⟩ := ih hone.symm hrest
        ⟨Nat.le_succ_of_le hr₁.mark, fun h => Nat.le_succ_of_le (hr₁.query_start h)⟩
      exact ⟨r', hscan, hsame.1.trans hsame₁.1, hsame.2.trans hsame₁.2⟩
    · -- the blank: nothing may follow
      have hle := control_phase relaxed xs (next relaxed cs c).1
      rw [show (machine relaxed).control xs (next relaxed cs c).1 = _ from hrest] at hle
      have hblank := Cs.eq_of_phase (Nat.le_antisymm hle htwo)
      rw [show ((machine relaxed).next cs c).1 = _ from hblank] at hrest ⊢
      cases eq_nil_of_control hrest
      exact ⟨r₁, rfl, hsame₁⟩

/-! ## The request line -/

/-- `Request_Line` with the method `tok`: a URI up to the blank, one of the two versions and the end
of the line, which may be a line feed alone. -/
def RequestLine (relaxed : Bool) (tok line : List UInt8) : Prop :=
  MethodToken tok ∧ ∃ uri v eol,
    (machine relaxed).control (uri ++ [SP]) .uri = .HTTP_Version
      ∧ (v = 0x10 ∨ v = 0x11) ∧ (eol = CRLF ∨ eol = [LF])
      ∧ line = (tok ++ [SP]) ++ ((uri ++ [SP]) ++ (versionText v ++ eol))

/-- The request line is read, and the method and the error are those of the callback. -/
theorem requestLine_read (h : RequestLine relaxed tok line) (query : Nat) (g : List UInt8) :
    ∃ n data s, (HttpRequestParser.new 0 relaxed query).execute (line ++ g) line.length
        = .ok (n, data, s)
      ∧ s.cs = .header
      ∧ s.m_data.m_method = (on_request_method tok ⟨{}, 0⟩).m_data.m_method
      ∧ s.m_error = (on_request_method tok ⟨{}, 0⟩).m_error := by
  obtain ⟨htok, uri, v, eol, huri, hv, heol, rfl⟩ := h
  obtain ⟨r₁, hmethod, hmark, hr₁⟩ := methodToken_passes relaxed []
    (((uri ++ [SP]) ++ (versionText v ++ eol)) ++ g) htok
    (HttpRequestParser.new 0 relaxed query).reset
  obtain ⟨r₂, hscan, hsame⟩ := uri_read relaxed
    ([] ++ (tok ++ [SP]) ++ ((uri ++ [SP]) ++ (versionText v ++ eol ++ g)))
    (uri ++ [SP]) (p := ([] ++ (tok ++ [SP])).length) (r := r₁) rfl huri
    ⟨hmark ▸ Nat.zero_le _, nofun⟩
  rw [← length_append] at hscan
  obtain ⟨r₃, hversion, hr₃⟩ := version_passes relaxed ([] ++ (tok ++ [SP]) ++ (uri ++ [SP])) g
    hv heol r₂
  have hline := hmethod.append ((Machine.Passes.mk hscan rfl).append hversion)
  have hne : (tok ++ [SP]) ++ ((uri ++ [SP]) ++ (versionText v ++ eol)) ≠ [] := by simp
  rw [execute_piece g hne]
  have hcall : r₁.toParsed = on_request_method tok ⟨{}, 0⟩ := hr₁
  have htaken := hline.taken
  rw [nil_append, nil_append, length_nil] at htaken
  show ∃ n data s, Except.map _ ((machine relaxed).scan _ _ 0 .start _) = _ ∧ _
  rw [htaken]
  refine ⟨_, _, _, rfl, rfl, ?_, ?_⟩
  · show r₃.m_data.m_method = _
    rw [hr₃, ← hcall]
    exact hsame.1
  · show r₃.m_error = _
    rw [hr₃, ← hcall]
    exact hsame.2

/-- The parser has set the method whose name is the token, or reports that there is none. -/
def Recognised (tok : List UInt8) (s : HttpRequestParser) : Prop :=
  (∃ m, Names m tok ∧ s.m_data.m_method = m ∧ s.hasError = false)
    ∨ (∀ m, ¬ Names m tok) ∧ s.hasError = true

/-- The token is a name of the table, or does not begin with one. -/
def Unextended (tok : List UInt8) : Prop :=
  ∀ e ∈ HTTP_METHOD_MAP, bytes e.2 <+: tok → bytes e.2 = tok

theorem recognised_iff (h : RequestLine relaxed tok line) (query : Nat) (g : List UInt8) :
    ∃ n data s, (HttpRequestParser.new 0 relaxed query).execute (line ++ g) line.length
        = .ok (n, data, s)
      ∧ s.cs = .header ∧ (Recognised tok s ↔ Unextended tok) := by
  obtain ⟨n, data, s, hexec, hcs, hmethod, herror⟩ := requestLine_read h query g
  refine ⟨n, data, s, hexec, hcs, ?_⟩
  rw [Recognised, HttpRequestParser.hasError, hcs, hmethod, herror]
  rcases on_request_method_cases tok ⟨{}, 0⟩ with ⟨e, he, hpre, hact⟩ | ⟨hnone, hact⟩
  · rw [hact]
    constructor
    · rintro (⟨m, ⟨f, hf, rfl, rfl⟩, hm, -⟩ | ⟨-, herr⟩)
      · intro e' he' hpre'
        rw [prefix_unique he' hf hpre']
      · cases herr
    · intro hexact
      exact Or.inl ⟨e.1, ⟨e, he, rfl, hexact e he hpre⟩, rfl, rfl⟩
  · rw [hact]
    constructor
    · intro _ e he hpre
      exact absurd hpre (hnone e he)
    · intro _
      refine Or.inr ⟨?_, rfl⟩
      rintro m ⟨e, he, -, rfl⟩
      exact hnone e he prefix_rfl

/-- The URI as `dump` prints it. -/
def HttpRequest.target (q : HttpRequest) : List UInt8 :=
  q.m_path ++ uriPart "?" q.m_query ++ uriPart "#" q.m_fragment

/-- The printed request line is accepted, and the parser has its method. -/
def ReadBack (relaxed : Bool) (query : Nat) (g : List UInt8) (q : HttpRequest) : Prop :=
  ∃ n data s, (HttpRequestParser.new 0 relaxed query).execute (q.requestLine ++ g)
      q.requestLine.length = .ok (n, data, s)
    ∧ s.cs = .header ∧ s.hasError = false ∧ s.m_data.m_method = q.m_method

theorem requestLine_eq (q : HttpRequest) :
    q.requestLine = (bytes (HttpMethodToString q.m_method) ++ [SP])
      ++ ((q.target ++ [SP]) ++ (versionText q.m_version ++ CRLF)) := by
  have hblank : bytes " " = [SP] := rfl
  simp only [HttpRequest.requestLine, HttpRequest.target, hblank, append_assoc]

/-- The names the grammar can take are those without a hyphen. -/
theorem name_of_method : ∀ m : HttpMethod, m ≠ .MSEARCH → m ≠ .INVALID_METHOD →
      (m, HttpMethodToString m) ∈ HTTP_METHOD_MAP
        ∧ bytes (HttpMethodToString m) ≠ [] ∧ (bytes (HttpMethodToString m)).length ≤ 20
        ∧ ∀ c ∈ bytes (HttpMethodToString m), (digit c || upper c) = true := by
  intro m
  cases m <;> decide +kernel

/-- The invalid method is never stored. -/
theorem execute_method_valid {s s' : HttpRequestParser} {data data' : List UInt8}
    {len n : Nat} (h : s.execute data len = .ok (n, data', s'))
    (hs : s.m_data.m_method ≠ .INVALID_METHOD) :
    s'.m_data.m_method ≠ .INVALID_METHOD := by
  refine execute_invariant (P := fun x => x.m_data.m_method ≠ .INVALID_METHOD) ?_ h hs
  intro buffer p a r r' hact hr
  generalize r'.toParsed = y, perform_calls hact = hcalls
  cases hcalls with
  | nothing | fragment | query | path => exact hr
  | method at_ =>
    rcases on_request_method_cases at_ r.toParsed with ⟨e, he, -, hstore⟩ | ⟨-, hstore⟩
    · rw [hstore]
      exact (names_apart e he).1
    · rw [hstore]
      exact hr
  | version at_ n =>
    rw [on_request_version]
    split <;> exact hr
  | http_field field flen value =>
    rw [on_request_http_field]
    split <;> exact hr

/-- The scan dies at the hyphen. -/
theorem msearch_refused (relaxed : Bool) (query : Nat) (g rest : List UInt8) :
    ∃ n data s, (HttpRequestParser.new 0 relaxed query).execute
        (bytes "M-SEARCH" ++ rest ++ g) (bytes "M-SEARCH" ++ rest).length
        = .ok (n, data, s) ∧ s.cs = .error := by
  rw [execute_piece g (by simp [bytes])]
  exact ⟨_, _, _, rfl, rfl⟩

theorem readBack_iff {q : HttpRequest} (query : Nat) (g : List UInt8)
    (htarget : (machine relaxed).control (q.target ++ [SP]) .uri = .HTTP_Version)
    (hv : q.m_version = 0x10 ∨ q.m_version = 0x11) :
    ReadBack relaxed query g q ↔ q.m_method ≠ .MSEARCH ∧ q.m_method ≠ .INVALID_METHOD := by
  rw [ReadBack, requestLine_eq]
  constructor
  · rintro ⟨n, data, s, hexec, hcs, -, hmethod⟩
    constructor
    · intro hm
      rw [hm, append_assoc (bytes _)] at hexec
      obtain ⟨n', data', s', hexec', hcs'⟩ := msearch_refused relaxed query g
        ([SP] ++ ((q.target ++ [SP]) ++ (versionText q.m_version ++ CRLF)))
      rw [show HttpMethodToString .MSEARCH = "M-SEARCH" from rfl, hexec'] at hexec
      cases hexec
      rw [hcs] at hcs'
      cases hcs'
    · rw [← hmethod]
      exact execute_method_valid hexec (show HttpMethod.GET ≠ .INVALID_METHOD by decide)
  · rintro ⟨hsearch, hinvalid⟩
    obtain ⟨he, hne, hlen, hchars⟩ := name_of_method q.m_method hsearch hinvalid
    have hline : RequestLine relaxed (bytes (HttpMethodToString q.m_method)) _ :=
      ⟨⟨hne, hlen, hchars⟩, q.target, q.m_version, CRLF, htarget, hv, Or.inl rfl, rfl⟩
    obtain ⟨n, data, s, hexec, hcs, hmethod, herror⟩ := requestLine_read hline query g
    have hstore : on_request_method (bytes (HttpMethodToString q.m_method)) ⟨{}, 0⟩
        = ⟨{ m_method := q.m_method }, 0⟩ := by
      rcases on_request_method_cases (bytes (HttpMethodToString q.m_method)) ⟨{}, 0⟩ with
        ⟨e, he', hpre, hstore⟩ | ⟨hnone, -⟩
      · rw [hstore, prefix_unique he' he hpre]
      · exact absurd prefix_rfl (hnone _ he)
    rw [hstore] at hmethod herror
    refine ⟨n, data, s, hexec, hcs, ?_, hmethod⟩
    rw [HttpRequestParser.hasError, hcs, herror]
    rfl

/-- **The method is recognised** from a request line of the grammar exactly if no name of
the table is a proper beginning of its token; and the request line that is printed for a
method, with a URI and a version of the grammar, is read back exactly if the method is
neither `M-SEARCH` nor the invalid one. -/
theorem method_recognition_iff (relaxed : Bool) (query : Nat) (g : List UInt8) :
    (∀ tok line, RequestLine relaxed tok line →
      ∃ n data s, (HttpRequestParser.new 0 relaxed query).execute (line ++ g) line.length
          = .ok (n, data, s)
        ∧ s.cs = .header ∧ (Recognised tok s ↔ Unextended tok))
    ∧ ∀ q : HttpRequest, (machine relaxed).control (q.target ++ [SP]) .uri = .HTTP_Version →
      q.m_version = 0x10 ∨ q.m_version = 0x11 →
      (ReadBack relaxed query g q ↔ q.m_method ≠ .MSEARCH ∧ q.m_method ≠ .INVALID_METHOD) :=
  ⟨fun _ _ h => recognised_iff h query g, fun _ htarget hv => readBack_iff query g htarget hv⟩

/-- The line `POST /a HTTP/1.1` is recognised, and what is printed for it is read back. -/
theorem method_recognition_iff_post : (∃ n data s, (HttpRequestParser.new 0 false 0).execute
        (bytes "POST /a HTTP/1.1\r\n" ++ []) (bytes "POST /a HTTP/1.1\r\n").length
        = .ok (n, data, s) ∧ s.cs = .header ∧ Recognised (bytes "POST") s)
      ∧ ReadBack false 0 [] { m_method := .POST, m_path := bytes "/a" } := by
  constructor
  · have hline : RequestLine false (bytes "POST") (bytes "POST /a HTTP/1.1\r\n") :=
      ⟨⟨by decide, by decide, List.all_eq_true.mp (by decide)⟩, bytes "/a", 0x11, CRLF, rfl,
        Or.inr rfl, Or.inl rfl, by decide⟩
    obtain ⟨n, data, s, hexec, hcs, hiff⟩ := (method_recognition_iff false 0 []).1 _ _ hline
    refine ⟨n, data, s, hexec, hcs, hiff.mpr ?_⟩
    show ∀ e ∈ HTTP_METHOD_MAP, bytes e.2 <+: bytes "POST" → bytes e.2 = bytes "POST"
    decide +kernel
  · exact ((method_recognition_iff false 0 []).2 _ rfl (Or.inr rfl)).mpr ⟨by decide, by decide⟩

/-- The token `GETX`, which is no method, is read as `GET`; and the line printed for
`M-SEARCH` is refused. -/
theorem longer_token_accepted : (∃ n data s, (HttpRequestParser.new 0 false 0).execute
        (bytes "GETX / HTTP/1.1\r\n") (bytes "GETX / HTTP/1.1\r\n").length = .ok (n, data, s)
      ∧ s.cs = .header ∧ ¬ Recognised (bytes "GETX") s)
      ∧ ¬ ReadBack false 0 [] { m_method := .MSEARCH } := by
  constructor
  · refine ⟨_, _, _, rfl, rfl, ?_⟩
    rintro (⟨m, ⟨e, he, -, hname⟩, -⟩ | ⟨-, herror⟩)
    · revert e
      decide +kernel
    · cases herror
  · rintro ⟨n, data, s, hexec, hcs, -⟩
    cases hexec
    cases hcs

end SylarHttp
