import Sylar.FoldedMapProofs
import Sylar.HttpMessageProofs

/-! # Reading back a printed request (`http.cc`, `http_parser.cc`)

The scanner takes a printed request part by part: the request line, the
header fields, the empty line.  What it hands to the callbacks are the parts
that were printed.

* **`requestLine_passes`**, **`fields_passes`** — the two parts of the head.
* **`request_round_trip`** — a request that is printed is read back, if its
  path does not begin with two slashes. -/

namespace SylarHttp

open ListWindow Scanner List

/-! ## Character classes -/

/-- A character of an RFC 2616 token. -/
def tokenChar (c : UInt8) : Bool := 32 < c && c < 127 && !HTTP_separator c

/-- A character of a field value: anything but the null byte, the line breaks and
the delete character. -/
def valueChar (c : UInt8) : Bool := c != 0 && c != CR && c != LF && c != 127

/-- An ASCII character of a path, apart from percent-encoded ones. -/
def pathChar (c : UInt8) : Bool := c < 128 && (pchar false c || c == byte '/')

/-- The same for a query or a fragment. -/
def queryChar (c : UInt8) : Bool := pathChar c || c == byte '?'

/-- A text of such characters and percent-encoded bytes; `due` digits of the current one are to
come. -/
def uriText (ok : UInt8 → Bool) : Nat → List UInt8 → Bool
  | 0, [] => true
  | _ + 1, [] => false
  | 0, c :: rest => if c == byte '%' then uriText ok 2 rest else ok c && uriText ok 0 rest
  | due + 1, c :: rest => xdigit c && uriText ok due rest

/-- A property of all bytes, checked one by one. -/
theorem forall_byte {p : UInt8 → Prop}
    (h : ∀ n : Fin 256, p (UInt8.ofNat n)) (c : UInt8) : p c := by
  have hc := h ⟨c.toNat, c.toNat_lt⟩
  rwa [UInt8.ofNat_toNat] at hc

theorem charClasses : ∀ c : UInt8, (tokenChar c = true → token c = true ∧ c ≠ CR ∧ c ≠ LF)
    ∧ (valueChar c = true → HTTP_CTL c = false ∧ c ≠ CR ∧ c ≠ LF)
    ∧ (∀ relaxed, pathChar c = true → (pchar relaxed c || c == byte '/') = true)
    ∧ (digit c = true → valueChar c = true ∧ c ≠ SP ∧ c ≠ HT) :=
  forall_byte (by decide +kernel)

theorem queryChar_pchar (relaxed : Bool) (c : UInt8) (hc : queryChar c = true) :
    (pchar relaxed c || c == byte '/' || c == byte '?') = true := by
  rw [queryChar, Bool.or_eq_true] at hc
  rw [Bool.or_eq_true]
  exact hc.imp ((charClasses c).2.2.1 relaxed) id

/-! ## Tokens of the buffer -/

/-- The length of the text from a noted position up to here. -/
theorem LEN_token (pre tok : List UInt8) : LEN pre.length (pre ++ tok).length = .ok tok.length := by
  rw [LEN, length_append, if_pos (Nat.le_add_right _ _), Nat.add_sub_cancel_left]

/-- The name and the value of a field in the buffer. -/
theorem window_field (pre key sep val post : List UInt8) :
    window (pre ++ key ++ sep ++ val ++ post) pre.length key.length = key
      ∧ window (pre ++ key ++ sep ++ val ++ post) (pre ++ key ++ sep).length val.length = val := by
  constructor
  · have hassoc : pre ++ key ++ sep ++ val ++ post = pre ++ (key ++ (sep ++ val ++ post)) := by
      simp only [append_assoc]
    rw [hassoc, window_middle]
  · rw [append_assoc (pre ++ key ++ sep), window_middle]

section Token

variable {r : Registers}

/-- An action that hands on the text from a noted position up to `fpc`. -/
theorem perform_token (pre tok post : List UInt8) {a : Act} {start : Nat}
    {callback : List UInt8 → Parsed → Parsed}
    (ha : ∀ buffer fpc, perform buffer fpc a r = (do
      let n ← LEN start fpc
      .ok { r with toParsed := callback (window buffer start n) r.toParsed }))
    (hstart : start = pre.length) :
    perform (pre ++ tok ++ post) (pre ++ tok).length a r
      = .ok { r with toParsed := callback tok r.toParsed } := by
  rw [ha, hstart, LEN_token, append_assoc]
  show Except.ok _ = _
  rw [window_middle]

theorem perform_write_field (pre tok post : List UInt8) (hstart : r.field_start = pre.length) :
    perform (pre ++ tok ++ post) (pre ++ tok).length .write_field r
      = .ok { r with field_len := tok.length } := by
  rw [perform, hstart, LEN_token]
  rfl

theorem perform_write_value (pre key sep tok post : List UInt8)
    (hstart : r.field_start = pre.length) (hlen : r.field_len = key.length)
    (hmark : r.mark = (pre ++ key ++ sep).length) :
    perform (pre ++ key ++ sep ++ tok ++ post) (pre ++ key ++ sep ++ tok).length .write_value r
      = .ok { r with
          toParsed := on_request_http_field key key.length tok r.toParsed } := by
  obtain ⟨hkey, hval⟩ := window_field pre key sep tok post
  rw [perform, hmark, LEN_token]
  show Except.ok _ = _
  rw [hstart, hlen, hkey, hval]

end Token

/-! ## Header fields -/

/-- A header field the scanner takes as one: a token, and a value of one line without a blank in
front. -/
structure CleanField (e : List UInt8 × List UInt8) : Prop where
  name_ne : e.1 ≠ []
  name : ∀ c ∈ e.1, tokenChar c = true
  value : ∀ c ∈ e.2, valueChar c = true
  blank : ∀ c ∈ e.2.head?, c ≠ SP ∧ c ≠ HT

instance (e : List UInt8 × List UInt8) : Decidable (CleanField e) :=
  decidable_of_iff (e.1 ≠ [] ∧ e.1.all tokenChar = true ∧ e.2.all valueChar = true
      ∧ e.2.head? ≠ some SP ∧ e.2.head? ≠ some HT)
    ⟨fun h => ⟨h.1, List.all_eq_true.mp h.2.1, List.all_eq_true.mp h.2.2.1, fun _ hc =>
        ⟨fun heq => h.2.2.2.1 (heq ▸ hc), fun heq => h.2.2.2.2 (heq ▸ hc)⟩⟩,
      fun h => ⟨h.name_ne, List.all_eq_true.mpr h.name, List.all_eq_true.mpr h.value,
        fun heq => (h.blank SP heq).1 rfl, fun heq => (h.blank HT heq).2 rfl⟩⟩

/-- A header field of one line, which may begin with blanks: a token, and characters the scanner
takes. -/
structure LineField (ok : UInt8 → Bool) (e : List UInt8 × List UInt8) : Prop where
  name_ne : e.1 ≠ []
  name : ∀ c ∈ e.1, tokenChar c = true
  value : ∀ c ∈ e.2, ok c = true

def blank (c : UInt8) : Bool := c == SP || c == HT

/-- The fields without the blanks in front of the values. -/
def MapType.trimmed (isBlank : UInt8 → Bool) (es : MapType) : MapType :=
  es.map fun e => (e.1, e.2.dropWhile isBlank)

theorem MapType.trimmed_append (isBlank : UInt8 → Bool) (es fs : MapType) :
    MapType.trimmed isBlank (es ++ fs) = es.trimmed isBlank ++ fs.trimmed isBlank :=
  map_append

/-- A value does not begin with a blank once the blanks are left out. -/
theorem head_dropWhile (isBlank : UInt8 → Bool) (val : List UInt8) :
    ∀ c ∈ (val.dropWhile isBlank).head?, isBlank c = false := by
  intro c hc
  have hnot := head?_dropWhile_not isBlank val
  rw [hc] at hnot
  simpa using hnot

/-- The blank that `dump` prints is one of those in front of the value. -/
theorem headerLine_eq (isBlank : UInt8 → Bool) (key val : List UInt8) :
    headerLine key val = key ++ (byte ':' :: ((SP :: val.takeWhile isBlank)
      ++ (val.dropWhile isBlank ++ CRLF))) := by
  rw [cons_append, ← append_assoc, takeWhile_append_dropWhile, headerLine,
    append_assoc, append_assoc]
  rfl

variable {e : List UInt8 × List UInt8} {ok : UInt8 → Bool} {r' : Registers} {m : HttpMethod}

theorem CleanField.lineField (h : CleanField e) : LineField valueChar e :=
  ⟨h.name_ne, h.name, h.value⟩

theorem MapType.trimmed_clean {es : MapType} (h : ∀ e ∈ es, CleanField e) :
    es.trimmed blank = es := by
  have hkeep : ∀ e ∈ es, (e.1, e.2.dropWhile blank) = e := by
    intro e he
    have hhead := (h e he).blank
    cases hval : e.2 with
    | nil => rw [dropWhile_nil, ← hval]
    | cons v vs =>
      obtain ⟨hsp, hht⟩ := hhead v (by rw [hval]; rfl)
      rw [dropWhile_cons_of_neg, ← hval]
      rw [blank, beq_false_of_ne hsp, beq_false_of_ne hht]
      exact Bool.false_ne_true
  rw [MapType.trimmed, map_congr_left hkeep, map_id']

variable {c : UInt8} {q : HttpRequest} {xs : List UInt8}

section Fields

variable (relaxed : Bool) (pre post : List UInt8)

theorem fieldName_passes {key : List UInt8} (hne : key ≠ [])
    (hkey : ∀ c ∈ key, tokenChar c = true) (r : Registers) :
    (machine relaxed).Passes pre key post .header r .field_name
      { r with field_start := pre.length } := by
  refine .token [.start_field] hne rfl (fun c hc => ?_) (fun _ => rfl) (fun c hc => ?_)
  · obtain ⟨htoken, hcr, hlf⟩ := (charClasses c).1 (hkey c hc)
    show (if c == LF then _ else if c == CR then _ else if token c then _ else _) = _
    rw [if_neg (by rwa [beq_iff_eq]), if_neg (by rwa [beq_iff_eq]), if_pos htoken]
  · show fieldNameNext c = _
    rw [fieldNameNext, if_pos ((charClasses c).1 (hkey c hc)).1]

theorem next_field_value (hc : valueChar c = true) :
    next relaxed .field_value c = (.field_value, []) := by
  obtain ⟨hctl, hcr, hlf⟩ := (charClasses c).2.1 hc
  show lineBreak c _ _ = _
  rw [lineBreak, if_neg (by rwa [beq_iff_eq]), if_neg (by rwa [beq_iff_eq]), hctl]
  rfl

/-- The first character of a value. -/
theorem next_colon (hc : valueChar c = true) (hblank : blank c = false) :
    next relaxed .colon c = (.field_value, [.mark]) := by
  obtain ⟨hctl, hcr, hlf⟩ := (charClasses c).2.1 hc
  rw [blank] at hblank
  show marked (lineBreak c _ _) = _
  rw [lineBreak, if_neg (by rwa [beq_iff_eq]), if_neg (by rwa [beq_iff_eq]), hblank, hctl]
  rfl

/-- Every blank in front of it marks the value again. -/
theorem blanks_pass {bs : List UInt8} (hbs : ∀ c ∈ bs, blank c = true) (r : Registers) :
    ∃ mark, (machine relaxed).Passes pre bs post .colon r .colon { r with mark } := by
  have hnext : ∀ c ∈ bs, (machine relaxed).next .colon c = (.colon, [.mark]) := by
    intro c hc
    have hblank := hbs c hc
    rw [blank, Bool.or_eq_true, beq_iff_eq, beq_iff_eq] at hblank
    rcases hblank with rfl | rfl <;> rfl
  have heach : ∃ r', (machine relaxed).Passes pre bs post .colon r .colon r'
      ∧ ∃ mark, r' = { r with mark } := by
    refine Machine.Passes.each [.mark] rfl hnext ?_ ⟨r.mark, rfl⟩
    rintro buffer p _ ⟨mark, rfl⟩
    exact ⟨_, rfl, p, rfl⟩
  obtain ⟨_, hpasses, mark, rfl⟩ := heach
  exact ⟨mark, hpasses⟩

/-- The value and the end of its line. -/
theorem fieldValue_passes (key sep val : List UInt8) (r : Registers)
    (hval : ∀ c ∈ val, valueChar c = true) (hblank : ∀ c ∈ val.head?, blank c = false)
    (hstart : r.field_start = pre.length) (hlen : r.field_len = key.length) :
    ∃ r', (machine relaxed).Passes (pre ++ key ++ sep) (val ++ CRLF) post .colon r .header r'
      ∧ r'.toParsed = on_request_http_field key key.length val r.toParsed := by
  cases val with
  | nil =>
    have hwrite := perform_write_value (r := { r with mark := (pre ++ key ++ sep).length })
      pre key sep [] (CR :: ([LF] ++ post)) hstart hlen rfl
    rw [append_nil] at hwrite
    exact ⟨_, .cons (.single [.mark, .write_value] rfl rfl (performAll_two rfl hwrite))
      (.single [] rfl rfl rfl), rfl⟩
  | cons v vs =>
    obtain ⟨hv, hvs⟩ := forall_mem_cons.mp hval
    have hwrite := perform_write_value (r := { r with mark := (pre ++ key ++ sep).length })
      pre key sep (v :: vs) (CR :: ([LF] ++ post)) hstart hlen rfl
    have htext : (machine relaxed).Passes (pre ++ key ++ sep) (v :: vs) (CRLF ++ post)
        .colon r .field_value { r with mark := (pre ++ key ++ sep).length } :=
      .cons (.single [.mark] (next_colon relaxed hv (hblank v rfl)) rfl rfl)
        (.loop rfl fun c hc => next_field_value relaxed (hvs c hc))
    exact ⟨_, htext.append (.cons
      (.single [.write_value] rfl rfl (performAll_one hwrite)) (.single [] rfl rfl rfl)), rfl⟩

/-- The registers' request with other headers. -/
def Parsed.withHeaders (x : Parsed) (m : MapType) : Parsed :=
  { x with m_data := { x.m_data with m_headers := m } }

/-- One field: the scanner hands on its name and its value. -/
theorem field_passes (he : LineField valueChar e) (r : Registers) :
    ∃ r', (machine relaxed).Passes pre (headerLine e.1 e.2) post .header r .header r' ∧ r'.toParsed
        = r.toParsed.withHeaders (r.m_data.m_headers.set e.1 (e.2.dropWhile blank)) := by
  rw [headerLine_eq blank]
  generalize hbs : SP :: e.2.takeWhile blank = bs
  have hblanks : ∀ c ∈ bs, blank c = true := by
    rw [← hbs]
    exact forall_mem_cons.mpr ⟨rfl, all_eq_true.mp all_takeWhile⟩
  have hname := fieldName_passes relaxed pre
    (byte ':' :: (bs ++ (e.2.dropWhile blank ++ CRLF)) ++ post) he.name_ne he.name r
  have hwrite := perform_write_field (r := { r with field_start := pre.length }) pre e.1
    (byte ':' :: (bs ++ (e.2.dropWhile blank ++ CRLF)) ++ post) rfl
  obtain ⟨mark, hpass⟩ := blanks_pass relaxed (pre ++ e.1 ++ [byte ':'])
    (e.2.dropWhile blank ++ CRLF ++ post) hblanks
    { r with field_start := pre.length, field_len := e.1.length }
  obtain ⟨r', hvalue, hr'⟩ := fieldValue_passes relaxed pre post e.1 (byte ':' :: bs)
    (e.2.dropWhile blank)
    { r with field_start := pre.length, field_len := e.1.length, mark }
    (fun c hc => he.value c ((dropWhile_sublist _).subset hc))
    (head_dropWhile blank e.2) rfl rfl
  refine ⟨r', ?_, ?_⟩
  · refine hname.append (.cons (.single [.write_field] rfl rfl (performAll_one hwrite)) ?_)
    refine hpass.append ?_
    rw [append_assoc (pre ++ e.1)]
    exact hvalue
  · rw [hr', on_request_http_field, if_neg fun h => he.name_ne (length_eq_zero_iff.mp h)]
    rfl

theorem MapType.set_eq (key val : List UInt8) (m : MapType) :
    m.set key val = FoldedMap.set folded key val m := by
  induction m with
  | nil => rfl
  | cons e m ih =>
    obtain ⟨k, v⟩ := e
    rw [MapType.set, FoldedMap.set, ih]
    simp only [caseInsensitiveLess, decide_eq_true_eq]

theorem MapType.lookup_eq (key : List UInt8) (m : MapType) :
    m.lookup key = FoldedMap.lookup folded key m :=
  rfl

/-- **The fields**: the scanner assigns them to the map, one after the other. -/
theorem fields_passes (es : MapType) (hes : ∀ e ∈ es, LineField valueChar e) (pre : List UInt8)
    (r : Registers) :
    ∃ r', (machine relaxed).Passes pre es.dump post .header r .header r'
      ∧ r'.toParsed = r.toParsed.withHeaders
          (FoldedMap.setAll folded (es.trimmed blank) r.m_data.m_headers) := by
  induction es generalizing pre r with
  | nil =>
    exact ⟨r, .nil rfl, rfl⟩
  | cons e es ih =>
    obtain ⟨he, hes⟩ := forall_mem_cons.mp hes
    obtain ⟨r₁, hfirst, hr₁⟩ := field_passes relaxed pre (MapType.dump es ++ post) he r
    obtain ⟨r₂, hrest, hr₂⟩ := ih hes (pre ++ headerLine e.1 e.2) r₁
    refine ⟨r₂, hfirst.append hrest, ?_⟩
    rw [hr₂, hr₁]
    show Parsed.withHeaders _
      (FoldedMap.setAll folded (MapType.trimmed blank es) (MapType.set _ _ _)) = _
    rw [MapType.set_eq]
    rfl

end Fields

/-! ## The request line -/

section RequestLine

variable (relaxed : Bool) (pre post : List UInt8)

/-- The state inside a percent-encoded byte of which `due` digits are to come. -/
private def pctState (back : Cs) : Nat → Cs
  | 0 => back
  | 1 => .pct_digit back
  | _ => .pct_encoded back

/-- A text of the URI in a state that its characters do not leave. -/
theorem uriText_passes {q : Cs} {r : Registers}
    (hok : ∀ c, ok c = true → next relaxed q c = (q, []))
    (hpct : next relaxed q (byte '%') = (.pct_encoded q, []))
    (hq : (machine relaxed).stopped q = false) (xs pre : List UInt8) (due : Nat) (hdue : due ≤ 2)
    (htext : uriText ok due xs = true) :
    (machine relaxed).Passes pre xs post (pctState q due) r q r := by
  induction xs generalizing pre due with
  | nil =>
    cases due with
    | zero => exact .nil hq
    | succ due => cases htext
  | cons c xs ih =>
    match due, hdue with
    | 0, _ =>
      rw [uriText] at htext
      split at htext
      · next hc =>
        rw [beq_iff_eq] at hc
        subst hc
        exact .cons (.single [] hpct rfl rfl) (ih _ 2 (Nat.le_refl _) htext)
      · rw [Bool.and_eq_true] at htext
        exact .cons (.single [] (hok c htext.1) hq rfl) (ih _ 0 (by omega) htext.2)
    | 1, _ =>
      rw [uriText, Bool.and_eq_true] at htext
      have hnext : next relaxed (.pct_digit q) c = (q, []) := if_pos htext.1
      exact .cons (.single [] hnext hq rfl) (ih _ 0 (by omega) htext.2)
    | 2, _ =>
      rw [uriText, Bool.and_eq_true] at htext
      have hnext : next relaxed (.pct_encoded q) c = (.pct_digit q, []) := if_pos htext.1
      exact .cons (.single [] hnext rfl rfl) (ih _ 1 (by omega) htext.2)

/-- A text of the URI whose first character has the actions `as`. -/
theorem uriText_first {e q : Cs} (as : List Act) {r : Registers}
    (hfirst : ∀ c ∈ xs.head?, ok c = true → next relaxed e c = (q, as))
    (hfirstPct : next relaxed e (byte '%') = (.pct_encoded q, as))
    (hact : ∀ buffer, (machine relaxed).performAll buffer pre.length as r = .ok r')
    (hok : ∀ c, ok c = true → next relaxed q c = (q, []))
    (hpct : next relaxed q (byte '%') = (.pct_encoded q, []))
    (hq : (machine relaxed).stopped q = false) (hne : xs ≠ []) (htext : uriText ok 0 xs = true) :
    (machine relaxed).Passes pre xs post e r q r' := by
  cases xs with
  | nil => exact absurd rfl hne
  | cons c xs =>
    have hrest := uriText_passes relaxed post (r := r') hok hpct hq xs (pre ++ [c])
    rw [uriText] at htext
    split at htext
    · next hc =>
      rw [beq_iff_eq] at hc
      subst hc
      exact .cons (.single as hfirstPct rfl (hact _)) (hrest 2 (Nat.le_refl _) htext)
    · rw [Bool.and_eq_true] at htext
      exact .cons (.single as (hfirst c rfl htext.1) hq (hact _)) (hrest 0 (by omega) htext.2)

theorem next_path (hc : pathChar c = true) : next relaxed (.path .line) c = (.path .line, []) :=
  if_pos ((charClasses c).2.2.1 relaxed hc)

private theorem next_query (hc : queryChar c = true) : next relaxed .query c = (.query, []) :=
  if_pos (queryChar_pchar relaxed c hc)

theorem next_fragment (hc : queryChar c = true) : next relaxed .fragment c = (.fragment, []) :=
  if_pos (queryChar_pchar relaxed c hc)

/-- The path: a slash, and a text that does not begin with another one. -/
theorem path_passes (r : Registers) (htext : uriText pathChar 0 xs = true)
    (hslash : xs.head? ≠ some (byte '/')) :
    ∃ q, (q = .slash .line ∨ q = .path .line)
      ∧ (machine relaxed).Passes pre (byte '/' :: xs) post .uri r q
        { r with mark := pre.length } := by
  have hone : (machine relaxed).Passes pre [byte '/'] (xs ++ post) .uri r (.slash .line)
      { r with mark := pre.length } := by
    refine .single [.mark] ?_ rfl rfl
    cases relaxed <;> rfl
  by_cases hne : xs = []
  · subst hne
    exact ⟨_, Or.inl rfl, hone⟩
  · refine ⟨_, Or.inr rfl, hone.cons (uriText_first relaxed _ post [] ?_ ?_ (fun _ => rfl)
      (fun c => next_path relaxed) ?_ rfl hne htext)⟩
    · intro c hc hok
      have hc' : ¬ (c == byte '/') = true := by
        rw [beq_iff_eq]
        rintro rfl
        exact hslash hc
      show (if c == byte '/' then _ else pathNext relaxed .line c) = _
      rw [if_neg hc']
      exact next_path relaxed hok
    · cases relaxed <;> rfl
    · cases relaxed <;> rfl

/-- The fragment and the blank behind it. -/
theorem fragment_passes (r : Registers) (htext : uriText queryChar 0 xs = true) (hne : xs ≠ []) :
    (machine relaxed).Passes pre (xs ++ [SP]) post .numberSign r .HTTP_Version
      { r with mark := pre.length, toParsed := on_request_fragment xs r.toParsed } := by
  have hact := perform_token (r := { r with mark := pre.length }) pre xs ([SP] ++ post)
    (a := .fragment) (fun _ _ => rfl) rfl
  have hxs : (machine relaxed).Passes pre xs ([SP] ++ post) .numberSign r .fragment
      { r with mark := pre.length } := by
    refine uriText_first relaxed pre _ [.mark] ?_ ?_ (fun _ => rfl)
      (fun c => next_fragment relaxed) ?_ rfl hne htext
    · intro c _ hok
      show marked (fragmentNext relaxed c) = _
      rw [fragmentNext, if_pos (queryChar_pchar relaxed c hok)]
      rfl
    · cases relaxed <;> rfl
    · cases relaxed <;> rfl
  refine hxs.append (.single [.fragment] ?_ rfl (performAll_one hact))
  cases relaxed <;> rfl

/-- The query, behind its question mark. -/
theorem query_passes (r : Registers) (htext : uriText queryChar 0 xs = true) (hne : xs ≠ []) :
    (machine relaxed).Passes pre xs post .questionMark r .query
      { r with query_start := pre.length } := by
  refine uriText_first relaxed pre _ [.start_query] ?_ ?_ (fun _ => rfl)
    (fun c => next_query relaxed) ?_ rfl hne htext
  · intro c _ hok
    show queryMarked (queryNext relaxed c) = _
    rw [queryNext, if_pos (queryChar_pchar relaxed c hok)]
    rfl
  · cases relaxed <;> rfl
  · cases relaxed <;> rfl

/-- The end of the URI, behind a part with the actions `as` at its end: the fragment if there is
one, and the blank. -/
theorem uriEnd_passes {q : Cs} (as : List Act) {r : Registers}
    (htext : uriText queryChar 0 xs = true) (hblank : next relaxed q SP = (.HTTP_Version, as))
    (hsign : next relaxed q (byte '#') = (.numberSign, as))
    (hact : ∀ post, (machine relaxed).performAll (pre ++ post) pre.length as r = .ok r') :
    ∃ r'', (machine relaxed).Passes pre (uriPart "#" xs ++ [SP]) post q r .HTTP_Version r''
      ∧ r''.toParsed = if xs = [] then r'.toParsed else on_request_fragment xs r'.toParsed := by
  rw [uriPart]
  by_cases hne : xs = []
  · subst hne
    rw [if_pos rfl, if_pos rfl]
    exact ⟨r', .single as hblank rfl (hact _), rfl⟩
  · rw [if_neg hne, if_neg hne]
    exact ⟨_, .cons (.single as hsign rfl (hact _))
      (fragment_passes relaxed _ post r' htext hne), rfl⟩

/-- The query and what follows it, behind the path. -/
theorem behindPath_passes {q : Cs} (hq : q = .slash .line ∨ q = .path .line)
    (path : List UInt8) {query fragment : List UInt8} {r : Registers} (hmark : r.mark = pre.length)
    (hquery : uriText queryChar 0 query = true)
    (hfragment : uriText queryChar 0 fragment = true) :
    ∃ r', (machine relaxed).Passes (pre ++ path)
        (uriPart "?" query ++ (uriPart "#" fragment ++ [SP])) post q r .HTTP_Version r'
      ∧ r'.toParsed = { r.toParsed with
            m_data := { r.m_data with
              m_path := path
              m_query := if query = [] then r.m_data.m_query else query
              m_fragment := if fragment = [] then r.m_data.m_fragment else fragment } } := by
  have hpath := fun post => perform_token pre path post (a := .request_path) (r := r)
    (fun _ _ => rfl) hmark
  have hend : ∀ c, c = SP ∨ c = byte '#' ∨ c = byte '?' → next relaxed q c = pathEnd .line c := by
    rintro c (rfl | rfl | rfl) <;> obtain rfl | rfl := hq <;> cases relaxed <;> rfl
  rw [uriPart]
  by_cases hne : query = []
  · subst hne
    rw [if_pos rfl, if_pos rfl]
    obtain ⟨r', hpasses, hr'⟩ := uriEnd_passes relaxed (pre ++ path) post
      [.request_path, .request_uri] hfragment (hend SP (Or.inl rfl))
      (hend _ (Or.inr (Or.inl rfl))) (fun post => performAll_two (hpath post) rfl)
    refine ⟨r', hpasses, ?_⟩
    rw [hr']
    split <;> rfl
  · rw [if_neg hne, if_neg hne]
    have hmarked : ∀ post, perform (pre ++ path ++ [byte '?'] ++ query ++ post)
        (pre ++ path ++ [byte '?'] ++ query).length .query_string
        { r with toParsed := on_request_path path r.toParsed,
                 query_start := (pre ++ path ++ [byte '?']).length }
        = .ok _ := fun post =>
      perform_token (pre ++ path ++ [byte '?']) query post (fun _ _ => rfl) rfl
    obtain ⟨r', hpasses, hr'⟩ := uriEnd_passes relaxed (pre ++ path ++ [byte '?'] ++ query)
      post (q := .query) [.query_string, .request_uri] hfragment
      (by cases relaxed <;> rfl) (by cases relaxed <;> rfl)
      (fun post => performAll_two (hmarked post) rfl)
    refine ⟨r', ?_, ?_⟩
    · rw [append_assoc]
      exact .cons (.single [.request_path] (hend _ (Or.inr (Or.inr rfl))) rfl (performAll_one (hpath
        _)))
        ((query_passes relaxed _ _ _ hquery hne).append hpasses)
    · rw [hr']
      split <;> rfl

/-- The version and the end of the line, which may be a line feed alone. -/
theorem version_passes {v : UInt8} (hv : v = 0x10 ∨ v = 0x11) {eol : List UInt8}
    (heol : eol = CRLF ∨ eol = [LF]) (r : Registers) :
    ∃ r', (machine relaxed).Passes pre (versionText v ++ eol) post .HTTP_Version r .header r'
      ∧ r'.toParsed = { r.toParsed with m_data := { r.m_data with m_version := v } } := by
  have htext : (machine relaxed).Passes pre (versionText v) (eol ++ post) .HTTP_Version r
      .versionEnd { r with mark := pre.length } := by
    refine ⟨?_, rfl⟩
    rw [length_append]
    rcases hv with rfl | rfl <;> rfl
  have hact : ∀ rest, perform (pre ++ versionText v ++ rest)
      (pre ++ versionText v).length .http_version { r with mark := pre.length }
      = .ok { r with
          mark := pre.length
          toParsed := { r.toParsed with m_data := { r.m_data with m_version := v } } } := by
    intro rest
    rw [perform, LEN_token, append_assoc]
    show Except.ok _ = _
    rw [drop_left]
    rcases hv with rfl | rfl <;> rfl
  rcases heol with rfl | rfl
  · exact ⟨_, htext.append (.cons (.single [.http_version] rfl rfl (performAll_one (hact _)))
      (.single [] rfl rfl rfl)), rfl⟩
  · exact ⟨_, htext.append (.single [.http_version] rfl rfl (performAll_one (hact _))), rfl⟩

/-- The name of the method is in upper case: that of `M-SEARCH` is not, and an invalid method has
none. -/
def upperMethod (m : HttpMethod) : Prop :=
  ∀ c ∈ bytes (HttpMethodToString m), upper c = true

instance (m : HttpMethod) : Decidable (upperMethod m) :=
  inferInstanceAs (Decidable (∀ c ∈ bytes (HttpMethodToString m), upper c = true))

private theorem methodTable : ∀ e ∈ HTTP_METHOD_MAP,
    CharsToHttpMethod (bytes e.2) = e.1 ∧ e.1 ≠ .INVALID_METHOD ∧ bytes e.2 ≠ []
      ∧ (bytes e.2).length ≤ 20 := by
  decide +kernel

theorem upperMethod_name (hm : upperMethod m) : CharsToHttpMethod (bytes (HttpMethodToString m)) = m
      ∧ m ≠ .INVALID_METHOD ∧ bytes (HttpMethodToString m) ≠ []
      ∧ (bytes (HttpMethodToString m)).length ≤ 20 := by
  rw [upperMethod] at hm
  rw [HttpMethodToString] at hm ⊢
  cases hfind : HTTP_METHOD_MAP.find? fun e => e.1 == m with
  | none =>
    rw [hfind] at hm
    exact absurd hm (by decide +kernel)
  | some e =>
    have he : e.1 = m := by simpa using find?_some hfind
    have htable := methodTable e (mem_of_find?_eq_some hfind)
    rw [he] at htable
    exact htable

/-- `Method`: one to twenty digits and upper-case letters. -/
structure MethodToken (tok : List UInt8) : Prop where
  ne : tok ≠ []
  length : tok.length ≤ 20
  chars : ∀ c ∈ tok, (digit c || upper c) = true

/-- The characters of the method, of which `n` have been read. -/
theorem methodName_passes {r : Registers} (xs pre : List UInt8) (n : Nat)
    (hxs : ∀ c ∈ xs, (digit c || upper c) = true) (hlen : n + xs.length ≤ 20) :
    (machine relaxed).Passes pre xs post (.method n) r (.method (n + xs.length)) r := by
  induction xs generalizing pre n with
  | nil =>
    exact .nil rfl
  | cons c xs ih =>
    obtain ⟨hc, hxs⟩ := forall_mem_cons.mp hxs
    rw [length_cons] at hlen ⊢
    have hsp : ¬ (c == SP) = true := by
      rw [beq_iff_eq]
      rintro rfl
      cases hc
    have hnext : next relaxed (.method n) c = (.method (n + 1), []) := by
      show (if c == SP then _ else if (digit c || upper c) && n < 20 then _ else _) = _
      rw [if_neg hsp, if_pos (by rw [hc, Bool.true_and]; exact decide_eq_true (by omega))]
    have hrest := ih (pre ++ [c]) (n + 1) hxs (by omega)
    rw [show n + 1 + xs.length = n + (xs.length + 1) by omega] at hrest
    exact .cons (.single [] hnext rfl rfl) hrest

/-- The method and the blank behind it: the callback sees the token. -/
theorem methodToken_passes {tok : List UInt8} (htok : MethodToken tok) (r : Registers) :
    ∃ r', (machine relaxed).Passes pre (tok ++ [SP]) post .start r .uri r'
      ∧ r'.mark = pre.length ∧ r'.toParsed = on_request_method tok r.toParsed := by
  obtain ⟨hne, hlen, hchars⟩ := htok
  cases tok with
  | nil => exact absurd rfl hne
  | cons c xs =>
    obtain ⟨hc, hxs⟩ := forall_mem_cons.mp hchars
    rw [length_cons] at hlen
    have hnext : next relaxed .start c = (.method 1, [.mark]) := if_pos hc
    have htok : (machine relaxed).Passes pre (c :: xs) ([SP] ++ post) .start r
        (.method (1 + xs.length)) { r with mark := pre.length } :=
      .cons (.single [.mark] hnext rfl rfl) (methodName_passes relaxed _ xs _ 1 hxs (by omega))
    have hact : perform (pre ++ (c :: xs) ++ (SP :: post)) (pre ++ c :: xs).length
        .request_method { r with mark := pre.length }
        = .ok { r with
            mark := pre.length
            toParsed := on_request_method (c :: xs) r.toParsed } := by
      have hseen : on_request_method ((c :: xs) ++ (SP :: post)) r.toParsed
          = on_request_method (c :: xs) r.toParsed := by
        rw [on_request_method, CharsToHttpMethod_before_space, ← on_request_method]
      rw [perform, append_assoc, drop_left, hseen]
    exact ⟨_, htok.append (.single [.request_method] rfl rfl (performAll_one hact)), rfl, rfl⟩

/-- The name of a method as it is printed. -/
theorem method_passes (hm : upperMethod m) (r : Registers) :
    ∃ r', (machine relaxed).Passes pre (bytes (HttpMethodToString m) ++ [SP]) post .start r .uri r'
      ∧ r'.toParsed = { r.toParsed with m_data := { r.m_data with m_method := m } } := by
  obtain ⟨hname, hvalid, hne, hlen⟩ := upperMethod_name hm
  have hchars : ∀ c ∈ bytes (HttpMethodToString m), (digit c || upper c) = true := by
    intro c hc
    rw [hm c hc, Bool.or_true]
  obtain ⟨r', hpasses, -, hr'⟩ := methodToken_passes relaxed pre post ⟨hne, hlen, hchars⟩ r
  refine ⟨r', hpasses, ?_⟩
  rw [hr', on_request_method, hname]
  split
  · exact absurd rfl hvalid
  · rfl

/-- A request line the scanner takes as one, but for the second slash. -/
structure CleanLine (q : HttpRequest) : Prop where
  method : upperMethod q.m_method
  version : q.m_version = 0x10 ∨ q.m_version = 0x11
  path_head : q.m_path.head? = some (byte '/')
  path : uriText pathChar 0 q.m_path = true
  query : uriText queryChar 0 q.m_query = true
  fragment : uriText queryChar 0 q.m_fragment = true

/-- **The request line**: the scanner hands on its parts. -/
theorem requestLine_passes (h : CleanLine q) (hslash : ¬ [byte '/', byte '/'] <+: q.m_path)
    {r : Registers} (hquery : r.m_data.m_query = []) (hfragment : r.m_data.m_fragment = []) :
    ∃ r', (machine relaxed).Passes pre q.requestLine post .start r .header r' ∧ r'.toParsed
        = { r.toParsed with
            m_data := { q with
              m_close := r.m_data.m_close
              m_headers := r.m_data.m_headers
              m_body := r.m_data.m_body } } := by
  obtain ⟨xs, hpath⟩ : ∃ xs, q.m_path = byte '/' :: xs := by
    have hhead := h.path_head
    cases hp : q.m_path with
    | nil =>
      rw [hp] at hhead
      cases hhead
    | cons c xs =>
      rw [hp] at hhead
      cases hhead
      exact ⟨xs, rfl⟩
  have htext : uriText pathChar 0 xs = true := by
    have hall := h.path
    rw [hpath] at hall
    exact hall
  have hsecond : xs.head? ≠ some (byte '/') := by
    intro hhead
    refine hslash ?_
    obtain ⟨ys, rfl⟩ := head?_eq_some_iff.mp hhead
    exact ⟨ys, hpath.symm⟩
  have hline : q.requestLine = (bytes (HttpMethodToString q.m_method) ++ [SP]) ++ ((byte '/' :: xs)
        ++ ((uriPart "?" q.m_query ++ (uriPart "#" q.m_fragment ++ [SP]))
          ++ (versionText q.m_version ++ CRLF))) := by
    have hblank : bytes " " = [SP] := rfl
    rw [HttpRequest.requestLine, hpath, hblank]
    simp only [append_assoc]
  rw [hline]
  -- the four stretches of the line, one after the other
  obtain ⟨r₁, hmethod, hr₁⟩ := method_passes relaxed pre
    (((byte '/' :: xs) ++ ((uriPart "?" q.m_query ++ (uriPart "#" q.m_fragment ++ [SP]))
      ++ (versionText q.m_version ++ CRLF))) ++ post) h.method r
  obtain ⟨q₁, hq₁, hpasses⟩ := path_passes relaxed
    (pre ++ (bytes (HttpMethodToString q.m_method) ++ [SP]))
    (((uriPart "?" q.m_query ++ (uriPart "#" q.m_fragment ++ [SP]))
      ++ (versionText q.m_version ++ CRLF)) ++ post) r₁ htext hsecond
  obtain ⟨r₂, hbehind, hr₂⟩ := behindPath_passes relaxed
    (pre ++ (bytes (HttpMethodToString q.m_method) ++ [SP]))
    (versionText q.m_version ++ CRLF ++ post) hq₁ (byte '/' :: xs)
    (r := { r₁ with mark := (pre ++ (bytes (HttpMethodToString q.m_method) ++ [SP])).length })
    rfl h.query h.fragment
  obtain ⟨r₃, hversion, hr₃⟩ := version_passes relaxed _ post h.version (Or.inl rfl) r₂
  refine ⟨r₃, hmethod.append (hpasses.append (hbehind.append hversion)), ?_⟩
  have hdata : r₁.m_data = { r.m_data with m_method := q.m_method } := by rw [hr₁]
  have herror : r₁.m_error = r.m_error := by rw [hr₁]
  -- an empty query or fragment is not scanned, and was empty before
  have hkeep : ∀ part old : List UInt8, old = [] →
      (if part = [] then old else part) = part := by
    rintro part _ rfl
    split
    · next hpart => exact hpart.symm
    · rfl
  rw [hr₃, hr₂]
  dsimp only
  rw [hdata, herror, hkeep _ _ hquery, hkeep _ _ hfragment, ← hpath]

end RequestLine

/-! ## The whole request -/

def connectionField (m_close : Bool) : List UInt8 × List UInt8 :=
  (bytes "connection", bytes (if m_close then "close" else "keep-alive"))

/-- The length of a body that is not empty. -/
def contentLengthField (m_body : List UInt8) : MapType :=
  if m_body = [] then [] else [(bytes "content-length", printed m_body.length)]

/-- The fields that are printed. -/
def HttpRequest.fields (q : HttpRequest) : MapType :=
  connectionField q.m_close :: (q.m_headers.shown ++ contentLengthField q.m_body)

theorem MapType.dump_append (a b : MapType) : MapType.dump (a ++ b) = a.dump ++ b.dump :=
  flatMap_append

theorem bodyText_eq (m_body : List UInt8) :
    bodyText m_body = (contentLengthField m_body).dump ++ (CRLF ++ m_body) := by
  rw [bodyText, contentLengthField]
  by_cases h : m_body = []
  · subst h
    rfl
  · rw [if_neg h, if_neg h, append_assoc]
    show _ = (headerLine _ _ ++ []) ++ _
    rw [append_nil]

theorem HttpRequest.dump_eq (q : HttpRequest) :
    q.dump = q.requestLine ++ q.fields.dump ++ (CRLF ++ q.m_body) := by
  have hfields : q.fields.dump = connectionLine q.m_close
      ++ (q.m_headers.shown.dump ++ (contentLengthField q.m_body).dump) := by
    rw [← MapType.dump_append]
    rfl
  rw [HttpRequest.dump, bodyText_eq, hfields]
  simp only [append_assoc]

private theorem connectionField_clean (m_close : Bool) : CleanField (connectionField m_close) := by
  cases m_close <;> exact ⟨by decide, by decide +kernel, by decide +kernel, by decide +kernel⟩

theorem contentLengthField_clean (m_body : List UInt8) :
    ∀ e ∈ contentLengthField m_body, CleanField e := by
  intro e he
  rw [contentLengthField] at he
  split at he
  · cases he
  · rw [mem_singleton] at he
    subst he
    have hname : ∀ c ∈ bytes "content-length", tokenChar c = true := by decide +kernel
    refine ⟨cons_ne_nil _ _, hname, fun c hc => ?_, fun c hc => ?_⟩
    · exact ((charClasses c).2.2.2 (printed_digits _ c hc)).1
    · exact ((charClasses c).2.2.2 (printed_digits _ c (mem_of_head? hc))).2

private theorem fields_clean (h : ∀ e ∈ q.m_headers.shown, CleanField e) :
    ∀ e ∈ q.fields, CleanField e := by
  refine forall_mem_cons.mpr ⟨connectionField_clean _, fun e he => ?_⟩
  exact (mem_append.mp he).elim (h e) (contentLengthField_clean _ e)

/-- The lines of a printed head behind a request line the scanner takes: the scan stops at the
body, with the fields that were printed. -/
theorem lines_scanned {r₀ r₁ : Registers} (g : List UInt8) (hline : (machine relaxed).Passes []
      q.requestLine (q.fields.dump ++ (CRLF ++ q.m_body ++ g)) .start r₀ .header r₁)
    (hfields : ∀ e ∈ q.m_headers.shown, LineField valueChar e) :
    ∃ r, (machine relaxed).scan (q.dump ++ g) q.dump 0 .start r₀
        = .ok (q.dump.length - q.m_body.length, .done, r)
      ∧ r.toParsed = r₁.toParsed.withHeaders
          (FoldedMap.setAll folded (q.fields.trimmed blank) r₁.m_data.m_headers) := by
  have hclean : ∀ e ∈ q.fields, LineField valueChar e := by
    refine forall_mem_cons.mpr ⟨(connectionField_clean _).lineField, fun e he => ?_⟩
    exact (mem_append.mp he).elim (hfields e) fun he => (contentLengthField_clean _ e he).lineField
  obtain ⟨r₂, hrest, hr₂⟩ := fields_passes relaxed (CRLF ++ q.m_body ++ g) q.fields hclean
    ([] ++ q.requestLine) r₁
  have hscan := (hline.append hrest).scan
  have hend : (machine relaxed).scan
      ([] ++ (q.requestLine ++ q.fields.dump) ++ (CRLF ++ q.m_body ++ g)) (CRLF ++ q.m_body)
      ([] ++ (q.requestLine ++ q.fields.dump)).length .header r₂
      = .ok (([] ++ (q.requestLine ++ q.fields.dump)).length + 2, .done,
          { r₂ with field_start := ([] ++ (q.requestLine ++ q.fields.dump)).length }) := rfl
  have hlen : ([] ++ (q.requestLine ++ q.fields.dump)).length + 2
      = q.dump.length - q.m_body.length := by
    have htwo : CRLF.length = 2 := rfl
    rw [nil_append, HttpRequest.dump_eq]
    simp only [length_append, htwo]
    omega
  rw [hend, hlen, nil_append, ← append_assoc, ← HttpRequest.dump_eq] at hscan
  exact ⟨_, hscan, hr₂⟩

/-- The head of a printed request: the scan stops behind it, with what was
printed. -/
theorem head_scanned (h : CleanLine q) (hslash : ¬ [byte '/', byte '/'] <+: q.m_path)
    (hfields : ∀ e ∈ q.m_headers.shown, LineField valueChar e) (relaxed : Bool) (query : Nat)
    (g : List UInt8) :
    ∃ r, (machine relaxed).scan (q.dump ++ g) q.dump 0 .start
        (HttpRequestParser.new 0 relaxed query).reset
        = .ok (q.dump.length - q.m_body.length, .done, r)
      ∧ r.m_error = 0
      ∧ r.m_data = { q with
          m_close := true
          m_headers := FoldedMap.setAll folded (q.fields.trimmed blank) []
          m_body := [] } := by
  obtain ⟨r₁, hline, hr₁⟩ := requestLine_passes relaxed []
    (q.fields.dump ++ (CRLF ++ q.m_body ++ g)) h hslash
    (r := (HttpRequestParser.new 0 relaxed query).reset) rfl rfl
  obtain ⟨r, hscan, hr⟩ := lines_scanned g hline hfields
  rw [hr₁] at hr
  exact ⟨r, hscan, by rw [hr]; rfl, by rw [hr]; rfl⟩

/-- The body is behind the head. -/
theorem HttpRequest.drop_head (q : HttpRequest) :
    q.dump.drop (q.dump.length - q.m_body.length) = q.m_body := by
  rw [HttpRequest.dump_eq, ← append_assoc, length_append, Nat.add_sub_cancel, drop_left]

/-- One call of the parser on a printed request takes exactly the head, and the body moves to
the front. -/
theorem head_executed (h : CleanLine q) (hslash : ¬ [byte '/', byte '/'] <+: q.m_path)
    (hfields : ∀ e ∈ q.m_headers.shown, LineField valueChar e) (relaxed : Bool) (query : Nat)
    (rest : List UInt8) :
    ∃ data s, (HttpRequestParser.new 0 relaxed query).execute (q.dump ++ rest)
        q.dump.length = .ok (q.dump.length - q.m_body.length, data, s)
      ∧ s.isFinished = true ∧ s.hasError = false
      ∧ data.take q.m_body.length = q.m_body
      ∧ s.m_data = { q with
          m_close := true
          m_headers := FoldedMap.setAll folded (q.fields.trimmed blank) []
          m_body := [] } := by
  obtain ⟨r, hscan, herror, hdata⟩ := head_scanned h hslash hfields relaxed query rest
  have hne : q.dump ≠ [] := by
    rw [HttpRequest.dump_eq]
    exact append_ne_nil_of_right_ne_nil _ (cons_ne_nil _ _)
  have hlen : q.m_body.length ≤ q.dump.length := by
    rw [HttpRequest.dump_eq, ← append_assoc, length_append]
    exact Nat.le_add_left _ _
  have hleft : q.dump.length - (q.dump.length - q.m_body.length) = q.m_body.length := by
    omega
  have hmoved := take_moved (p := q.dump.length - q.m_body.length) rest (Nat.sub_le _ _)
  rw [hleft, q.drop_head] at hmoved
  have hexec := execute_piece (s := HttpRequestParser.new 0 relaxed query) rest hne
  rw [show (HttpRequestParser.new 0 relaxed query).cs = .start from rfl,
    show (HttpRequestParser.new 0 relaxed query).uri_relaxed = relaxed from rfl, hscan]
    at hexec
  refine ⟨_, _, hexec, rfl, ?_, ?_, hdata⟩
  · show (r.m_error != 0 || false) = false
    rw [herror]
    rfl
  · dsimp only
    rw [hleft, hmoved]

/-- The header map of the received request. -/
def HttpRequest.receivedHeaders (q : HttpRequest) : MapType :=
  let m := q.m_headers.shown.set (connectionField q.m_close).1 (connectionField q.m_close).2
  if q.m_body = [] then m
  else m.set (bytes "content-length") (printed q.m_body.length)

private theorem folded_connection : folded (bytes "connection") = bytes "connection" := by
  decide +kernel

/-- The fields, assigned in the order in which they are printed. -/
theorem setAll_fields (h : FoldedMap.Sorted folded q.m_headers) :
    FoldedMap.setAll folded q.fields [] = q.receivedHeaders := by
  have hne : ∀ e ∈ q.m_headers.shown, folded e.1 ≠ folded (connectionField q.m_close).1 := by
    intro e he hsame
    have hshown := (mem_filter.mp he).2
    rw [isConnection, hsame, connectionField, folded_connection] at hshown
    cases hshown
  have hshown : FoldedMap.Sorted folded q.m_headers.shown := h.sublist filter_sublist
  show FoldedMap.setAll folded (q.m_headers.shown ++ contentLengthField q.m_body)
    [connectionField q.m_close] = _
  rw [FoldedMap.setAll_append, FoldedMap.setAll_singleton hshown _ hne,
    HttpRequest.receivedHeaders, MapType.set_eq, contentLengthField]
  split
  · rfl
  · rw [MapType.set_eq]
    rfl

/-- What is found in the received map: `connection` as printed, the length of a body that is not
empty, every other field as it was. -/
theorem lookup_receivedHeaders (q : HttpRequest) (key : List UInt8) : q.receivedHeaders.lookup key
      = if isConnection key then some (connectionField q.m_close).2
        else if folded key = bytes "content-length" ∧ q.m_body ≠ [] then
          some (printed q.m_body.length)
        else q.m_headers.lookup key := by
  have hlength : folded (bytes "content-length") = bytes "content-length" := by
    decide +kernel
  have hother : bytes "connection" ≠ bytes "content-length" := by decide +kernel
  have hmap : (q.m_headers.shown.set (connectionField q.m_close).1 (connectionField
    q.m_close).2).lookup key = if isConnection key then some (connectionField q.m_close).2
        else q.m_headers.lookup key := by
    rw [MapType.set_eq, MapType.lookup_eq]
    by_cases hc : isConnection key = true
    · have hsame : folded key = folded (connectionField q.m_close).1 := by
        rw [connectionField, folded_connection]
        exact beq_iff_eq.mp hc
      rw [if_pos hc, FoldedMap.lookup_set_self hsame]
    · have hne : folded key ≠ folded (connectionField q.m_close).1 := by
        rw [connectionField, folded_connection]
        exact fun hsame => hc (beq_iff_eq.mpr hsame)
      rw [if_neg hc, FoldedMap.lookup_set_ne hne, MapType.shown,
        FoldedMap.lookup_filter, MapType.lookup_eq]
      intro e _ hsame
      rw [isConnection, ← hsame, ← isConnection, Bool.eq_false_iff.mpr hc]
      rfl
  rw [HttpRequest.receivedHeaders]
  by_cases hbody : q.m_body = []
  · rw [if_pos hbody, hmap]
    simp only [hbody, ne_eq, not_true_eq_false, and_false, if_false]
  · rw [if_neg hbody]
    by_cases hkey : folded key = bytes "content-length"
    · have hc : ¬ isConnection key = true := by
        rw [isConnection, hkey, beq_iff_eq]
        exact Ne.symm hother
      rw [if_neg hc, if_pos ⟨hkey, hbody⟩, MapType.set_eq, MapType.lookup_eq,
        FoldedMap.lookup_set_self (hkey.trans hlength.symm)]
    · have hne : folded key ≠ folded (bytes "content-length") := by
        rwa [hlength]
      have hcase : ¬ (folded key = bytes "content-length" ∧ q.m_body ≠ []) := fun h => hkey h.1
      rw [MapType.set_eq, MapType.lookup_eq, FoldedMap.lookup_set_ne hne,
        ← MapType.lookup_eq, hmap, if_neg hcase]

/-- A request as an application may build it: its fields in the order of the map, the length of the
body not among them. -/
structure Printable (q : HttpRequest) : Prop extends CleanLine q where
  sorted : FoldedMap.Sorted folded q.m_headers
  clean : ∀ e ∈ q.m_headers, CleanField e
  no_length : ∀ e ∈ q.m_headers, folded e.1 ≠ bytes "content-length"

/-- **A printed request is read back**, if its path does not begin with two slashes: the parser
takes exactly the head, without error, and has the request with its fields, `connection` as printed
and the length of a body that is not empty; the body is left. -/
theorem request_round_trip {q : HttpRequest} (h : Printable q)
    (hslash : ¬ [byte '/', byte '/'] <+: q.m_path) (relaxed : Bool) (query : Nat)
    (rest : List UInt8) :
    ∃ n data s, (HttpRequestParser.new 0 relaxed query).execute (q.dump ++ rest)
        q.dump.length = .ok (n, data, s)
      ∧ s.isFinished = true ∧ s.hasError = false
      ∧ n = q.dump.length - q.m_body.length ∧ q.dump.drop n = q.m_body
      ∧ data.take q.m_body.length = q.m_body
      ∧ s.m_data = { q with m_close := true, m_headers := q.receivedHeaders, m_body := [] }
      ∧ ∀ key, s.m_data.m_headers.lookup key
          = if isConnection key then some (connectionField q.m_close).2
            else if folded key = bytes "content-length" then
              if q.m_body = [] then none else some (printed q.m_body.length)
            else q.m_headers.lookup key := by
  have hshown : ∀ e ∈ q.m_headers.shown, CleanField e := fun e he =>
    h.clean e (mem_filter.mp he).1
  obtain ⟨data, s, hexec, hfinished, herror, htake, hdata⟩ := head_executed h.toCleanLine
    hslash (fun e he => (hshown e he).lineField) relaxed query rest
  rw [MapType.trimmed_clean (fields_clean hshown), setAll_fields h.sorted] at hdata
  refine ⟨_, data, s, hexec, hfinished, herror, rfl, q.drop_head, htake, hdata, fun key => ?_⟩
  rw [hdata]
  show q.receivedHeaders.lookup key = _
  rw [lookup_receivedHeaders]
  split
  · rfl
  · by_cases hkey : folded key = bytes "content-length"
    · have hnone : q.m_headers.lookup key = none := by
        rw [MapType.lookup_eq, FoldedMap.lookup_eq_none]
        intro e he hsame
        exact h.no_length e he (hsame ▸ hkey)
      rw [if_pos hkey, hnone]
      by_cases hnil : q.m_body = []
      · rw [if_neg (fun hcase => hcase.2 hnil), if_pos hnil]
      · rw [if_pos ⟨hkey, hnil⟩, if_neg hnil]
    · rw [if_neg hkey, if_neg (fun hcase => hkey hcase.1)]

/-- A request with all parts. -/
def fullRequest : HttpRequest where
  m_method := .POST
  m_version := 0x10
  m_close := false
  m_path := bytes "/a%20b/c"
  m_query := bytes "x=1"
  m_fragment := bytes "end"
  m_headers := [(bytes "Connection", bytes "upgrade"), (bytes "Host", bytes "h")]
  m_body := bytes "hi"

theorem request_round_trip_full : Printable fullRequest
      ∧ ∃ n data s, (HttpRequestParser.new 0 false 0).execute (fullRequest.dump ++ [])
          fullRequest.dump.length = .ok (n, data, s)
        ∧ s.hasError = false ∧ fullRequest.dump.drop n = bytes "hi"
        ∧ s.m_data.m_path = bytes "/a%20b/c" := by
  have hprintable : Printable fullRequest :=
    ⟨⟨by decide +kernel, Or.inl rfl, rfl, by decide +kernel, by decide +kernel,
      by decide +kernel⟩, by unfold FoldedMap.Sorted; decide +kernel, by decide +kernel,
      by decide +kernel⟩
  obtain ⟨n, data, s, hexec, -, herror, -, hdrop, -, hdata, -⟩ :=
    request_round_trip hprintable (by decide +kernel) false 0 []
  exact ⟨hprintable, n, data, s, hexec, herror, hdrop, by rw [hdata]; rfl⟩

/-- A request whose path begins with two slashes. -/
def slashesRequest : HttpRequest where
  m_path := bytes "//a:b"

/-- **Two slashes**: what follows is read as a host and a port, which is refused. -/
theorem two_slashes_refused : Printable slashesRequest
      ∧ ∃ n data s, (HttpRequestParser.new 0 false 0).execute slashesRequest.dump
          slashesRequest.dump.length = .ok (n, data, s) ∧ s.hasError = true := by
  have hdump : slashesRequest.dump = bytes "GET //a:b HTTP/1.1\r\nconnection: close\r\n\r\n" := by
    decide +kernel
  refine ⟨⟨⟨by decide +kernel, Or.inr rfl, rfl, by decide +kernel, rfl, rfl⟩,
    List.Pairwise.nil, by decide, by decide⟩, ?_⟩
  rw [hdump]
  exact ⟨_, _, _, rfl, rfl⟩

end SylarHttp
