import Sylar.HttpRoundTripProofs

/-! # URL coding (`util.cc`)

`StringUtil::UrlEncode` and `UrlDecode` go over the string with a pointer.  The result is
made at the first character that is not copied, with what lies in front of it; until then
there is none, and the string itself is returned if there never is.

* **`encode_eq`** — the encoder writes one code for each byte.
* **`decode_code`** — the decoder takes one code and appends its byte.
* **`url_round_trip`** — decoding the encoded string, and what it consists of. -/

namespace SylarUrlCoding

open SylarHttp (byte bytes oneOf alpha digit xdigit unreserved forall_byte)

/-! ## The code -/

/-- The table `uri_chars`. -/
def uri_chars (c : UInt8) : Bool := alpha c || digit c || oneOf ['-', '.', '=', '_', '~'] c

/-- The table `xdigit_chars`. -/
def xdigit_chars (c : UInt8) : UInt8 :=
  if digit c then c - byte '0'
  else if byte 'A' ≤ c ∧ c ≤ byte 'F' then c - byte 'A' + 10
  else if byte 'a' ≤ c ∧ c ≤ byte 'f' then c - byte 'a' + 10
  else 0

/-- `hexdigits[i]`. -/
def hexdigits (i : UInt8) : UInt8 := (bytes "0123456789ABCDEF").getD i.toNat 0

/-- What is appended for a character that is not unreserved. -/
def escaped (space_as_plus : Bool) (c : UInt8) : List UInt8 :=
  if c == byte ' ' && space_as_plus then [byte '+']
  else [byte '%', hexdigits (c >>> 4), hexdigits (c &&& 0xf)]

/-- The loop of `UrlEncode`, with the characters in front of the pointer and behind it. -/
def encodeLoop (space_as_plus : Bool) (pre : List UInt8) :
    List UInt8 → Option (List UInt8) → Option (List UInt8)
  | [], ss => ss
  | c :: rest, ss =>
    if !uri_chars c then
      encodeLoop space_as_plus (pre ++ [c]) rest (some (ss.getD pre ++ escaped space_as_plus c))
    else encodeLoop space_as_plus (pre ++ [c]) rest (ss.map (· ++ [c]))

/-- `StringUtil::UrlEncode`. -/
def UrlEncode (str : List UInt8) (space_as_plus : Bool) : List UInt8 :=
  (encodeLoop space_as_plus [] str none).getD str

/-- The loop of `UrlDecode`. -/
def decodeLoop (space_as_plus : Bool) (pre : List UInt8) :
    List UInt8 → Option (List UInt8) → Option (List UInt8)
  | [], ss => ss
  | c :: rest, ss =>
    if c == byte '+' && space_as_plus then
      decodeLoop space_as_plus (pre ++ [c]) rest (some (ss.getD pre ++ [byte ' ']))
    else
      match rest with
      | h :: l :: rest' =>
          if c == byte '%' && xdigit h && xdigit l then
            decodeLoop space_as_plus (pre ++ [c, h, l]) rest'
              (some (ss.getD pre ++ [xdigit_chars h <<< 4 ||| xdigit_chars l]))
          else decodeLoop space_as_plus (pre ++ [c]) (h :: l :: rest') (ss.map (· ++ [c]))
      | rest => decodeLoop space_as_plus (pre ++ [c]) rest (ss.map (· ++ [c]))

/-- `StringUtil::UrlDecode`. -/
def UrlDecode (str : List UInt8) (space_as_plus : Bool) : List UInt8 :=
  (decodeLoop space_as_plus [] str none).getD str

/-! ## One byte -/

/-- The code of one byte. -/
def code (f : Bool) (c : UInt8) : List UInt8 := if !uri_chars c then escaped f c else [c]

/-- The code of a byte: the byte itself, a plus sign for a space, or a percent sign and two digits,
none of them lower-case. -/
inductive Code (f : Bool) (c : UInt8) : List UInt8 → Prop
  | plain (h : unreserved c = true ∨ c = byte '=') : Code f c [c]
  | plus (hf : f = true) (h : c = byte ' ') : Code f c [byte '+']
  | percent {hi lo : UInt8} (hhi : hi ∈ bytes "0123456789ABCDEF")
      (hlo : lo ∈ bytes "0123456789ABCDEF") : Code f c [byte '%', hi, lo]

private theorem uri_chars_spec : ∀ c : UInt8, uri_chars c = true →
    (unreserved c = true ∨ c = byte '=') ∧ c ≠ byte '+' ∧ c ≠ byte '%' :=
  forall_byte (by decide +kernel)

theorem hexdigits_spec : ∀ c : UInt8, hexdigits (c >>> 4) ∈ bytes "0123456789ABCDEF"
      ∧ hexdigits (c &&& 0xf) ∈ bytes "0123456789ABCDEF"
      ∧ xdigit (hexdigits (c >>> 4)) = true ∧ xdigit (hexdigits (c &&& 0xf)) = true
      ∧ xdigit_chars (hexdigits (c >>> 4)) <<< 4 ||| xdigit_chars (hexdigits (c &&& 0xf)) = c :=
  forall_byte (by decide +kernel)

theorem code_spec (f : Bool) (c : UInt8) : Code f c (code f c) := by
  rw [code]
  by_cases hc : uri_chars c = true
  · rw [hc]
    exact .plain (uri_chars_spec c hc).1
  · rw [Bool.eq_false_iff.mpr hc, Bool.not_false, if_pos rfl, escaped]
    split
    · next hplus =>
      rw [Bool.and_eq_true, beq_iff_eq] at hplus
      exact .plus hplus.2 hplus.1
    · exact .percent (hexdigits_spec c).1 (hexdigits_spec c).2.1

/-! ## The loops -/

/-- The result made so far, or the text it would begin with, grows by one code. -/
theorem encodeLoop_spec (f : Bool) (rest : List UInt8) (pre : List UInt8)
    (ss : Option (List UInt8)) :
    (encodeLoop f pre rest ss).getD (pre ++ rest) = ss.getD pre ++ rest.flatMap (code f) := by
  induction rest generalizing pre ss with
  | nil => simp [encodeLoop]
  | cons c rest ih =>
    have hpre : pre ++ c :: rest = pre ++ [c] ++ rest := by simp
    rw [encodeLoop, hpre, List.flatMap_cons, ← List.append_assoc]
    by_cases hc : uri_chars c = true
    · rw [hc, Bool.not_true, if_neg Bool.false_ne_true, ih, code, hc]
      cases ss <;> rfl
    · rw [Bool.eq_false_iff.mpr hc, Bool.not_false, if_pos rfl, ih, code, Bool.eq_false_iff.mpr hc]
      rfl

/-- **The encoder** writes the code of each byte. -/
theorem encode_eq (s : List UInt8) (f : Bool) : UrlEncode s f = s.flatMap (code f) :=
  encodeLoop_spec f s [] none

/-- **The decoder** takes the code of a byte and appends the byte. -/
theorem decode_code (f : Bool) (c : UInt8) (pre rest : List UInt8) (ss : Option (List UInt8)) :
    ∃ ss', decodeLoop f pre (code f c ++ rest) ss = decodeLoop f (pre ++ code f c) rest ss'
      ∧ ss'.getD (pre ++ code f c) = ss.getD pre ++ [c] := by
  rw [code]
  by_cases hc : uri_chars c = true
  · obtain ⟨-, hplus, hpercent⟩ := uri_chars_spec c hc
    refine ⟨ss.map (· ++ [c]), ?_, by rw [hc]; cases ss <;> rfl⟩
    rw [hc, Bool.not_true, if_neg Bool.false_ne_true, List.singleton_append, decodeLoop.eq_def]
    dsimp only
    rw [beq_false_of_ne hplus, beq_false_of_ne hpercent]
    match rest with
    | [] => rfl
    | [h] => rfl
    | h :: l :: rest' => rfl
  · rw [Bool.eq_false_iff.mpr hc, Bool.not_false, if_pos rfl, escaped]
    by_cases hspace : (c == byte ' ' && f) = true
    · refine ⟨some (ss.getD pre ++ [c]), ?_, rfl⟩
      rw [if_pos hspace, List.singleton_append, decodeLoop.eq_def]
      rw [Bool.and_eq_true, beq_iff_eq] at hspace
      rw [hspace.1, hspace.2]
      rfl
    · obtain ⟨-, -, hhi, hlo, hval⟩ := hexdigits_spec c
      refine ⟨some (ss.getD pre ++ [c]), ?_, rfl⟩
      rw [if_neg hspace, decodeLoop.eq_def]
      show (if _ && xdigit _ && xdigit _ then _ else _) = _
      rw [hhi, hlo, hval]
      exact if_pos rfl

theorem decodeLoop_spec (f : Bool) (s pre : List UInt8) (ss : Option (List UInt8)) :
    (decodeLoop f pre (s.flatMap (code f)) ss).getD (pre ++ s.flatMap (code f))
      = ss.getD pre ++ s := by
  induction s generalizing pre ss with
  | nil => simp [decodeLoop]
  | cons c s ih =>
    obtain ⟨ss', hstep, hss⟩ := decode_code f c pre (s.flatMap (code f)) ss
    rw [List.flatMap_cons, hstep, ← List.append_assoc, ih, hss, List.append_assoc,
      List.singleton_append]

/-- **Round trip**, for every string and both kinds of coding. -/
theorem url_round_trip (s : List UInt8) (f : Bool) : UrlDecode (UrlEncode s f) f = s
      ∧ (∃ codes, UrlEncode s f = codes.flatten ∧ List.Forall₂ (Code f) s codes)
      ∧ Function.Injective fun s => UrlEncode s f := by
  have hback : ∀ s, UrlDecode (UrlEncode s f) f = s := fun s => by
    rw [encode_eq]
    exact decodeLoop_spec f s [] none
  refine ⟨hback s, ⟨s.map (code f), ?_, ?_⟩, Function.LeftInverse.injective
    (g := fun t => UrlDecode t f) hback⟩
  · rw [encode_eq, List.flatMap_def]
  · rw [List.forall₂_map_right_iff, List.forall₂_same]
    exact fun c _ => code_spec f c

end SylarUrlCoding
