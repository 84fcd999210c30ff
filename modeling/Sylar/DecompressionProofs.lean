import Sylar.RockProtocolProofs
import Sylar.ZlibSessionProofs

/-! # What a decompressing stream reports (`zlib_stream.cc`, `rock_protocol.cc`)

`ZlibStream::decode` looks at one status of `inflate` only: everything but
`Z_STREAM_ERROR` is passed over, and the call returns `Z_OK`.  So a stream
that is broken off, damaged or followed by something else ends like a
complete one, and `parseFrom` goes on with the bytes that came out.

Nothing is assumed of the statuses of `inflate`, except that a legal call is
not refused; of its output, only what it is for a valid stream.

* **`decompression_reported_iff`** — `Z_OK` throughout says that the bytes
  were a valid stream EXACTLY for the valid streams: no other input is ever
  reported.
* **`truncated_is_not_reported`** — a stream without its end, and the message
  that is built from it. -/

namespace SylarDecompression

open Transducer SylarBytearray SylarBytearrayRefinement SylarStream List
open SylarZlibStream SylarZlibSession SylarRockProtocol

/-- What `inflate` emits for a complete valid stream, in whatever pieces it
comes, is its decompression. -/
def Decodes {τ : Type} (M : Machine UInt8 τ)
    (decompress : List UInt8 → Option (List UInt8)) : Prop :=
  ∀ {pieces : List (List UInt8)} {out d : List UInt8},
    decompress pieces.flatten = some d → Produces M pieces out → out = d

section Reported

variable {σ τ : Type} (Z : Zlib σ τ)
  (decompress : List UInt8 → Option (List UInt8))

/-- If all calls return `Z_OK`, the bytes were a complete valid stream, and
`getResult` is its decompression. -/
def Reported (buff_size : Nat) (ws : List Write) : Prop :=
  ∀ fuel rts z, session Z.inflate fuel buff_size ws = some (rts, z) →
    (∀ rt ∈ rts, rt = Z_OK) →
      decompress (ws.flatMap Write.bytes) = some (getResult z)

/-- `parseFrom` builds a message from the compressed payload `wire` only if it
is a complete valid stream. -/
def MessageOnlyIfValid (wire : List UInt8) : Prop :=
  ∀ cfg m_endian fuel header later t msg t', header.flag &&& 1 ≠ 0 →
    Delivers t (wireBytes header wire ++ later) →
    parseFrom cfg Z m_endian fuel t = .ok (some msg) t' →
      (decompress wire).isSome

end Reported

section Spec

variable {σ τ : Type} {Z : Zlib σ τ}

/-- **Decompression failures** are never reported: the calls are right EXACTLY when the bytes are a
complete valid stream. -/
theorem decompression_reported_iff (hM : Interface Z.inflate Z_STREAM_ERROR)
    {decompress : List UInt8 → Option (List UInt8)}
    (hD : Decodes Z.inflate decompress) {buff_size : Nat} (hb : 1 ≤ buff_size)
    {ws : List Write} (hws : ∀ w ∈ ws, w.Valid) :
    (Reported Z decompress buff_size ws ∧ MessageOnlyIfValid Z decompress (ws.flatMap Write.bytes))
      ↔ (decompress (ws.flatMap Write.bytes)).isSome := by
  obtain ⟨n, z₁, z₂, hprod, -, hrun⟩ := session_spec hM hb hws
  constructor
  · rintro ⟨hrep, -⟩
    -- every session ends with `Z_OK` throughout
    have hsome := hrep n _ z₂ (hrun n (Nat.le_refl n)).2.2 fun rt hrt => eq_of_mem_replicate hrt
    rw [hsome]
    rfl
  · intro hvalid
    refine ⟨fun fuel rts z hsession _ => ?_, fun _ _ _ _ _ _ _ _ _ _ _ => hvalid⟩
    obtain ⟨d, hd⟩ := Option.isSome_iff_exists.mp hvalid
    have hmore := session_more_fuel n hsession
    rw [(hrun (fuel + n) (Nat.le_add_left ..)).2.2] at hmore
    obtain ⟨-, rfl⟩ := Prod.mk.inj (Option.some.inj hmore)
    rw [hd]
    rw [← flatten_handed hws] at hd
    rw [hD hd hprod]

/-- A compressed payload of any kind is passed on as far as it was inflated. -/
theorem parseFrom_inflated (hM : Interface Z.inflate Z_STREAM_ERROR)
    {cfg : RockConfig} (hmax : cfg.max_length.toNat ≤ 2 ^ 31) (m_endian : Int8)
    {header : RockMsgHeader} {wire later : List UInt8}
    (hmagic : header.magic = s_rock_magic) (hversion : header.version = 1)
    (hlength : header.length = .ofNat wire.length) (hflag : header.flag &&& 1 ≠ 0)
    (hne : wire ≠ []) (hlen : wire.length < cfg.max_length.toNat) {t : Transport}
    (ht : Delivers t (wireBytes header wire ++ later)) :
    ∃ n t' vs out, vs.flatten = wire ∧ Produces Z.inflate vs out
      ∧ ∀ msg : RockMessage, msg.Fits → ¬ msg.EndsBlock → out = msg.payload →
          ∀ fuel, n ≤ fuel → parseFrom cfg Z m_endian fuel t = .ok (some msg) t' := by
  obtain ⟨t', ba, -, hloaded, hframe⟩ := parseFrame_spec hmax m_endian hmagic
    hversion hlength hne hlen ht
  obtain ⟨n, vs, out, ba', hvs, hprod, hba', hthrough⟩ :=
    throughZlib_spec hM m_endian hloaded (by omega)
  refine ⟨n, t', vs, out, hvs, hprod, fun msg hfit hends hout fuel hfuel => ?_⟩
  have hinfl : inflated Z m_endian fuel header ba t' = .ok (some ba') t' := by
    rw [inflated, if_pos hflag, bind_ok (hthrough fuel hfuel t')]
    rfl
  subst hout
  obtain ⟨s, hparse⟩ := (parsePayload_spec hfit hba').1 hends
  rw [parseFrom, hframe fuel ba' hinfl, bind_ok (onArray_ok hparse t')]
  rfl

end Spec

/-! ## Streams with an end mark -/

def Z_STREAM_END : Int := 1
def Z_BUF_ERROR : Int := -5

/-- The byte that ends a stream. -/
def endMark : UInt8 := 0xff

/-- A stream is its data and the end mark. -/
def unmark (b : List UInt8) : Option (List UInt8) :=
  if b.dropWhile (· != endMark) = [endMark] then some (b.takeWhile (· != endMark))
  else none

/-- The data in a piece of the stream; nothing once the end has been seen. -/
def dataOf (ended : Bool) (input : List UInt8) : List UInt8 :=
  if ended then [] else input.takeWhile (· != endMark)

/-- Copies the data up to the end mark; asked for the end before, it cannot go on. -/
def marked : Machine UInt8 (List UInt8 × Bool) where
  init := ([], false)
  call s input finish avail :=
    let data := s.1 ++ dataOf s.2 input
    let ended := s.2 || input.contains endMark
    { state := (data.drop avail, ended)
      consumed := input.length
      out := data.take avail
      ret := if ended && (data.drop avail).isEmpty then Z_STREAM_END
        else if finish then Z_BUF_ERROR else Z_OK }

private theorem dataOf_nil (ended : Bool) : dataOf ended [] = [] := by
  cases ended <;> rfl

private theorem dataOf_open (input : List UInt8) :
    dataOf false input = input.takeWhile (· != endMark) := rfl

theorem dataOf_append (ended : Bool) (v w : List UInt8) : dataOf ended (v ++ w)
      = dataOf ended v ++ dataOf (ended || v.contains endMark) w := by
  cases ended with
  | true => rfl
  | false =>
    induction v with
    | nil => rfl
    | cons c v ih =>
      by_cases hc : c = endMark
      · subst hc
        rfl
      · have hne : (c != endMark) = true := bne_iff_ne.mpr hc
        have hbeq : (endMark == c) = false := beq_false_of_ne (Ne.symm hc)
        simp only [dataOf_open, Bool.false_or] at ih ⊢
        simp only [cons_append, takeWhile_cons, hne, if_true,
          contains_cons, hbeq, Bool.false_or, ih]

/-- What is owed is what is held back and the data that comes in. -/
def markedInterface : Interface marked Z_STREAM_ERROR where
  owed s input _ := (s.1 ++ dataOf s.2 input).length
  legal _ _ := True
  fits s input _ avail := by
    show ((s.1 ++ dataOf s.2 input).take avail).length ≤ avail
    rw [List.length_take]
    exact Nat.min_le_left ..
  paid s input finish avail := by
    show ((s.1 ++ dataOf s.2 input).take avail).length
      + ((s.1 ++ dataOf s.2 input).drop avail
        ++ dataOf _ (input.drop input.length)).length
      ≤ (s.1 ++ dataOf s.2 input).length
    rw [List.drop_length, dataOf_nil, List.append_nil, ← List.length_append,
      List.take_append_drop]
  legal_init := trivial
  legal_finish _ := trivial
  legal_call {s finish} input avail _ := by
    refine ⟨?_, trivial⟩
    show (if _ then Z_STREAM_END else if finish then Z_BUF_ERROR else Z_OK)
      ≠ Z_STREAM_ERROR
    split
    · decide
    · split <;> decide

variable {s s' : List UInt8 × Bool} {out : List UInt8} {pieces : List (List UInt8)}

theorem marked_drains {finish : Bool} {input : List UInt8}
    (h : Drains marked finish s input out s') :
    out = s.1 ++ dataOf s.2 input ∧ s' = ([], s.2 || input.contains endMark) := by
  induction h with
  | @last s input avail hroom =>
    have hlen : ((s.1 ++ dataOf s.2 input).take avail).length < avail := hroom
    rw [length_take] at hlen
    have hall : (s.1 ++ dataOf s.2 input).length ≤ avail := by omega
    exact ⟨take_of_length_le hall, Prod.ext (drop_eq_nil_of_le hall) rfl⟩
  | @more s s' input out avail hpos hfull rest ih =>
    have hnil : input.drop (marked.call s input finish avail).consumed = [] := drop_length
    obtain ⟨hout, hs'⟩ := ih
    rw [hnil] at hout hs'
    refine ⟨?_, hs'.trans (Prod.ext rfl (Bool.or_false _))⟩
    rw [hout, dataOf_nil, append_nil]
    exact take_append_drop ..

theorem marked_feeds (h : Feeds marked s pieces out s') (hs : s.1 = []) :
    out = dataOf s.2 pieces.flatten ∧ s'.1 = [] := by
  induction h with
  | nil s => exact ⟨(dataOf_nil _).symm, hs⟩
  | @cons s s₁ s₂ piece pieces out out' hdrain _ ih =>
    obtain ⟨hout, rfl⟩ := marked_drains hdrain
    obtain ⟨hout', hs₂⟩ := ih rfl
    refine ⟨?_, hs₂⟩
    rw [hout, hout', hs, nil_append, flatten_cons, dataOf_append]

/-- The machine emits what stands in front of the first end mark. -/
theorem marked_produces (h : Produces marked pieces out) :
    out = pieces.flatten.takeWhile (· != endMark) := by
  obtain ⟨s, s', o, o', hfeed, hdrain, rfl⟩ := h
  obtain ⟨ho, hs⟩ := marked_feeds hfeed rfl
  obtain ⟨ho', -⟩ := marked_drains hdrain
  rw [ho, ho', hs, dataOf_nil, append_nil, append_nil]
  exact dataOf_open _

theorem marked_decodes : Decodes marked unmark := by
  intro pieces out d hd hprod
  rw [unmark] at hd
  split at hd
  · rw [marked_produces hprod]
    exact Option.some.inj hd
  · cases hd

/-- A stream of three bytes and its end mark, in two writes. -/
theorem decompression_reported_iff_marked :
    Reported ⟨copier UInt8, marked⟩ unmark 2 [.raw [1, 2], .raw [3, endMark]]
      ∧ MessageOnlyIfValid ⟨copier UInt8, marked⟩ unmark [1, 2, 3, endMark] := by
  have hws : ∀ w ∈ [Write.raw [1, 2], .raw [3, endMark]], w.Valid := by
    intro w hw
    simp only [mem_cons, not_mem_nil, or_false] at hw
    rcases hw with rfl | rfl <;> simp [Write.Valid]
  exact (decompression_reported_iff (Z := ⟨copier UInt8, marked⟩) markedInterface
    marked_decodes (show 1 ≤ 2 by decide) hws).mpr (by decide)

/-- The same stream without its end mark: `inflate` answers `Z_BUF_ERROR`, `write` and `flush`
return `Z_OK`, and a notification broken off there is built. -/
theorem truncated_is_not_reported :
    (∃ s log buffs, session (recording marked) 5 2 [.raw [1, 2], .raw [3]]
          = some ([Z_OK, Z_OK, Z_OK], ⟨(s, log), 2, buffs⟩)
        ∧ log.getLast?.map Call.ret = some Z_BUF_ERROR)
      ∧ unmark [1, 2, 3] = none
      ∧ ¬ Reported ⟨copier UInt8, marked⟩ unmark 2 [.raw [1, 2], .raw [3]]
      ∧ unmark (RockMessage.notify 7 [0x68]).payload = none
      ∧ ¬ MessageOnlyIfValid ⟨copier UInt8, marked⟩ unmark
          (RockMessage.notify 7 [0x68]).payload := by
  refine ⟨⟨_, _, _, rfl, by decide⟩, by decide, ?_, by decide, ?_⟩
  · intro h
    have hsome := h 5 _ _ (show session marked 5 2 [.raw [1, 2], .raw [3]]
      = some ([Z_OK, Z_OK, Z_OK], _) from rfl) (by decide)
    rw [show unmark ([Write.raw [1, 2], .raw [3]].flatMap Write.bytes) = none by
      decide] at hsome
    cases hsome
  · intro h
    let msg := RockMessage.notify 7 [0x68]
    let header : RockMsgHeader := { flag := 1, length := .ofNat msg.payload.length }
    have hdel : Delivers ⟨true, [.bytes (wireBytes header msg.payload)], [], []⟩
        (wireBytes header msg.payload ++ []) :=
      ⟨rfl, [wireBytes header msg.payload], rfl, by decide, by simp⟩
    obtain ⟨n, t', vs, out, hvs, hprod, hparse⟩ := parseFrom_inflated
      (Z := ⟨copier UInt8, marked⟩) markedInterface
      (show (RockConfig.max_length {}).toNat ≤ 2 ^ 31 by decide) 1 rfl rfl rfl
      (by decide) (by decide) (by decide) hdel
    have hout : out = msg.payload := by
      rw [marked_produces hprod, hvs]
      decide
    have hmsg := hparse msg (show msg.width < 2 ^ 64 by decide) (by decide) hout n (Nat.le_refl n)
    exact absurd (h _ _ _ _ _ _ _ _ (by decide) hdel hmsg) (by decide)

end SylarDecompression
