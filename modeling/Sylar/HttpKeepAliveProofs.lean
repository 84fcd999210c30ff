import Sylar.HttpTokenProofs

/-! # Several requests on one connection (`http_session.cc`)

`recvRequest` allocates its buffer and its parser anew in each call.  The
read that brings the head of a request brings what has arrived, also bytes
of the next request; these go into the buffer and are gone with it.

* **`recvRequest_within`** — a call whose first read does not go past its
  request returns it and leaves the connection at the next one.
* **`requests_decoded`** — successive calls return the requests just if no first read goes past
  its request. -/

namespace SylarHttp

open ListWindow Segments SylarBytearray SylarStream Scanner List

/-- The bytes of a request that the parser reads as `q`: a head, and a body as
long as the head says. -/
structure WellFormedRequest [LexicalCast] (relaxed : Bool) (R : List UInt8) (q : HttpRequest) :
    Prop where
  parsed : ∃ cs r, (machine relaxed).scan R R 0 .start
      (HttpRequestParser.new 0 relaxed 0).reset = .ok (headLength relaxed R, cs, r)
    ∧ cs.final = true ∧ r.m_error = 0
    ∧ q = { r.m_data with m_body := R.drop (headLength relaxed R) }
  length : (q.getHeaderAs (bytes "content-length") 0).toNat = q.m_body.length

instance [LexicalCast] (relaxed : Bool) (R : List UInt8) (q : HttpRequest) :
    Decidable (WellFormedRequest relaxed R q) :=
  let found : Bool :=
    match (machine relaxed).scan R R 0 .start (HttpRequestParser.new 0 relaxed 0).reset with
    | .error _ => false
    | .ok (k, cs, r) => k = headLength relaxed R ∧ cs.final = true ∧ r.m_error = 0
        ∧ q = { r.m_data with m_body := R.drop (headLength relaxed R) }
  decidable_of_iff (found = true
      ∧ (q.getHeaderAs (bytes "content-length") 0).toNat = q.m_body.length) <| by
    constructor
    · rintro ⟨hfound, hlength⟩
      dsimp only [found] at hfound
      split at hfound
      · cases hfound
      · next k cs r hscan =>
        obtain ⟨rfl, hrest⟩ := of_decide_eq_true hfound
        exact ⟨⟨cs, r, hscan, hrest⟩, hlength⟩
    · rintro ⟨⟨cs, r, hscan, hrest⟩, hlength⟩
      refine ⟨?_, hlength⟩
      dsimp only [found]
      rw [hscan]
      exact decide_eq_true ⟨rfl, hrest⟩

/-- A call of `recvRequest`: its memory, and the next request, as it was sent and as it is read. -/
structure Call where
  memory : Memory
  text : List UInt8
  request : HttpRequest

/-- The length of the head of the request. -/
def Call.head (c : Call) : Nat := headLength c.memory.uri_relaxed c.text

/-- The request is well formed and its head fits into the buffer. -/
structure Call.Valid [LexicalCast] (c : Call) : Prop where
  request : WellFormedRequest c.memory.uri_relaxed c.text c.request
  fits : c.head ≤ c.memory.buffer.length
  small : c.memory.buffer.length < 2 ^ 31

instance [LexicalCast] (c : Call) : Decidable c.Valid :=
  decidable_of_iff (WellFormedRequest c.memory.uri_relaxed c.text c.request
      ∧ c.head ≤ c.memory.buffer.length ∧ c.memory.buffer.length < 2 ^ 31)
    ⟨fun h => ⟨h.1, h.2.1, h.2.2⟩, fun h => ⟨h.request, h.fits, h.small⟩⟩

/-- The bytes of the requests, one behind the other. -/
def stream (calls : List Call) : List UInt8 := (calls.map Call.text).flatten

/-- A piece ends at the boundary of a request or inside a body. -/
def CutsAllowed (calls : List Call) (pieces : List (List UInt8)) : Prop :=
  ∀ k, IsCut pieces k → ∀ done c later, calls = done ++ c :: later →
    k ≤ (stream done).length ∨ (stream done).length + c.head ≤ k

/-- Successive calls return the requests, each leaving exactly the bytes of the later ones. -/
def Decodes [LexicalCast] : List Call → Transport → Prop
  | [], _ => True
  | c :: calls, t => ∃ t', recvRequest c.memory t = .ok (some c.request) t'
    ∧ Delivers t' (stream calls) ∧ Decodes calls t'

/-- How many bytes the first read of a call brings. -/
def firstRead (c : Call) : List (List UInt8) → Nat
  | [] => 0
  | piece :: _ => min piece.length c.memory.buffer.length

/-- No error in the memory, no byte of a later request in the first read, and a body whose length is
an `int64_t` and whose part behind the first read is positive as an `int`. -/
def Within (c : Call) (pieces : List (List UInt8)) : Prop :=
  c.memory.m_error = 0 ∧ firstRead c pieces ≤ c.text.length
    ∧ c.text.length - c.head < 2 ^ 63
    ∧ (c.text.length = firstRead c pieces
      ∨ 0 < intOf (c.text.length - firstRead c pieces))

/-- The same for every call, on what the earlier requests leave. -/
def AllWithin : List Call → List (List UInt8) → Prop
  | [], _ => True
  | c :: calls, pieces =>
    Within c pieces ∧ AllWithin calls (skip c.text.length pieces)

instance (c : Call) (pieces : List (List UInt8)) : Decidable (Within c pieces) :=
  inferInstanceAs (Decidable (_ ∧ _ ∧ _ ∧ _))

instance decidableAllWithin :
    ∀ (calls : List Call) (pieces : List (List UInt8)), Decidable (AllWithin calls pieces)
  | [], _ => inferInstanceAs (Decidable True)
  | c :: calls, pieces =>
    have := decidableAllWithin calls (skip c.text.length pieces)
    inferInstanceAs (Decidable (_ ∧ _))

/-! ## The head -/

section Head

variable {relaxed : Bool} {R : List UInt8} {q : HttpRequest}

theorem WellFormedRequest.head_pos [LexicalCast] (h : WellFormedRequest relaxed R q) :
    0 < headLength relaxed R := by
  obtain ⟨cs, r, hscan, hcs, -⟩ := h.parsed
  refine scan_takes hscan (dead_of_final hcs) ?_
  rintro rfl
  cases hcs

/-- The head in another buffer: the same request is read from any piece that begins with the
head. -/
theorem WellFormedRequest.scan_piece [LexicalCast] (h : WellFormedRequest relaxed R q)
    {p : List UInt8} (g : List UInt8) (query : Nat)
    (hp : p.take (headLength relaxed R) = R.take (headLength relaxed R)) :
    ∃ cs r, (machine relaxed).scan (p ++ g) p 0 .start (HttpRequestParser.new 0 relaxed query).reset
        = .ok (headLength relaxed R, cs, r)
      ∧ cs.final = true ∧ r.m_error = 0
      ∧ q = { r.m_data with m_body := R.drop (headLength relaxed R) } := by
  obtain ⟨cs, r, hscan, hcs, hr, hq⟩ := h.parsed
  have hle : headLength relaxed R ≤ R.length := span_le _ _ _
  have hlen : (R.take (headLength relaxed R)).length = headLength relaxed R := by
    rw [length_take]
    exact Nat.min_eq_left hle
  -- the scan of the head alone, in lockstep with the scan of all of `R`
  have hwhole := tokensWhole_single relaxed (R.take (headLength relaxed R))
  rw [tokensWhole, Machine.whole] at hwhole
  cases hwalk : (machine relaxed).walk Act.after (R.take (headLength relaxed R)) .start .stale with
  | none =>
    rw [hwalk] at hwhole
    cases hwhole
  | some qf =>
  obtain ⟨cs', f⟩ := qf
  have hstart : Aligned ([] : List UInt8).length 0 .stale (HttpRequestParser.new 0 relaxed 0).reset
      (HttpRequestParser.new 0 relaxed query).reset := aligned_stale rfl
  have hsplit : R = R.take (headLength relaxed R) ++ R.drop (headLength relaxed R) :=
    (take_append_drop ..).symm
  have hwholeScan : (machine relaxed).scan
      ([] ++ (R.take (headLength relaxed R) ++ R.drop (headLength relaxed R)))
      (R.take (headLength relaxed R) ++ R.drop (headLength relaxed R)) 0 .start
      (HttpRequestParser.new 0 relaxed 0).reset = .ok (headLength relaxed R, cs, r) := by
    rw [nil_append, ← hsplit]
    exact hscan
  obtain ⟨k, r₂, hscan₂, hagrees⟩ := scan_lockstep (actions_lockstep relaxed)
    (p.drop (headLength relaxed R) ++ g) rfl hwalk hstart hwholeScan
  cases hagrees with
  | stops hstop hk hle₂ hal =>
    rw [length_nil, Nat.zero_add] at hk
    refine ⟨cs, r₂, ?_, hcs, hal.parsed ▸ hr, ?_⟩
    · have happ := scan_append (p.drop (headLength relaxed R)) _ hscan₂ fun _ => rfl
      rw [hstop, if_pos rfl, ← hp, ← append_assoc, take_append_drop, ← hk] at happ
      exact happ
    · rw [hq, hal.parsed]
  | goesOn hrun hrest hal =>
    -- the scan would go on behind the head
    exfalso
    have hlt := scan_takes hrest (dead_of_final hcs) (by
      rintro rfl
      rw [Machine.stopped, Bool.or_eq_false_iff] at hrun
      exact Bool.false_ne_true (hrun.2.symm.trans hcs))
    rw [length_nil, Nat.zero_add, hlen] at hlt
    exact Nat.lt_irrefl _ hlt

end Head

/-! ## One call -/

/-- A connection before a call: the first piece holds the head, all are the request and what comes
behind it. -/
structure Pending (c : Call) (later : List UInt8) (pieces : List (List UInt8))
    (t : Transport) : Prop where
  connected : t.connected = true
  incoming : t.incoming = pieces.map .bytes
  solid : Solid pieces
  bytes_eq : pieces.flatten = c.text ++ later
  head_le : c.head ≤ firstRead c pieces

/-- The connection when `n` bytes have been taken. -/
def leftOver (n : Nat) (pieces : List (List UInt8)) (t : Transport) : Transport :=
  { t with incoming := (skip n pieces).map .bytes }

theorem recv_firstRead {c : Call} {later : List UInt8} {pieces : List (List UInt8)}
    {t : Transport} (h : Pending c later pieces t) (hpos : 0 < firstRead c pieces) :
    firstRead c pieces ≤ pieces.flatten.length
    ∧ t.recv c.memory.buffer.length = ((firstRead c pieces : Int),
        pieces.flatten.take (firstRead c pieces),
        leftOver (firstRead c pieces) pieces t) := by
  have hin := h.incoming
  cases pieces with
  | nil => cases hpos
  | cons piece rest =>
    obtain ⟨hne, hrest⟩ := solid_cons.mp h.solid
    rw [map_cons] at hin
    rw [firstRead, flatten_cons, length_append, leftOver]
    refine ⟨by omega, ?_⟩
    by_cases hfit : piece.length ≤ c.memory.buffer.length
    · rw [Nat.min_eq_left hfit, skip_length hrest, take_left]
      simp only [Transport.recv, hin, if_pos hfit]
    · rw [Nat.min_eq_right (by omega), skip, if_neg hfit, take_append_of_le_length (by omega)]
      simp only [Transport.recv, hin, if_neg hfit, map_cons]

/-- A call up to the body: what follows the head in the first read is in the buffer. -/
theorem recvRequest_head [LexicalCast] {c : Call} {later : List UInt8} {pieces : List (List UInt8)}
    {t : Transport} (hc : c.Valid) (h : Pending c later pieces t)
    (herror : c.memory.m_error = 0) :
    ∃ q data, q.m_body = [] ∧ c.request = { q with m_body := c.text.drop c.head }
      ∧ data.take (firstRead c pieces - c.head)
        = ((c.text ++ later).take (firstRead c pieces)).drop c.head
      ∧ recvRequest c.memory t
        = recvBody q (c.request.getHeaderAs (bytes "content-length") 0).toInt64.toInt
            data (firstRead c pieces - c.head)
            (leftOver (firstRead c pieces) pieces t) := by
  have hhead : 0 < c.head := hc.request.head_pos
  have hle := h.head_le
  obtain ⟨hall, hrecv⟩ := recv_firstRead h (by omega)
  have hfit : firstRead c pieces ≤ c.memory.buffer.length := by
    cases pieces with
    | nil => exact Nat.zero_le _
    | cons piece rest => exact Nat.min_le_right _ _
  have hlen : (pieces.flatten.take (firstRead c pieces)).length = firstRead c pieces := by
    rw [length_take]
    omega
  have hprefix : (pieces.flatten.take (firstRead c pieces)).take c.head = c.text.take c.head := by
    rw [take_take, Nat.min_eq_left hle, h.bytes_eq]
    exact take_append_of_le_length (span_le _ _ _)
  obtain ⟨cs, r, hscan, hcs, hr, hq⟩ := hc.request.scan_piece
    (c.memory.buffer.drop (pieces.flatten.take (firstRead c pieces)).length)
    c.memory.query_start hprefix
  obtain ⟨data, hdata, htake, hloop⟩ := recvLoop_piece
    (s := HttpRequestParser.new 0 c.memory.uri_relaxed c.memory.query_start) t.work
    h.connected (hrecv.trans (by rw [hlen])) (ne_nil_of_length_pos (by omega)) (by omega)
    hscan
  rw [hlen] at htake hloop
  rw [afterExecute_finished rfl hcs hr (by rw [← Call.head]; omega)] at hloop
  refine ⟨r.m_data, data, scan_m_body hscan rfl, hq, ?_, ?_⟩
  · rw [← h.bytes_eq]
    exact htake
  · rw [recvRequest_eq, herror, bind_ok hloop, hq]
    rfl

variable {t' : Transport} {offset : Nat} {data : List UInt8} {calls : List Call}

/-- A call that returns a request found no error in its memory. -/
theorem m_error_of_recvRequest [LexicalCast] {m : Memory} {t : Transport} {q : HttpRequest}
    (h : recvRequest m t = .ok (some q) t') : m.m_error = 0 := by
  rw [recvRequest_eq] at h
  obtain ⟨res, t₁, hloop, h⟩ := of_bind_ok h
  cases res with
  | none => cases h
  | some x =>
    obtain ⟨s, data, offset⟩ := x
    by_contra hne
    obtain ⟨hs, herr⟩ := recvLoop_invariant (P := fun x => x.m_error ≠ 0)
      (fun hp => (perform_calls hp).stores.m_error_ne) _ hloop hne
    refine herr ?_
    rw [HttpRequestParser.hasError, bne_iff_ne.mpr hs, Bool.true_or]

/-! ## The body -/

/-- A body that is in the buffer: nothing more is read. -/
theorem recvBody_buffered (q : HttpRequest) {length : Int} (data : List UInt8)
    (t : Transport) (h : length ≤ offset) :
    ∃ body, recvBody q length data offset t = .ok (some { q with m_body := body }) t
      ∧ (length = offset → q.m_body = [] → body = data.take offset) := by
  rw [recvBody]
  by_cases hpos : 0 < length
  · rw [if_pos hpos, if_neg (by omega)]
    refine ⟨_, rfl, fun heq _ => ?_⟩
    rw [if_pos (by omega)]
  · rw [if_neg hpos]
    refine ⟨q.m_body, rfl, fun heq hq => ?_⟩
    obtain rfl : offset = 0 := by omega
    rw [hq, take_zero]

/-- A body of which the part `b` is still to come. -/
theorem recvBody_missing {q : HttpRequest} {b : List UInt8} {t : Transport}
    {segs : List (List UInt8)} (hconn : t.connected = true) (hin : t.incoming = segs.map .bytes)
    (hsolid : Solid segs) (hb : b <+: segs.flatten) (hpos : 0 < b.length)
    (hsize : b.length < 2 ^ 64) :
    recvBody q ((offset : Int) + b.length) data offset t = if 0 < intOf b.length then
          .ok (some { q with m_body := data.take offset ++ b }) (leftOver b.length segs t)
        else .ok none { leftOver b.length segs t with connected := false } := by
  have hmore : ((offset : Int) + b.length - offset).toNat = b.length := by omega
  have hread := readFixSize_skip (replicate b.length 0) hconn hin hsolid hb length_replicate hsize
  rw [recvBody, if_pos (by omega), if_pos (show (offset : Int) ≤ offset + b.length by omega),
    if_pos (by omega), hmore, bind_ok (onStream_ok hread)]
  dsimp only
  by_cases hint : 0 < intOf b.length
  · rw [if_neg (by omega), if_pos hint]
    rfl
  · rw [if_pos (by omega), if_neg hint]
    rfl

section Call

variable {c : Call} {later : List UInt8} {pieces : List (List UInt8)} {t : Transport}

/-- The part of the body that the first read does not bring. -/
theorem recvBody_rest {q : HttpRequest} (h : Pending c later pieces t)
    (hlt : firstRead c pieces < c.text.length) (hlong : c.text.length - c.head < 2 ^ 63) :
    recvBody q (c.text.length - c.head : Nat) data (firstRead c pieces - c.head)
        (leftOver (firstRead c pieces) pieces t)
      = if 0 < intOf (c.text.length - firstRead c pieces) then
          .ok (some { q with
              m_body := data.take (firstRead c pieces - c.head)
                ++ c.text.drop (firstRead c pieces) }) (leftOver c.text.length pieces t)
        else .ok none { leftOver c.text.length pieces t with connected := false } := by
  have hhead := h.head_le
  have hmiss : (c.text.drop (firstRead c pieces)).length
      = c.text.length - firstRead c pieces := length_drop
  have hsum : ((c.text.length - c.head : Nat) : Int) = (firstRead c pieces - c.head : Nat)
        + (c.text.drop (firstRead c pieces)).length := by omega
  have hprefix : c.text.drop (firstRead c pieces)
      <+: (skip (firstRead c pieces) pieces).flatten := by
    rw [flatten_skip, h.bytes_eq, drop_append_of_le_length (by omega)]
    exact prefix_append _ _
  have hleft : leftOver (c.text.length - firstRead c pieces)
      (skip (firstRead c pieces) pieces) (leftOver (firstRead c pieces) pieces t)
      = leftOver c.text.length pieces t := by
    rw [leftOver, leftOver, skip_skip, leftOver,
      show firstRead c pieces + (c.text.length - firstRead c pieces) = c.text.length by omega]
  rw [hsum, recvBody_missing (t := leftOver (firstRead c pieces) pieces t) h.connected rfl
    (h.solid.skip _) hprefix (by omega) (by omega), hmiss, hleft]

theorem content_length_eq [LexicalCast] (hc : c.Valid) :
    (c.request.getHeaderAs (bytes "content-length") 0).toNat
      = c.text.length - c.head := by
  obtain ⟨cs, r, -, -, -, hq⟩ := hc.request.parsed
  rw [hc.request.length, hq]
  exact length_drop

/-- **A first read that does not go past its request**: the call returns it and leaves what comes
behind. -/
theorem recvRequest_within [LexicalCast] (hc : c.Valid) (h : Pending c later pieces t)
    (hw : Within c pieces) :
    recvRequest c.memory t = .ok (some c.request) (leftOver c.text.length pieces t) := by
  obtain ⟨herror, hle, hlong, hint⟩ := hw
  obtain ⟨q, data, hq, hreq, htake, hrecv⟩ := recvRequest_head hc h herror
  have hlen := content_length_eq hc
  have hhead := h.head_le
  rw [take_append_of_le_length hle] at htake
  rw [hrecv, toInt64_of_lt (by omega), hlen, hreq]
  rcases Nat.eq_or_lt_of_le hle with heq | hlt
  · obtain ⟨body, hres, hbody⟩ := recvBody_buffered q data (leftOver (firstRead c pieces) pieces t)
      (show ((c.text.length - c.head : Nat) : Int) ≤ (firstRead c pieces - c.head : Nat) by omega)
    rw [hres, hbody (by omega) hq, htake, heq, take_length]
  · have hbody : (c.text.take (firstRead c pieces)).drop c.head
        ++ c.text.drop (firstRead c pieces) = c.text.drop c.head := by
      rw [← drop_append_of_le_length (by rw [length_take]; omega), take_append_drop]
    rw [recvBody_rest h hlt hlong, if_pos (hint.resolve_left (by omega)), htake, hbody]

/-- Conversely, a call that returns the request and leaves what comes behind it
met the condition. -/
theorem within_of_recvRequest [LexicalCast] (hc : c.Valid) (h : Pending c later pieces t)
    (hres : recvRequest c.memory t = .ok (some c.request) t') (hdel : Delivers t' later) :
    Within c pieces := by
  have herror := m_error_of_recvRequest hres
  obtain ⟨q, data, hq, hreq, htake, hrecv⟩ := recvRequest_head hc h herror
  have hlen := content_length_eq hc
  have hhead := h.head_le
  have hpos : 0 < c.head := hc.request.head_pos
  rw [hrecv] at hres
  have hlong : c.text.length - c.head < 2 ^ 63 := by
    -- a negative length: the request is returned without its body
    by_contra hlong
    have hneg : (c.request.getHeaderAs (bytes "content-length") 0).toInt64.toInt < 0 :=
      toInt64_of_le (by omega)
    rw [recvBody, if_neg (by omega)] at hres
    have hsame : q = c.request := by
      cases hres
      rfl
    rw [hreq] at hsame
    have hbody := congrArg (fun q => q.m_body.length) hsame
    rw [hq, length_nil, length_drop] at hbody
    omega
  rw [toInt64_of_lt (by omega), hlen] at hres
  have hle : firstRead c pieces ≤ c.text.length := by
    -- the first bytes of what comes behind would be gone
    by_contra hgt
    obtain ⟨hall, -⟩ := recv_firstRead h (by omega)
    obtain ⟨body, hbody, -⟩ := recvBody_buffered q data (leftOver (firstRead c pieces) pieces t)
      (show ((c.text.length - c.head : Nat) : Int) ≤ (firstRead c pieces - c.head : Nat) by omega)
    rw [hbody] at hres
    have ht : leftOver (firstRead c pieces) pieces t = t' := (EStateM.Result.ok.inj hres).2
    subst ht
    have hleft := hdel.bytes_eq rfl
    rw [flatten_skip, h.bytes_eq] at hleft
    rw [h.bytes_eq, length_append] at hall
    have hshort := congrArg length hleft
    rw [length_drop, length_append] at hshort
    omega
  refine ⟨herror, hle, hlong, ?_⟩
  by_contra hcon
  obtain ⟨hne, hint⟩ := not_or.mp hcon
  rw [recvBody_rest h (by omega) hlong, if_neg hint] at hres
  cases hres

end Call

/-! ## All calls -/

theorem CutsAllowed.head_le [LexicalCast] {c : Call} {pieces : List (List UInt8)}
    (h : CutsAllowed (c :: calls) pieces) (hc : c.Valid) (hsolid : Solid pieces)
    (hbytes : pieces.flatten = c.text ++ stream calls) : c.head ≤ firstRead c pieces := by
  have hpos : 0 < c.head := hc.request.head_pos
  have hlen : c.head ≤ c.text.length := span_le _ _ _
  have hfits := hc.fits
  cases pieces with
  | nil =>
    have hnil := congrArg length hbytes
    rw [flatten_nil, length_nil, length_append] at hnil
    omega
  | cons piece rest =>
    have hne := length_pos_iff.mpr (solid_cons.mp hsolid).1
    have hcut : IsCut (piece :: rest) piece.length :=
      ⟨[piece], rest, rfl, by rw [flatten_singleton]⟩
    have hcase := h piece.length hcut [] c calls rfl
    rw [show (stream []).length = 0 from rfl] at hcase
    rw [firstRead]
    omega

theorem CutsAllowed.skip {c : Call} {pieces : List (List UInt8)}
    (h : CutsAllowed (c :: calls) pieces) :
    CutsAllowed calls (Segments.skip c.text.length pieces) := by
  rintro k hk done c' later rfl
  rcases isCut_skip hk with rfl | hcut
  · exact Or.inl (Nat.zero_le _)
  · have hcase := h _ hcut (c :: done) c' later rfl
    have hdone : (stream (c :: done)).length = c.text.length + (stream done).length := by
      rw [stream, map_cons, flatten_cons, length_append]
      rfl
    omega

theorem decodes_iff [LexicalCast] (calls : List Call) {pieces : List (List UInt8)} {t : Transport}
    (hvalid : ∀ c ∈ calls, c.Valid) (hconn : t.connected = true)
    (hin : t.incoming = pieces.map .bytes) (hsolid : Solid pieces)
    (hbytes : pieces.flatten = stream calls) (hcuts : CutsAllowed calls pieces) :
    (Decodes calls t ↔ AllWithin calls pieces) := by
  induction calls generalizing pieces t with
  | nil =>
    exact Iff.rfl
  | cons c calls ih =>
    obtain ⟨hc, hrest⟩ := forall_mem_cons.mp hvalid
    have hpending : Pending c (stream calls) pieces t :=
      ⟨hconn, hin, hsolid, hbytes, hcuts.head_le hc hsolid hbytes⟩
    have hflat : (skip c.text.length pieces).flatten = stream calls := by
      rw [flatten_skip, hbytes]
      exact drop_left
    have hnext := ih (t := leftOver c.text.length pieces t) hrest hconn rfl
      (hsolid.skip _) hflat hcuts.skip
    constructor
    · rintro ⟨t', hrecv, hdel, hdec⟩
      have hw := within_of_recvRequest hc hpending hrecv hdel
      rw [recvRequest_within hc hpending hw] at hrecv
      cases hrecv
      exact ⟨hw, hnext.mp hdec⟩
    · rintro ⟨hw, hall⟩
      exact ⟨_, recvRequest_within hc hpending hw,
        ⟨hconn, _, rfl, hsolid.skip _, hflat⟩, hnext.mpr hall⟩

/-- **Successive requests on a connection**, one behind the other, in non-empty pieces that end
at the boundaries of the requests or inside bodies.  The calls return them in order,
each leaving exactly the later ones, just if for every call the first read brings no byte
of a later request, the length of the body is an `int64_t`, the length of what the first
read does not bring is positive as an `int`, and the memory holds no error. -/
theorem requests_decoded [LexicalCast] {calls : List Call} {pieces : List (List UInt8)}
    (hvalid : ∀ c ∈ calls, c.Valid) (hne : ∀ p ∈ pieces, p ≠ [])
    (hbytes : pieces.flatten = stream calls) (hcuts : CutsAllowed calls pieces) :
    Decodes calls (connection pieces) ↔ AllWithin calls pieces :=
  decodes_iff calls hvalid rfl rfl hne hbytes hcuts

/-- A request with a body of two bytes. -/
def postCall : Call :=
  ⟨memory64, bytes "POST / HTTP/1.1\r\nContent-Length: 2\r\n\r\nhi", postHi⟩

/-- A request without a body. -/
def getCall : Call := ⟨memory64, bytes "GET / HTTP/1.1\r\n\r\n", {}⟩

private theorem two_valid : ∀ c ∈ [postCall, getCall], c.Valid := by
  decide +kernel

/-- The cuts that are allowed for the two requests. -/
theorem two_cutsAllowed {pieces : List (List UInt8)}
    (h : ∀ k, IsCut pieces k → k = 0 ∨ 38 ≤ k ∧ k ≤ 40 ∨ k = 58) :
    CutsAllowed [postCall, getCall] pieces := by
  have hpost : postCall.head = 38 := by decide +kernel
  have hget : getCall.head = 18 := by decide +kernel
  have hlen : (stream [postCall]).length = 40 := by decide +kernel
  intro k hk done c later hcalls
  have hcase := h k hk
  rcases done with _ | ⟨d, _ | ⟨e, done⟩⟩
  · cases hcalls
    rw [hpost, show (stream []).length = 0 from rfl]
    omega
  · cases hcalls
    rw [hget, hlen]
    omega
  · have hlong := congrArg length hcalls
    simp at hlong

/-- A cut inside the first body; the second piece brings its rest and the second request. -/
theorem requests_decoded_two : Decodes [postCall, getCall] (connection
      [bytes "POST / HTTP/1.1\r\nContent-Length: 2\r\n\r\nh",
        bytes "iGET / HTTP/1.1\r\n\r\n"]) := by
  refine (requests_decoded two_valid (by decide) (by decide +kernel)
    (two_cutsAllowed fun k hk => ?_)).mpr (by decide +kernel)
  rcases isCut_cons.mp hk with rfl | ⟨d, hd, rfl⟩
  · exact Or.inl rfl
  rcases isCut_cons.mp hd with rfl | ⟨e, he, rfl⟩
  · exact Or.inr (Or.inl (by decide))
  rw [isCut_nil.mp he]
  exact Or.inr (Or.inr (by decide))

/-- **Two requests in one read**: the second one is gone, and the next call
returns the null pointer. -/
theorem second_request_dropped : (∀ c ∈ [postCall, getCall], c.Valid)
      ∧ CutsAllowed [postCall, getCall] [postCall.text ++ getCall.text]
      ∧ ∃ t t', recvRequest memory64 (connection [postCall.text ++ getCall.text])
          = .ok (some postCall.request) t
        ∧ recvRequest memory64 t = .ok none t' := by
  refine ⟨two_valid, two_cutsAllowed fun k hk => ?_, connection [], _, rfl, rfl⟩
  rcases isCut_cons.mp hk with rfl | ⟨d, hd, rfl⟩
  · exact Or.inl rfl
  rw [isCut_nil.mp hd]
  exact Or.inr (Or.inr (by decide +kernel))

end SylarHttp
