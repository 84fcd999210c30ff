import Sylar.HttpMessageProofs
import Sylar.HttpSessionProofs

/-! # Serving a connection (`http_server.cc`)

`HttpServer::handleClient` receives a request, lets the servlets answer it,
sends the response, and goes on to the next request unless the connection
is to be closed.  A request says so by `isClose()`, which `dump` prints as
the field `connection`; but no callback of the parser sets it from there.

* **`recvRequest_m_close`** — every received request has `isClose()`.
* **`handleClient_answers_once`** — at most the first request is answered.
* **`keep_alive_negotiated`** — so a request is received with its own `isClose()` just if that is
  true. -/

namespace SylarHttp

open SylarBytearray SylarStream Scanner

/-! ## `HttpServer` -/

/-- A server: its fields, what the servlets behind `m_dispatch` do with a response, and the memory
of each round. -/
structure HttpServer where
  m_isKeepalive : Bool
  m_name : List UInt8
  handle : HttpRequest → HttpResponse → HttpResponse
  memory : Nat → Memory
  websocket : Nat → Bool

/-- `HttpSession::sendResponse`. -/
def sendResponse (rsp : HttpResponse) : HttpM Int :=
  onStream (writeFixSize rsp.dump)

/-- The response to a request in a round. -/
def HttpServer.respond (s : HttpServer) (round : Nat) (req : HttpRequest) :
    HttpResponse :=
  let rsp := HttpResponse.new req.m_version (req.m_close || !s.m_isKeepalive)
    (s.websocket round)
  s.handle req (rsp.setHeader (bytes "Server") s.m_name)

/-- The loop of `handleClient`: the responses that were sent. -/
def HttpServer.serve [LexicalCast] (s : HttpServer) : Nat → Nat → HttpM (List HttpResponse)
  | 0, _ => throw (.stream .stuck)
  | fuel + 1, round => do
    match ← recvRequest (s.memory round) with
    | none => pure []
    | some req =>
        let rsp := s.respond round req
        let _ ← sendResponse rsp
        if !s.m_isKeepalive || req.m_close then pure [rsp]
        else
          let rest ← s.serve fuel (round + 1)
          pure (rsp :: rest)

/-- **`HttpServer::handleClient`**: the responses that were sent. -/
def HttpServer.handleClient [LexicalCast] (s : HttpServer) : HttpM (List HttpResponse) := do
  let t ← get
  let rsps ← s.serve (t.work + 1) 0
  close
  pure rsps

/-- All of `n` requests are answered; every answer but the last keeps the connection, which is then
closed. -/
def AnswersAll (n : Nat)
    (result : EStateM.Result HttpFault Transport (List HttpResponse)) : Prop :=
  ∃ rsps last t, result = .ok (rsps ++ [last]) t ∧ rsps.length + 1 = n
    ∧ (∀ rsp ∈ rsps, connectionLine false <:+: rsp.dump) ∧ t.connected = false

/-! ## What the parser does with `m_close` -/

/-- **No callback sets `m_close`.** -/
theorem Calls.m_close {x y : Parsed} (h : Calls x y) : y.m_data.m_close = x.m_data.m_close := by
  cases h with
  | nothing | fragment | query | path => rfl
  | method at_ =>
    rw [on_request_method]
    split <;> rfl
  | version at_ n =>
    rw [on_request_version]
    split <;> rfl
  | http_field field flen value =>
    rw [on_request_http_field]
    split <;> rfl

variable {q : HttpRequest} {t t' : Transport}

theorem recvBody_m_close {q' : HttpRequest} {length : Int} {data : List UInt8}
    {offset : Nat} (h : recvBody q length data offset t = .ok (some q') t') :
    q'.m_close = q.m_close := by
  rw [recvBody] at h
  by_cases hpos : 0 < length
  · rw [if_pos hpos] at h
    by_cases hmore : 0 < length - offset
    · rw [if_pos hmore] at h
      obtain ⟨⟨rt, rest⟩, t₁, -, h⟩ := of_bind_ok h
      dsimp only at h
      split_ifs at h
      · cases h
      · cases h
        rfl
      · cases h
        rfl
    · rw [if_neg hmore] at h
      cases h
      rfl
  · rw [if_neg hpos] at h
    cases h
    rfl

/-- **Every received request has `isClose()`**, as the constructor left it. -/
theorem recvRequest_m_close [LexicalCast] {m : Memory} (h : recvRequest m t = .ok (some q) t') :
    q.m_close = true := by
  rw [recvRequest_eq] at h
  obtain ⟨res, t₁, hloop, h⟩ := of_bind_ok h
  cases res with
  | none => cases h
  | some x =>
    obtain ⟨s, data, offset⟩ := x
    obtain ⟨hs, -⟩ := recvLoop_invariant (P := fun x => x.m_data.m_close = true)
      (fun hp hr => (perform_calls hp).m_close.trans hr) _ hloop rfl
    exact (recvBody_m_close h).trans hs

/-! ## One round -/

/-- After a request is received and its response sent, the connection is closed. -/
theorem handleClient_received [LexicalCast] {s : HttpServer}
    (hrecv : recvRequest (s.memory 0) t = .ok (some q) t') (hsend : Accepts t')
    (hsize : (s.respond 0 q).dump.length < 2 ^ 64) :
    ∃ t'', s.handleClient t = .ok [s.respond 0 q] t'' ∧ t''.connected = false
      ∧ t''.incoming = t'.incoming := by
  obtain ⟨u, hwrite, -, -, hin⟩ := writeFixSize_spec hsend hsize
  have hsent : sendResponse (s.respond 0 q) t' = .ok _ u := onStream_ok hwrite
  have hserve : s.serve (t.work + 1) 0 t = .ok [s.respond 0 q] u := by
    rw [HttpServer.serve, bind_ok hrecv]
    dsimp only
    rw [bind_ok hsent, recvRequest_m_close hrecv, Bool.or_true]
    rfl
  refine ⟨{ u with connected := false }, ?_, rfl, hin⟩
  show (s.serve (t.work + 1) 0 >>= fun rsps => close >>= fun _ => pure rsps) t = _
  rw [bind_ok hserve]
  rfl

/-- **At most one answer** on a connection, whatever arrives, keepalive or not: that to the
first request. -/
theorem handleClient_answers_once [LexicalCast] {s : HttpServer} {rsps : List HttpResponse}
    (h : s.handleClient t = .ok rsps t') :
    (rsps = [] ∨ ∃ q u, recvRequest (s.memory 0) t = .ok (some q) u ∧ rsps = [s.respond 0 q])
      ∧ t'.connected = false := by
  obtain ⟨_, t₁, hserve, hclose⟩ := of_bind_ok (x := s.serve (t.work + 1) 0) h
  cases hclose
  refine ⟨?_, rfl⟩
  rw [HttpServer.serve] at hserve
  obtain ⟨res, t₂, hrecv, hrest⟩ := of_bind_ok hserve
  cases res with
  | none =>
    cases hrest
    exact .inl rfl
  | some q =>
    obtain ⟨rt, t₃, -, hrest⟩ := of_bind_ok hrest
    rw [recvRequest_m_close hrecv, Bool.or_true] at hrest
    cases hrest
    exact .inr ⟨q, t₂, hrecv, rfl⟩

/-- **All links of the chain.**  A request that is sent by `dump` and read back has the
sender's `isClose()` just if that is true.  And when all sends succeed, a server answers
all of a sequence of requests of which only the last has `isClose()` just if the sequence
is one request. -/
theorem keep_alive_negotiated [LexicalCast] (s : HttpServer) :
    (∀ (r q : HttpRequest) (m : Memory) (t t' : Transport), Delivers t r.dump →
        recvRequest m t = .ok (some q) t' →
        (q.m_close = r.m_close ↔ r.m_close = true))
      ∧ ∀ (front : List HttpRequest) (last q : HttpRequest) (t t' : Transport),
        (∀ r ∈ front, r.m_close = false) → last.m_close = true →
        Delivers t ((front ++ [last]).flatMap HttpRequest.dump) →
        recvRequest (s.memory 0) t = .ok (some q) t' → Accepts t' →
        (s.respond 0 q).dump.length < 2 ^ 64 →
        (AnswersAll (front ++ [last]).length (s.handleClient t) ↔ front = []) := by
  constructor
  · intro r q m t t' _ hrecv
    rw [recvRequest_m_close hrecv]
    exact eq_comm
  · intro front last q t t' _ _ _ hrecv hsend hsize
    obtain ⟨t'', hresult, hclosed, -⟩ := handleClient_received hrecv hsend hsize
    constructor
    · rintro ⟨rsps, rsp, u, hu, hlen, -⟩
      -- one answer for all
      have hone := congrArg List.length (EStateM.Result.ok.inj (hresult.symm.trans hu)).1
      rw [List.length_append] at hone hlen
      simp only [List.length_singleton] at hone hlen
      exact List.length_eq_zero_iff.mp (by omega)
    · rintro rfl
      exact ⟨[], s.respond 0 q, t'', hresult, rfl, fun rsp h => (nomatch h), hclosed⟩

/-- A server with keepalive and a buffer of 64 bytes; its servlets leave the
response as it is. -/
def plainServer : HttpServer where
  m_isKeepalive := true
  m_name := bytes "sylar"
  handle := fun _ rsp => rsp
  memory := fun _ => ⟨0, false, 0, List.replicate 64 0⟩
  websocket := fun _ => false

/-- A connection with one request. -/
theorem handleClient_answers_get :
    ∃ rsp t', plainServer.handleClient (connection [bytes "GET / HTTP/1.1\r\n\r\n"])
        = .ok [rsp] t'
      ∧ t'.connected = false := by
  have hrecv : recvRequest (plainServer.memory 0) (connection [bytes "GET / HTTP/1.1\r\n\r\n"])
      = .ok (some {}) (connection []) := rfl
  obtain ⟨t', hresult, -⟩ := handleClient_received hrecv ⟨rfl, by decide⟩ (by decide +kernel)
  exact ⟨_, t', hresult, (handleClient_answers_once hresult).2⟩

/-- A request that closes the connection keeps its `isClose()` and is answered. -/
theorem keep_alive_negotiated_close :
    ∃ q t, Delivers (connection [HttpRequest.dump {}]) (HttpRequest.dump {})
      ∧ recvRequest (plainServer.memory 0) (connection [HttpRequest.dump {}]) = .ok (some q) t
      ∧ q.m_close = HttpRequest.m_close {}
      ∧ AnswersAll 1 (plainServer.handleClient (connection [HttpRequest.dump {}])) := by
  have hdump : HttpRequest.dump {} = bytes "GET / HTTP/1.1\r\nconnection: close\r\n\r\n" := by
    decide +kernel
  have hdel : Delivers (connection [HttpRequest.dump {}]) (HttpRequest.dump {}) :=
    ⟨rfl, [HttpRequest.dump {}], rfl, by decide +kernel, List.append_nil _⟩
  have hrecv : recvRequest (plainServer.memory 0) (connection [HttpRequest.dump {}])
      = .ok (some { m_headers := [(bytes "connection", bytes "close")] }) (connection []) := by
    rw [hdump]
    rfl
  obtain ⟨hclose, hanswers⟩ := keep_alive_negotiated plainServer
  refine ⟨_, _, hdel, hrecv, (hclose {} _ _ _ _ hdel hrecv).mpr rfl, ?_⟩
  refine (hanswers [] {} _ _ _ (by decide) rfl ?_ hrecv ⟨rfl, by decide⟩
    (by decide +kernel)).mpr rfl
  rw [List.nil_append, List.flatMap_singleton]
  exact hdel

/-- **Two requests, one answer.** The first says `keep-alive` and is received with `isClose()`; the
connection is closed behind its answer, and the second stays unread. -/
theorem second_request_unanswered : ∃ q t t', HttpRequest.dump { m_close := false }
        = bytes "GET / HTTP/1.1\r\nconnection: keep-alive\r\n\r\n"
      ∧ recvRequest (plainServer.memory 0)
          (connection [bytes "GET / HTTP/1.1\r\nconnection: keep-alive\r\n\r\n",
            HttpRequest.dump {}]) = .ok (some q) t
      ∧ q.m_close = true
      ∧ plainServer.handleClient
          (connection [bytes "GET / HTTP/1.1\r\nconnection: keep-alive\r\n\r\n",
            HttpRequest.dump {}]) = .ok [plainServer.respond 0 q] t'
      ∧ t'.incoming = [.bytes (HttpRequest.dump {})] ∧ t'.connected = false := by
  have hrecv : recvRequest (plainServer.memory 0)
      (connection [bytes "GET / HTTP/1.1\r\nconnection: keep-alive\r\n\r\n", HttpRequest.dump {}])
      = .ok (some { m_headers := [(bytes "connection", bytes "keep-alive")] })
        (connection [HttpRequest.dump {}]) := rfl
  obtain ⟨t', hresult, hclosed, hin⟩ := handleClient_received hrecv
    ⟨rfl, fun g hg => (nomatch hg)⟩ (by decide +kernel)
  exact ⟨_, _, t', by decide +kernel, hrecv, rfl, hresult, hin, hclosed⟩

end SylarHttp
