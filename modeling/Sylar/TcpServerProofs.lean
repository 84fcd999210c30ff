import Mathlib.Data.List.Basic

/-! # Binding a server (`tcp_server.cc`)

`TcpServer::bind` makes a socket for each address, binds it and listens on it.  The
sockets that listen go to `m_socks` at once; if any address failed, `m_socks` is cleared,
together with what earlier calls left there.

* **`bind_spec`** — what one call returns and leaves.
* **`bind_all_or_nothing_iff`** — when a call is all-or-nothing, after any calls. -/

namespace SylarTcpServer

/-! ## The code -/

variable {A : Type}

/-- A socket of `Socket::CreateTCP`: the how-manieth it is, and the address it is for. -/
structure Socket (A : Type) where
  id : Nat
  addr : A
  deriving DecidableEq

/-- How the system answers for each socket. -/
structure System (A : Type) where
  bind : Socket A → Bool
  listen : Socket A → Bool

/-- `TcpServer`, as far as `bind` uses it. -/
structure TcpServer (A : Type) where
  m_socks : List (Socket A)
  created : Nat

def TcpServer.new : TcpServer A := ⟨[], 0⟩

/-- The body of the loop over the addresses. -/
def bindOne (sys : System A) : TcpServer A × List A → A → TcpServer A × List A
  | (s, fails), addr =>
    let sock : Socket A := ⟨s.created, addr⟩
    let s := { s with created := s.created + 1 }
    if !sys.bind sock then (s, fails ++ [addr])
    else if !sys.listen sock then (s, fails ++ [addr])
    else ({ s with m_socks := s.m_socks ++ [sock] }, fails)

/-- `TcpServer::bind`: the result, the server and `fails`. -/
def bind (sys : System A) (s : TcpServer A) (addrs fails : List A) :
    Bool × TcpServer A × List A :=
  let (s, fails) := addrs.foldl (bindOne sys) (s, fails)
  if !fails.isEmpty then (false, { s with m_socks := [] }, fails) else (true, s, fails)

/-- Calls one after the other, each with an empty `fails`. -/
def run (sys : System A) (s : TcpServer A) (calls : List (List A)) : TcpServer A :=
  calls.foldl (fun s addrs => (bind sys s addrs []).2.1) s

/-! ## What a call is for -/

/-- The sockets of a call, in the order of the addresses. -/
def sockets : Nat → List A → List (Socket A)
  | _, [] => []
  | k, addr :: addrs => ⟨k, addr⟩ :: sockets (k + 1) addrs

/-- The socket was bound and listens. -/
def System.listens (sys : System A) (sock : Socket A) : Bool := sys.bind sock && sys.listen sock

/-- The addresses of a call that are not bound or do not listen. -/
def failing (sys : System A) (k : Nat) (addrs : List A) : List A :=
  ((sockets k addrs).filter fun sock => !sys.listens sock).map Socket.addr

/-- All the addresses are served, or the server is as it was. -/
structure AllOrNothing (sys : System A) (s : TcpServer A) (addrs : List A) : Prop where
  returns : (bind sys s addrs []).1 = true ↔ ∀ sock ∈ sockets s.created addrs, sys.listens sock
  all : (bind sys s addrs []).1 = true →
    (bind sys s addrs []).2.1.m_socks = s.m_socks ++ sockets s.created addrs
  nothing : (bind sys s addrs []).1 = false →
    (bind sys s addrs []).2.1.m_socks = s.m_socks
      ∧ (bind sys s addrs []).2.2 = failing sys s.created addrs

/-! ## One call -/

/-- The loop: the sockets that listen behind those there were, the others' addresses behind
`fails`. -/
theorem bindLoop_spec (sys : System A) (addrs : List A) (s : TcpServer A) (fails : List A) :
    addrs.foldl (bindOne sys) (s, fails)
      = (⟨s.m_socks ++ (sockets s.created addrs).filter sys.listens, s.created + addrs.length⟩,
          fails ++ failing sys s.created addrs) := by
  induction addrs generalizing s fails with
  | nil => simp [sockets, failing]
  | cons addr addrs ih =>
    -- the socket of this address goes to one of the two lists
    rw [List.foldl_cons, bindOne]
    cases hb : sys.bind ⟨s.created, addr⟩ with
    | false => simp [ih, sockets, failing, System.listens, hb, Nat.add_comm, Nat.add_left_comm]
    | true =>
      cases hl : sys.listen ⟨s.created, addr⟩ <;>
        simp [ih, sockets, failing, System.listens, hb, hl, Nat.add_comm, Nat.add_left_comm]

private theorem failing_eq_nil (sys : System A) (k : Nat) (addrs : List A) :
    failing sys k addrs = [] ↔ ∀ sock ∈ sockets k addrs, sys.listens sock := by
  simp [failing, List.filter_eq_nil_iff]

/-- **One call**: whether an address failed decides the result and what `m_socks` becomes. -/
theorem bind_spec (sys : System A) (s : TcpServer A) (addrs : List A) : bind sys s addrs []
      = (decide (failing sys s.created addrs = []),
          ⟨if failing sys s.created addrs = [] then s.m_socks ++ sockets s.created addrs else [],
            s.created + addrs.length⟩,
          failing sys s.created addrs) := by
  rw [bind, bindLoop_spec]
  by_cases h : failing sys s.created addrs = []
  · have hall := List.filter_eq_self.mpr ((failing_eq_nil sys _ _).mp h)
    simp [h, hall]
  · simp [h]

/-! ## Any calls -/

/-- **Binding is all-or-nothing**, after any calls, exactly for one that succeeds or finds `m_socks`
empty. -/
theorem bind_all_or_nothing_iff (sys : System A) (calls : List (List A)) (addrs : List A) :
    AllOrNothing sys (run sys .new calls) addrs
      ↔ (∀ sock ∈ sockets (run sys .new calls).created addrs, sys.listens sock)
        ∨ (run sys .new calls).m_socks = [] := by
  generalize run sys .new calls = s
  rw [← failing_eq_nil]
  have hspec := bind_spec sys s addrs
  by_cases h : failing sys s.created addrs = []
  · refine iff_of_true ⟨?_, ?_, ?_⟩ (Or.inl h)
    · simp [hspec, ← failing_eq_nil, h]
    · simp [hspec, h]
    · simp [hspec, h]
  · constructor
    · intro hn
      have hkept := (hn.nothing (by simp [hspec, h])).1
      simp only [hspec, if_neg h] at hkept
      exact Or.inr hkept.symm
    · rintro (hf | hs)
      · exact absurd hf h
      · refine ⟨?_, ?_, ?_⟩
        · simp [hspec, ← failing_eq_nil]
        · simp [hspec, h]
        · simp [hspec, h, hs]

/-- A first call serves address 0; a second one, whose `listen` fails, leaves the server without
sockets. -/
theorem failed_bind_drops_earlier :
    let sys : System Nat := ⟨fun _ => true, fun sock => sock.addr = 0⟩
    (run sys .new [[0]]).m_socks = [⟨0, 0⟩] ∧ run sys .new [[0], [1]] = ⟨[], 2⟩
      ∧ ¬ AllOrNothing sys (run sys .new [[0]]) [1] := by
  refine ⟨rfl, rfl, fun h => ?_⟩
  exact absurd (h.nothing rfl).1 (by decide)

end SylarTcpServer
