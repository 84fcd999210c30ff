import Mathlib.Data.List.Basic

/-! # Streaming transducers with bounded output

A machine that is handed a piece of input and a limited output space, takes
a front part of the input, emits at most the space it was given, and is
called again as long as it fills the space.  This is the calling convention
of stream compressors.

* **`Drains`** — one piece of input, called until a call leaves room.
* **`Feeds`** — pieces one after another; **`Produces`** — the same from the
  initial state, followed by the final call.
* **`Interface`** — what a caller may rely on: the space is respected, the
  output for one piece is finite, and a legal call is not refused.
* **`Inverts`** — one machine undoes the other, for every division of the
  data into pieces on either side.
* **`Greedy`** — room is left only when the input is used up, and at the end
  only when everything is emitted.
* **`recording`** — the same machine with the list of its calls. -/

namespace Transducer

open List

variable {α σ : Type}

/-- What one call returns. -/
structure Answer (α σ : Type) where
  state : σ
  consumed : Nat
  out : List α
  ret : Int

/-- The machine: state, input, "this is the end", output space. -/
structure Machine (α σ : Type) where
  init : σ
  call : σ → List α → Bool → Nat → Answer α σ

/-- Calls on one piece of input until one leaves room: what they emit. -/
inductive Drains (M : Machine α σ) (finish : Bool) :
    σ → List α → List α → σ → Prop
  | last {s : σ} {input : List α} {avail : Nat}
      (h : (M.call s input finish avail).out.length < avail) :
      Drains M finish s input (M.call s input finish avail).out
        (M.call s input finish avail).state
  | more {s s' : σ} {input out : List α} {avail : Nat} (hpos : 0 < avail)
      (h : (M.call s input finish avail).out.length = avail)
      (rest : Drains M finish (M.call s input finish avail).state
        (input.drop (M.call s input finish avail).consumed) out s') :
      Drains M finish s input ((M.call s input finish avail).out ++ out) s'

/-- Piece after piece. -/
inductive Feeds (M : Machine α σ) :
    σ → List (List α) → List α → σ → Prop
  | nil (s : σ) : Feeds M s [] [] s
  | cons {s s₁ s₂ : σ} {piece : List α} {pieces : List (List α)}
      {out out' : List α} (h : Drains M false s piece out s₁)
      (rest : Feeds M s₁ pieces out' s₂) :
      Feeds M s (piece :: pieces) (out ++ out') s₂

/-- The whole stream: the pieces, then the end. -/
def Produces (M : Machine α σ) (pieces : List (List α)) (out : List α) : Prop :=
  ∃ s s' o o', Feeds M M.init pieces o s ∧ Drains M true s [] o' s'
    ∧ out = o ++ o'

/-- What a caller may rely on.  `owed` bounds what is still to be emitted; `legal` says which call
may be made in which state, and `refused` answers an illegal one. -/
structure Interface (M : Machine α σ) (refused : Int) where
  owed : σ → List α → Bool → Nat
  legal : σ → Bool → Prop
  fits : ∀ s input finish avail,
    (M.call s input finish avail).out.length ≤ avail
  paid : ∀ s input finish avail,
    (M.call s input finish avail).out.length
      + owed (M.call s input finish avail).state
          (input.drop (M.call s input finish avail).consumed) finish
      ≤ owed s input finish
  legal_init : legal M.init false
  legal_finish : ∀ {s}, legal s false → legal s true
  legal_call : ∀ {s finish} (input avail), legal s finish →
    (M.call s input finish avail).ret ≠ refused
      ∧ legal (M.call s input finish avail).state finish

/-- `I` undoes `D`. -/
def Inverts {σ' : Type} (D : Machine α σ) (I : Machine α σ') : Prop :=
  ∀ pieces coded, Produces D pieces coded →
    ∀ pieces' out, pieces'.flatten = coded → Produces I pieces' out →
      out = pieces.flatten

variable {finish : Bool}

variable {M : Machine α σ} {a : Answer α σ} {avail : Nat} {input out held held' : List α} {s : σ}
  {pieces : List (List α)}

theorem Drains.of_full {s' : σ} (ha : M.call s input finish avail = a) (hpos : 0 < avail)
    (h : a.out.length = avail) (rest : Drains M finish a.state (input.drop a.consumed) out s') :
    Drains M finish s input (a.out ++ out) s' := by
  subst ha
  exact Drains.more hpos h rest

theorem Drains.of_room (ha : M.call s input finish avail = a) (h : a.out.length < avail) :
    Drains M finish s input a.out a.state := by
  subst ha
  exact Drains.last h

/-- Legality lasts over all calls on one piece. -/
theorem Drains.legal {M : Machine α σ} {refused : Int} (hM : Interface M refused) {s s' : σ}
    {input out : List α} (h : Drains M finish s input out s') (hs : hM.legal s finish) :
    hM.legal s' finish := by
  induction h with
  | last _ => exact (hM.legal_call _ _ hs).2
  | more _ _ _ ih => exact ih (hM.legal_call _ _ hs).2

/-- A call that leaves room has taken all of its input, and at the end has emitted everything:
`complete` holds of its state. -/
structure Greedy (M : Machine α σ) (complete : σ → Prop) : Prop where
  empties : ∀ {s input finish avail},
    (M.call s input finish avail).out.length < avail →
      (M.call s input finish avail).consumed = input.length
  completes : ∀ {s input avail},
    (M.call s input true avail).out.length < avail →
      complete (M.call s input true avail).state

/-! ## The machine that keeps a record of its calls -/

/-- One call: its kind, its space, what it took and what it emitted. -/
structure Call (α : Type) where
  finish : Bool
  avail : Nat
  taken : List α
  out : List α
  ret : Int
deriving DecidableEq

/-- The call that `M` answers in the state `s`. -/
def Machine.record (M : Machine α σ) (s : σ) (input : List α) (finish : Bool)
    (avail : Nat) : Call α where
  finish := finish
  avail := avail
  taken := input.take (M.call s input finish avail).consumed
  out := (M.call s input finish avail).out
  ret := (M.call s input finish avail).ret

/-- `M`, with the calls made so far. -/
def recording (M : Machine α σ) : Machine α (σ × List (Call α)) where
  init := (M.init, [])
  call s input finish avail :=
    let a := M.call s.1 input finish avail
    { state := (a.state, s.2 ++ [M.record s.1 input finish avail])
      consumed := a.consumed
      out := a.out
      ret := a.ret }

/-- The record does not change what a caller may rely on. -/
def Interface.recording {M : Machine α σ} {refused : Int}
    (hM : Interface M refused) : Interface (recording M) refused where
  owed s input finish := hM.owed s.1 input finish
  legal s finish := hM.legal s.1 finish
  fits s := hM.fits s.1
  paid s := hM.paid s.1
  legal_init := hM.legal_init
  legal_finish := hM.legal_finish
  legal_call input avail h := hM.legal_call input avail h

/-! ## The machine that copies -/

/-- Emits its input unchanged, as the output space permits. -/
def copier (α : Type) : Machine α (List α) where
  init := []
  call held input _ avail :=
    { state := (held ++ input).drop avail
      consumed := input.length
      out := (held ++ input).take avail
      ret := 0 }

/-- What is owed is what is held back and what comes in. -/
def copierInterface (α : Type) {refused : Int} (h : refused ≠ 0) :
    Interface (copier α) refused where
  owed held input _ := (held ++ input).length
  legal _ _ := True
  fits held input _ avail := by
    show ((held ++ input).take avail).length ≤ avail
    rw [List.length_take]
    exact Nat.min_le_left ..
  paid held input _ avail := by
    show ((held ++ input).take avail).length
      + ((held ++ input).drop avail ++ input.drop input.length).length
      ≤ (held ++ input).length
    refine Nat.le_of_eq ?_
    rw [List.drop_length, List.append_nil, ← List.length_append,
      List.take_append_drop]
  legal_init := trivial
  legal_finish _ := trivial
  legal_call _ _ _ := ⟨h.symm, trivial⟩

theorem copier_greedy (α : Type) : Greedy (copier α) (· = []) where
  empties _ := rfl
  completes {held input avail} h := by
    have hlen : (take avail (held ++ input)).length < avail := h
    rw [length_take] at hlen
    exact drop_eq_nil_of_le (by omega)

theorem copier_drains (h : Drains (copier α) finish held input out held') :
    out = held ++ input ∧ held' = [] := by
  induction h with
  | @last s input avail hroom =>
    have hlen : (take avail (s ++ input)).length < avail := hroom
    rw [length_take] at hlen
    have hall : (s ++ input).length ≤ avail := by omega
    exact ⟨take_of_length_le hall, drop_eq_nil_of_le hall⟩
  | @more s s' input out avail hpos hfull rest ih =>
    refine ⟨?_, ih.2⟩
    show take avail (s ++ input) ++ out = s ++ input
    rw [ih.1]
    show take avail (s ++ input) ++ (drop avail (s ++ input)
      ++ input.drop input.length) = s ++ input
    rw [drop_length, append_nil, take_append_drop]

theorem copier_feeds (h : Feeds (copier α) held pieces out held') (hheld : held = []) :
    out = pieces.flatten ∧ held' = [] := by
  induction h with
  | nil s => exact ⟨rfl, hheld⟩
  | cons hdrain _ ih =>
    obtain ⟨hout, hnil⟩ := copier_drains hdrain
    obtain ⟨hrest, hend⟩ := ih hnil
    subst hheld
    exact ⟨by rw [hout, hrest, nil_append, flatten_cons], hend⟩

theorem copier_produces (h : Produces (copier α) pieces out) : out = pieces.flatten := by
  obtain ⟨s, s', o, o', hfeed, hdrain, rfl⟩ := h
  obtain ⟨ho, hs⟩ := copier_feeds hfeed rfl
  subst hs
  rw [ho, (copier_drains hdrain).1, append_nil, append_nil]

/-- Copying twice is copying. -/
theorem copier_inverts : Inverts (copier α) (copier α) := by
  intro pieces coded hcoded pieces' out hpieces' hout
  rw [copier_produces hout, hpieces', copier_produces hcoded]

end Transducer
