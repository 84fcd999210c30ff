import Mathlib.Data.List.Basic

/-! # Scanners with registers

A scanner reads a buffer symbol by symbol through a transition table and
runs actions on the way.  The actions work on registers that hold positions
of the buffer, and hand parts of the buffer to their user: this is what a
generated scanner with embedded actions does.

A scanner that is called again with the next piece of its input starts on a
new buffer, so positions remembered from an earlier piece mean nothing.

* **`Passes.append`** — a text is scanned part by part.
* **`scan_lockstep`** — as long as no action reads a register that was not
  written in the same piece, a piece is scanned as it is scanned in the
  middle of the whole input. -/

namespace Scanner

open List

variable {σ α ι ρ ε φ : Type}

/-- A transition table with actions.  The scan stops before a symbol that leads
to a dead state, and after one that leads to a final state. -/
structure Machine (σ α ι ρ ε : Type) where
  next : σ → α → σ × List ι
  dead : σ → Bool
  final : σ → Bool
  perform : List α → Nat → ι → ρ → Except ε ρ

variable (M : Machine σ α ι ρ ε)

/-- The scan has stopped in this state. -/
def Machine.stopped (q : σ) : Bool := M.dead q || M.final q

/-- The actions of one transition, in their order. -/
def Machine.performAll (buffer : List α) (p : Nat) (as : List ι) (r : ρ) :
    Except ε ρ :=
  as.foldlM (fun r a => M.perform buffer p a r) r

/-- The scan of the rest of a buffer from position `p`: where it stopped. -/
def Machine.scan (buffer : List α) :
    List α → Nat → σ → ρ → Except ε (Nat × σ × ρ)
  | [], p, q, r => .ok (p, q, r)
  | c :: rest, p, q, r =>
    if M.dead (M.next q c).1 then .ok (p, (M.next q c).1, r)
    else
      match M.performAll buffer p (M.next q c).2 r with
      | .error e => .error e
      | .ok r =>
          if M.final (M.next q c).1 then .ok (p + 1, (M.next q c).1, r)
          else scan buffer rest (p + 1) (M.next q c).1 r

/-- The number of symbols the scan takes. -/
def Machine.span : List α → σ → Nat
  | [], _ => 0
  | c :: rest, q =>
    if M.dead (M.next q c).1 then 0
    else if M.final (M.next q c).1 then 1
    else span rest (M.next q c).1 + 1

/-- The state in which the scan ends. -/
def Machine.control : List α → σ → σ
  | [], q => q
  | c :: rest, q =>
    if M.stopped (M.next q c).1 then (M.next q c).1
    else control rest (M.next q c).1

theorem span_le (M : Machine σ α ι ρ ε) (xs : List α) (q : σ) : M.span xs q ≤ xs.length := by
  induction xs generalizing q with
  | nil => exact Nat.le_refl _
  | cons c xs ih =>
    have hrest := ih (M.next q c).1
    rw [Machine.span, length_cons]
    split_ifs <;> omega

variable {k : Nat} {q' : σ} {r' r₁' : ρ} {P : ρ → Prop} {c : α} {f f' : φ} {g₁ piece : List α}

/-- Where the scan ends depends on the table only. -/
theorem scan_span {M : Machine σ α ι ρ ε} {buffer : List α} (xs : List α) {p : Nat} {q : σ} {r : ρ}
    (h : M.scan buffer xs p q r = .ok (k, q', r')) : k = p + M.span xs q := by
  induction xs generalizing p k q q' r r' with
  | nil =>
    cases h
    rfl
  | cons c xs ih =>
    rw [Machine.scan] at h
    rw [Machine.span]
    split_ifs at h ⊢ with hdead hfin
    · cases h
      rfl
    · split at h
      · nomatch h
      · cases h
        rfl
    · split at h
      · nomatch h
      · rw [ih h]
        omega

/-- A scan that ends in another state, and not for lack of a transition, has
taken a symbol. -/
theorem scan_takes {M : Machine σ α ι ρ ε} {buffer xs : List α} {p : Nat} {q : σ} {r : ρ}
    (h : M.scan buffer xs p q r = .ok (k, q', r')) (hq' : M.dead q' = false) (hne : q ≠ q') :
    p < k := by
  have hk := scan_span xs h
  cases xs with
  | nil =>
    cases h
    exact absurd rfl hne
  | cons c xs =>
    rw [Machine.scan] at h
    rw [Machine.span] at hk
    split_ifs at h hk with hdead hfin
    · cases h
      rw [hdead] at hq'
      nomatch hq'
    · omega
    · omega

/-- The scan of a text in two parts: it stops in the first part, or goes on
with the second. -/
theorem scan_append {M : Machine σ α ι ρ ε} {buffer : List α} (ys : List α) (xs : List α) {p : Nat}
    {q : σ} {r : ρ} (h : M.scan buffer xs p q r = .ok (k, q', r'))
    (hq : xs = [] → M.stopped q = false) :
    M.scan buffer (xs ++ ys) p q r
      = if M.stopped q' then .ok (k, q', r') else M.scan buffer ys k q' r' := by
  induction xs generalizing p k q q' r r' with
  | nil =>
    cases h
    rw [hq rfl]
    rfl
  | cons c xs ih =>
    rw [Machine.scan] at h
    rw [cons_append, Machine.scan]
    by_cases hdead : M.dead (M.next q c).1 = true
    · rw [if_pos hdead] at h ⊢
      cases h
      rw [Machine.stopped, hdead, Bool.true_or, if_pos rfl]
    · rw [if_neg hdead] at h ⊢
      cases hact : M.performAll buffer p (M.next q c).2 r with
      | error e =>
        rw [hact] at h
        cases h
      | ok r₁ =>
        rw [hact] at h
        dsimp only at h ⊢
        by_cases hfin : M.final (M.next q c).1 = true
        · rw [if_pos hfin] at h ⊢
          cases h
          rw [Machine.stopped, hfin, Bool.or_true, if_pos rfl]
        · rw [if_neg hfin] at h ⊢
          refine ih h fun _ => ?_
          rw [Machine.stopped, Bool.eq_false_iff.mpr hdead, Bool.eq_false_iff.mpr hfin]
          rfl

/-- What every action before position `n` keeps, a scan that ends there keeps. -/
theorem scan_invariant_below {M : Machine σ α ι ρ ε} {buffer : List α} {n : Nat}
    (hP : ∀ {p a r r'}, p < n → M.perform buffer p a r = .ok r' → P r → P r') :
    ∀ (xs : List α) {p k : Nat} {q q' : σ} {r r' : ρ}, p + xs.length ≤ n →
      M.scan buffer xs p q r = .ok (k, q', r') → P r → P r' := by
  have hall : ∀ {p : Nat} (_ : p < n) (as : List ι) {r r' : ρ},
      M.performAll buffer p as r = .ok r' → P r → P r' := by
    intro p hp as
    induction as with
    | nil =>
      intro r r' h hr
      cases h
      exact hr
    | cons a as ih =>
      intro r r' h hr
      rw [Machine.performAll, foldlM_cons] at h
      cases ha : M.perform buffer p a r with
      | error e => rw [ha] at h; nomatch h
      | ok r₁ =>
        rw [ha] at h
        exact ih h (hP hp ha hr)
  intro xs
  induction xs with
  | nil =>
    intro p k q q' r r' _ h hr
    cases h
    exact hr
  | cons c xs ih =>
    intro p k q q' r r' hn h hr
    rw [length_cons] at hn
    rw [Machine.scan] at h
    split_ifs at h with hdead hfin
    · cases h
      exact hr
    · split at h
      · nomatch h
      · rename_i r₁ hact
        cases h
        exact hall (by omega) _ hact hr
    · split at h
      · nomatch h
      · rename_i r₁ hact
        exact ih (by omega) h (hall (by omega) _ hact hr)

/-- What every action keeps, the scan keeps. -/
theorem scan_invariant {M : Machine σ α ι ρ ε}
    (hP : ∀ {buffer p a r r'}, M.perform buffer p a r = .ok r' → P r → P r') {buffer : List α}
    (xs : List α) {p : Nat} {q : σ} {r : ρ} (h : M.scan buffer xs p q r = .ok (k, q', r'))
    (hr : P r) : P r' :=
  scan_invariant_below (fun _ => hP) xs (Nat.le_refl _) h hr

/-- A scan that does not end in a stopped state has gone on behind the first symbol. -/
theorem control_cons {M : Machine σ α ι ρ ε} {xs : List α} {q : σ} (h : M.control (c :: xs) q = q')
    (hq' : M.stopped q' = false) :
    M.stopped (M.next q c).1 = false ∧ M.control xs (M.next q c).1 = q' := by
  rw [Machine.control] at h
  by_cases hstop : M.stopped (M.next q c).1 = true
  · rw [if_pos hstop] at h
    rw [h, hq'] at hstop
    cases hstop
  · rw [if_neg hstop] at h
    exact ⟨Bool.eq_false_iff.mpr hstop, h⟩

/-- One symbol that does not stop the scan, and the rest. -/
theorem scan_cons {M : Machine σ α ι ρ ε} {buffer : List α} (xs : List α) {p : Nat} {q : σ}
    {r r₁ : ρ} (hq : M.stopped (M.next q c).1 = false)
    (hact : M.performAll buffer p (M.next q c).2 r = .ok r₁) :
    M.scan buffer (c :: xs) p q r = M.scan buffer xs (p + 1) (M.next q c).1 r₁ := by
  rw [Machine.stopped, Bool.or_eq_false_iff] at hq
  rw [Machine.scan, hq.1, if_neg Bool.false_ne_true, hact]
  dsimp only
  rw [hq.2, if_neg Bool.false_ne_true]

/-! ## Scanning a text part by part -/

section Actions

variable {M} {buffer : List α} {p : Nat} {a b : ι} {r r₁ r₂ : ρ}

theorem performAll_one (ha : M.perform buffer p a r = .ok r₁) :
    M.performAll buffer p [a] r = .ok r₁ := by
  show M.perform buffer p a r >>= _ = _
  rw [ha]
  rfl

theorem performAll_two (ha : M.perform buffer p a r = .ok r₁)
    (hb : M.perform buffer p b r₁ = .ok r₂) :
    M.performAll buffer p [a, b] r = .ok r₂ := by
  show M.perform buffer p a r >>= _ = _
  rw [ha]
  exact performAll_one hb

end Actions

/-- Behind `pre`, the scan takes all of `xs` and does not stop; `post` is what
follows in the buffer. -/
structure Machine.Passes (pre xs post : List α) (q : σ) (r : ρ) (q' : σ) (r' : ρ) :
    Prop where
  taken : M.scan (pre ++ (xs ++ post)) xs pre.length q r
    = .ok ((pre ++ xs).length, q', r')
  running : M.stopped q' = false

section Passes

variable {M} {pre xs ys post : List α} {q q₁ q₂ : σ} {r r₁ r₂ : ρ}

/-- The scan behind a part. -/
theorem Machine.Passes.scan (h : M.Passes pre xs (ys ++ post) q r q₁ r₁) :
    M.scan (pre ++ (xs ++ (ys ++ post))) (xs ++ ys) pre.length q r
      = M.scan (pre ++ xs ++ (ys ++ post)) ys (pre ++ xs).length q₁ r₁ := by
  have hrunning := h.running
  have happend := scan_append ys xs h.taken (by
    rintro rfl
    obtain ⟨-, hstate⟩ := Prod.mk.inj (Except.ok.inj h.taken)
    rw [(Prod.mk.inj hstate).1]
    exact hrunning)
  rw [happend, hrunning, append_assoc pre xs]
  rfl

theorem Machine.Passes.nil (h : M.stopped q = false) : M.Passes pre [] post q r q r := by
  refine ⟨?_, h⟩
  rw [append_nil]
  rfl

variable {c : α}

/-- One symbol. -/
theorem Machine.Passes.single (as : List ι) (hnext : M.next q c = (q₁, as))
    (hq : M.stopped q₁ = false)
    (hact : M.performAll (pre ++ (c :: post)) pre.length as r = .ok r₁) :
    M.Passes pre [c] post q r q₁ r₁ := by
  refine ⟨?_, hq⟩
  rw [Machine.stopped, Bool.or_eq_false_iff] at hq
  rw [Machine.scan, hnext, hq.1, singleton_append, if_neg Bool.false_ne_true, hact, length_append]
  dsimp only
  rw [hq.2, if_neg Bool.false_ne_true]
  rfl

/-- **One part behind the other.** -/
theorem Machine.Passes.append (hx : M.Passes pre xs (ys ++ post) q r q₁ r₁)
    (hy : M.Passes (pre ++ xs) ys post q₁ r₁ q₂ r₂) :
    M.Passes pre (xs ++ ys) post q r q₂ r₂ := by
  refine ⟨?_, hy.running⟩
  rw [append_assoc xs, hx.scan, hy.taken, append_assoc pre xs]

/-- A symbol and what follows it. -/
theorem Machine.Passes.cons (hc : M.Passes pre [c] (xs ++ post) q r q₁ r₁)
    (hx : M.Passes (pre ++ [c]) xs post q₁ r₁ q₂ r₂) :
    M.Passes pre (c :: xs) post q r q₂ r₂ :=
  hc.append hx

/-- Symbols without actions, of which the state keeps account. -/
theorem Machine.Passes.foldl {τ : Type} (f : τ → α → τ) (state : τ → σ)
    (hq : ∀ t, M.stopped (state t) = false)
    (h : ∀ c ∈ xs, ∀ t, M.next (state t) c = (state (f t c), [])) (t : τ) :
    M.Passes pre xs post (state t) r (state (xs.foldl f t)) r := by
  induction xs generalizing pre t with
  | nil => exact .nil (hq t)
  | cons c xs ih =>
    obtain ⟨hc, hxs⟩ := forall_mem_cons.mp h
    exact .cons (.single [] (hc t) (hq _) rfl) (ih hxs _)

/-- Symbols that leave the state as it is. -/
theorem Machine.Passes.loop (hq : M.stopped q = false) (h : ∀ c ∈ xs, M.next q c = (q, [])) :
    M.Passes pre xs post q r q r :=
  .foldl (fun t _ => t) (fun _ : Unit => q) (fun _ => hq) (fun c hc _ => h c hc) ()

/-- A token: its first symbol has the actions `as`. -/
theorem Machine.Passes.token (as : List ι) (hne : xs ≠ []) (hq : M.stopped q₁ = false)
    (hfirst : ∀ c ∈ xs, M.next q c = (q₁, as))
    (hact : ∀ buffer, M.performAll buffer pre.length as r = .ok r₁)
    (hloop : ∀ c ∈ xs, M.next q₁ c = (q₁, [])) : M.Passes pre xs post q r q₁ r₁ := by
  cases xs with
  | nil => exact absurd rfl hne
  | cons c xs =>
    exact .cons (.single as (hfirst c mem_cons_self) hq (hact _))
      (.loop hq fun x hx => hloop x (mem_cons_of_mem _ hx))

/-- Symbols with the same actions at each of them, which keep `P`. -/
theorem Machine.Passes.each {P : ρ → Prop} (as : List ι) (hq : M.stopped q = false)
    (h : ∀ c ∈ xs, M.next q c = (q, as))
    (hact : ∀ buffer p r, P r → ∃ r', M.performAll buffer p as r = .ok r' ∧ P r')
    (hr : P r) : ∃ r', M.Passes pre xs post q r q r' ∧ P r' := by
  induction xs generalizing pre r with
  | nil => exact ⟨r, .nil hq, hr⟩
  | cons c xs ih =>
    obtain ⟨hc, hxs⟩ := forall_mem_cons.mp h
    obtain ⟨r₁, hr₁, hp₁⟩ := hact (pre ++ (c :: (xs ++ post))) pre.length r hr
    obtain ⟨r₂, hrest, hp₂⟩ := ih hxs hp₁
    exact ⟨r₂, .cons (.single as hc hq hr₁) hrest, hp₂⟩

end Passes

/-! ## Which registers are fresh

`after a f` is what is fresh after action `a` when `f` was fresh before, and
nothing when `a` reads a register that is not. -/

variable (after : ι → φ → Option φ)

/-- The scan of a piece, keeping account of the fresh registers only. -/
def Machine.walk : List α → σ → φ → Option (σ × φ)
  | [], q, f => some (q, f)
  | c :: rest, q, f =>
    if M.dead (M.next q c).1 then some ((M.next q c).1, f)
    else
      match (M.next q c).2.foldlM (fun f a => after a f) f with
      | none => none
      | some f =>
          if M.final (M.next q c).1 then some ((M.next q c).1, f)
          else walk rest (M.next q c).1 f

/-- **No token is cut**: in every piece, each action reads only registers that
were written in that piece. -/
def Machine.whole (stale : φ) : List (List α) → σ → Bool
  | [], _ => true
  | piece :: rest, q =>
    match M.walk after piece q stale with
    | none => false
    | some (q, _) => M.stopped q || whole stale rest q

/-- The walk ends where the scan does. -/
theorem walk_control {M : Machine σ α ι ρ ε} {after : ι → φ → Option φ} (xs : List α) {q : σ}
    (h : M.walk after xs q f = some (q', f')) : q' = M.control xs q := by
  induction xs generalizing q q' f f' with
  | nil =>
    cases h
    rfl
  | cons c xs ih =>
    rw [Machine.walk] at h
    rw [Machine.control, Machine.stopped]
    by_cases hdead : M.dead (M.next q c).1 = true
    · rw [if_pos hdead] at h
      cases h
      rw [hdead, Bool.true_or, if_pos rfl]
    · rw [if_neg hdead] at h
      rw [Bool.eq_false_iff.mpr hdead, Bool.false_or]
      cases hf : (M.next q c).2.foldlM (fun f a => after a f) f with
      | none => rw [hf] at h; cases h
      | some f₁ =>
        rw [hf] at h
        dsimp only at h
        by_cases hfin : M.final (M.next q c).1 = true
        · rw [if_pos hfin] at h ⊢
          cases h
          rfl
        · rw [if_neg hfin] at h ⊢
          exact ih h

/-- A scan that stops in the first part does not see the second. -/
theorem control_append {M : Machine σ α ι ρ ε} (ys : List α) (xs : List α) (q : σ)
    (hq : M.stopped q = false) :
    M.control (xs ++ ys) q = if M.stopped (M.control xs q) then M.control xs q
        else M.control ys (M.control xs q) := by
  induction xs generalizing q with
  | nil =>
    rw [nil_append, Machine.control, hq]
    rfl
  | cons c xs ih =>
    rw [cons_append, Machine.control, Machine.control]
    by_cases hstop : M.stopped (M.next q c).1 = true
    · rw [if_pos hstop, if_pos hstop, if_pos hstop]
    · rw [if_neg hstop, if_neg hstop]
      exact ih _ (Bool.eq_false_iff.mpr hstop)

/-! ## Registers that are written before they are read

`Open q f` says that `f` has what the tokens open in state `q` need. -/

section WrittenFirst

variable {M : Machine σ α ι ρ ε} {after : ι → φ → Option φ} {Open : σ → φ → Prop}
  (hstep : ∀ {q : σ} {f : φ} (c : α), Open q f →
    ∃ f', (M.next q c).2.foldlM (fun f a => after a f) f = some f'
      ∧ Open (M.next q c).1 f')
include hstep

/-- Inside one piece nothing stale is read. -/
theorem walk_of_open : ∀ (xs : List α) {q : σ} {f : φ}, Open q f →
      ∃ f', M.walk after xs q f = some (M.control xs q, f') := by
  have hsome : ∀ (xs : List α) {q : σ} {f : φ}, Open q f → ∃ x, M.walk after xs q f = some x := by
    intro xs
    induction xs with
    | nil => intro q f _; exact ⟨_, rfl⟩
    | cons c xs ih =>
      intro q f hopen
      obtain ⟨f₁, hf₁, hopen₁⟩ := hstep c hopen
      rw [Machine.walk, hf₁]
      split_ifs with hdead hfin
      · exact ⟨_, rfl⟩
      · exact ⟨_, rfl⟩
      · exact ih hopen₁
  intro xs q f hopen
  obtain ⟨⟨q', f'⟩, hwalk⟩ := hsome xs hopen
  exact ⟨f', by rw [hwalk, walk_control xs hwalk]⟩

/-- Cuts where no token is open do no harm. -/
theorem whole_of_open {stale : φ} (pieces : List (List α)) {q : σ} (hq : M.stopped q = false)
    (hcuts : ∀ before rest, pieces = before ++ rest → rest ≠ [] → M.stopped (M.control
      before.flatten q) = true ∨ Open (M.control before.flatten q) stale) :
    M.whole after stale pieces q = true := by
  induction pieces generalizing q with
  | nil => rfl
  | cons piece rest ih =>
    have hopen : Open q stale := by
      rcases hcuts [] (piece :: rest) rfl (cons_ne_nil _ _) with h | h
      · rw [flatten_nil, Machine.control, hq] at h
        cases h
      · exact h
    obtain ⟨f', hwalk⟩ := walk_of_open hstep piece hopen
    rw [Machine.whole, hwalk]
    dsimp only
    by_cases hstop : M.stopped (M.control piece q) = true
    · rw [hstop, Bool.true_or]
    · have hrun := Bool.eq_false_iff.mpr hstop
      rw [hrun, Bool.false_or]
      refine ih hrun fun before rest' hsplit hne => ?_
      have hcut := hcuts (piece :: before) rest' (by rw [hsplit, cons_append]) hne
      rw [flatten_cons, control_append _ piece q hq, if_neg hstop] at hcut
      exact hcut

end WrittenFirst

/-! ## Lockstep -/

/-- The transitions keep `Rel` between the registers of a scan of the whole input and of one
piece in the same state; the piece begins `b` symbols into the input and the scans are `p`
symbols into it. -/
structure Lockstep (Rel : List α → σ → Nat → Nat → φ → ρ → ρ → Prop) : Prop where
  step : ∀ {pre piece g₁ : List α} (g₂ : List α) {p : Nat} {q : σ} {c : α} {f f' : φ}
    {r₁ r₁' r₂ : ρ}, M.stopped q = false → piece[p]? = some c →
    (M.next q c).2.foldlM (fun f a => after a f) f = some f' →
    Rel piece q pre.length p f r₁ r₂ →
    M.performAll (pre ++ (piece ++ g₁)) (pre.length + p) (M.next q c).2 r₁ = .ok r₁' →
    ∃ r₂', M.performAll (piece ++ g₂) p (M.next q c).2 r₂ = .ok r₂'
      ∧ Rel piece (M.next q c).1 pre.length (p + 1) f' r₁' r₂'

variable {M after} {Rel : List α → σ → Nat → Nat → φ → ρ → ρ → Prop}

/-- What each action keeps, the actions of a transition keep. -/
theorem performAll_lockstep {R : φ → ρ → ρ → Prop} {buffer₁ buffer₂ : List α} {p₁ p₂ : Nat}
    (as : List ι)
    (hact : ∀ a ∈ as, ∀ {f f' : φ} {r₁ r₁' r₂ : ρ}, after a f = some f' → R f r₁ r₂ →
      M.perform buffer₁ p₁ a r₁ = .ok r₁' →
      ∃ r₂', M.perform buffer₂ p₂ a r₂ = .ok r₂' ∧ R f' r₁' r₂')
    {r₁ r₂ : ρ} (hf : as.foldlM (fun f a => after a f) f = some f') (hrel : R f r₁ r₂)
    (hrun : M.performAll buffer₁ p₁ as r₁ = .ok r₁') :
    ∃ r₂', M.performAll buffer₂ p₂ as r₂ = .ok r₂' ∧ R f' r₁' r₂' := by
  induction as generalizing f r₁ r₂ with
  | nil =>
    cases hf
    cases hrun
    exact ⟨r₂, rfl, hrel⟩
  | cons a as ih =>
    obtain ⟨ha, has⟩ := forall_mem_cons.mp hact
    rw [foldlM_cons] at hf
    obtain ⟨f₁, hf₁, hf⟩ := Option.bind_eq_some_iff.mp hf
    rw [Machine.performAll, foldlM_cons] at hrun
    cases hfirst : M.perform buffer₁ p₁ a r₁ with
    | error e =>
      rw [hfirst] at hrun
      nomatch hrun
    | ok r =>
      rw [hfirst] at hrun
      obtain ⟨r₂', hr₂', hrel'⟩ := ha hf₁ hrel hfirst
      obtain ⟨r₂'', hr₂'', hrel''⟩ := ih has hf hrel' hrun
      refine ⟨r₂'', ?_, hrel''⟩
      rw [Machine.performAll, foldlM_cons, hr₂']
      exact hr₂''

/-- How the scan of a piece from `q` ends, against that of the whole input, which ends at `k` in
state `q₁` with registers `r₁`: at the same symbol, or at the end of the piece, from where the whole
scan goes on. -/
inductive Agrees (M : Machine σ α ι ρ ε)
    (Rel : List α → σ → Nat → Nat → φ → ρ → ρ → Prop) (whole : List α) (b : Nat)
    (piece ys : List α) (k : Nat) (q₁ : σ) (r₁ : ρ) (f : φ) :
    Nat → σ → ρ → Prop
  | stops {p : Nat} {q : σ} {r₂ : ρ} (hq : M.stopped q₁ = true) (hk : k = b + p)
      (hp : p ≤ piece.length) (hrel : Rel piece q b p f r₁ r₂) :
      Agrees M Rel whole b piece ys k q₁ r₁ f p q₁ r₂
  | goesOn {q : σ} {r r₂ : ρ} (hq : M.stopped q = false)
      (hrest : M.scan whole ys (b + piece.length) q r = .ok (k, q₁, r₁))
      (hrel : Rel piece q b piece.length f r r₂) :
      Agrees M Rel whole b piece ys k q₁ r₁ f piece.length q r₂

/-- The rest `xs` of a piece, from inside it. -/
theorem scan_suffix_lockstep (L : Lockstep M after Rel) {pre ys : List α} (g₂ : List α) :
    ∀ (xs done : List α), piece = done ++ xs →
    ∀ {q q' q₁ : σ} {f f' : φ} {r₁ r₁' r₂ : ρ} {k : Nat},
      M.stopped q = false → M.walk after xs q f = some (q', f') →
      Rel piece q pre.length done.length f r₁ r₂ →
      M.scan (pre ++ (piece ++ g₁)) (xs ++ ys) (pre.length + done.length) q r₁ = .ok (k, q₁, r₁') →
      ∃ p r₂', M.scan (piece ++ g₂) xs done.length q r₂ = .ok (p, q', r₂')
        ∧ Agrees M Rel (pre ++ (piece ++ g₁)) pre.length piece ys k q₁ r₁' f' p q' r₂' := by
  -- on the rest of the piece; `done` is what both scans have behind them
  intro xs
  induction xs with
  | nil =>
    intro done hpiece q q' q₁ f f' r₁ r₁' r₂ k hq hwalk hrel hscan
    obtain rfl : piece = done := by rw [hpiece, append_nil]
    cases hwalk
    exact ⟨piece.length, r₂, rfl, .goesOn hq hscan hrel⟩
  | cons c xs ih =>
    intro done hpiece q q' q₁ f f' r₁ r₁' r₂ k hq hwalk hrel hscan
    have hc : piece[done.length]? = some c := by
      rw [hpiece, getElem?_append_right (Nat.le_refl _), Nat.sub_self]
      rfl
    have hlen : done.length < piece.length := (List.getElem?_eq_some_iff.mp hc).1
    rw [cons_append, Machine.scan] at hscan
    rw [Machine.walk] at hwalk
    rw [Machine.scan]
    by_cases hdead : M.dead (M.next q c).1 = true
    · rw [if_pos hdead] at hscan hwalk ⊢
      cases hscan
      cases hwalk
      refine ⟨done.length, r₂, rfl, .stops ?_ rfl (Nat.le_of_lt hlen) hrel⟩
      rw [Machine.stopped, hdead, Bool.true_or]
    · rw [if_neg hdead] at hscan hwalk ⊢
      -- the walk says that the actions read fresh registers only
      cases hf : (M.next q c).2.foldlM (fun f a => after a f) f with
      | none => rw [hf] at hwalk; nomatch hwalk
      | some f₁ =>
      cases hact : M.performAll (pre ++ (piece ++ g₁)) (pre.length + done.length)
          (M.next q c).2 r₁ with
      | error e => rw [hact] at hscan; nomatch hscan
      | ok r =>
      rw [hf] at hwalk
      rw [hact] at hscan
      obtain ⟨r₂₁, hact₂, hrel₂⟩ := L.step g₂ hq hc hf hrel hact
      rw [hact₂]
      dsimp only at hwalk hscan ⊢
      by_cases hfin : M.final (M.next q c).1 = true
      · rw [if_pos hfin] at hwalk hscan ⊢
        cases hwalk
        cases hscan
        refine ⟨done.length + 1, r₂₁, rfl, .stops ?_ rfl hlen hrel₂⟩
        rw [Machine.stopped, hfin, Bool.or_true]
      · rw [if_neg hfin] at hwalk hscan ⊢
        have hrun : M.stopped (M.next q c).1 = false := by
          rw [Machine.stopped, Bool.eq_false_iff.mpr hdead,
            Bool.eq_false_iff.mpr hfin, Bool.or_false]
        have hsnoc : (done ++ [c]).length = done.length + 1 := length_append
        have hsplit : piece = done ++ [c] ++ xs := by
          rw [hpiece, append_assoc]
          rfl
        obtain ⟨p, r₂', hscan₂, hagrees⟩ := ih (done ++ [c]) hsplit hrun hwalk
          (by rw [hsnoc]; exact hrel₂) (by rw [hsnoc]; exact hscan)
        rw [hsnoc] at hscan₂
        exact ⟨p, r₂', hscan₂, hagrees⟩

/-- **A piece is scanned as in the whole input**: from related registers, if no action reads a stale
one, to the symbol where the whole scan stops, or to its end. -/
theorem scan_lockstep (L : Lockstep M after Rel) {pre ys : List α} (g₂ : List α) {q q₁ : σ}
    {r₁ r₂ : ρ} (hq : M.stopped q = false) (hwalk : M.walk after piece q f = some (q', f'))
    (hrel : Rel piece q pre.length 0 f r₁ r₂)
    (hscan : M.scan (pre ++ (piece ++ g₁)) (piece ++ ys) pre.length q r₁ = .ok (k, q₁, r₁')) :
    ∃ p r₂', M.scan (piece ++ g₂) piece 0 q r₂ = .ok (p, q', r₂')
      ∧ Agrees M Rel (pre ++ (piece ++ g₁)) pre.length piece ys k q₁ r₁' f' p q' r₂' :=
  scan_suffix_lockstep L g₂ piece [] rfl hq hwalk hrel hscan

end Scanner
