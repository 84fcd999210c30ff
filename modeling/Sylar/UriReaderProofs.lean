import Sylar.UriScannerProofs

/-! # Reading a URI component by component

`readUri` reads the text as the grammar is written: a component, its delimiter, the next
component.  It says what `Uri::Create` stores for each of them, and where it takes a
string from the null pointer.

Inside a component the machine goes on as long as the component does; which byte follows
decides what is saved.

* **`splitRun_iff`** — a component and what follows it.
* **`runAt_region`** — the machine inside a component.
* **`path_run`**, **`end_run`** — the machine in a path, and behind an authority. -/

namespace SylarUri

open SylarHttp (byte oneOf digit alpha xdigit void)
open List
open ListWindow Scanner

/-! ## Components and what follows them -/

section Runs

variable {τ : Type} (step : τ → UInt8 → Option τ) (pct : τ → Option τ)

/-- Bytes that the states `τ` step through, where a percent-encoded byte leads from `t` to
`pct t`. -/
inductive Run : τ → List UInt8 → τ → Prop
  | nil (t : τ) : Run t [] t
  | cons {t t₁ t₂ : τ} {c : UInt8} {a : List UInt8} (h : step t c = some t₁)
      (ha : Run t₁ a t₂) : Run t (c :: a) t₂
  | pct {t t₁ t₂ : τ} {hi lo : UInt8} {a : List UInt8} (h : step t (byte '%') = none)
      (hp : pct t = some t₁) (hdig : (xdigit hi && xdigit lo) = true) (ha : Run t₁ a t₂) :
      Run t (byte '%' :: hi :: lo :: a) t₂

/-- The longest such run: the state behind it, the run and the rest; nothing if a percent sign lacks
two digits. -/
def splitRun : τ → List UInt8 → Option (τ × List UInt8 × List UInt8)
  | t, [] => some (t, [], [])
  | t, c :: xs =>
    match step t c with
    | some t' => (splitRun t' xs).map fun y => (y.1, c :: y.2.1, y.2.2)
    | none =>
        if c == byte '%' then
          match pct t, xs with
          | some t', h :: l :: ys =>
              if xdigit h && xdigit l then
                (splitRun t' ys).map fun y => (y.1, c :: h :: l :: y.2.1, y.2.2)
              else none
          | _, _ => none
        else some (t, [], c :: xs)

variable {step pct}

/-- **A run and what follows it.** -/
theorem splitRun_iff {t t' : τ} {xs a rest : List UInt8} :
    splitRun step pct t xs = some (t', a, rest) ↔ xs = a ++ rest ∧ Run step pct t a t'
      ∧ ∀ c ys, rest = c :: ys → step t' c = none ∧ c ≠ byte '%' := by
  constructor
  · intro h
    fun_induction splitRun step pct t xs generalizing a with
    | case1 t =>
      cases h
      exact ⟨rfl, .nil _, fun _ _ h => nomatch h⟩
    | case2 t c xs t₁ hstep ih =>
      obtain ⟨⟨t₂, a₂, rest₂⟩, hrun, heq⟩ := Option.map_eq_some_iff.mp h
      cases heq
      obtain ⟨rfl, ha, hstop⟩ := ih hrun
      exact ⟨rfl, .cons hstep ha, hstop⟩
    | case3 t c hstep hc t₁ hi lo ys hpct hdig ih =>
      obtain ⟨⟨t₂, a₂, rest₂⟩, hrun, heq⟩ := Option.map_eq_some_iff.mp h
      cases heq
      rw [beq_iff_eq] at hc
      subst hc
      obtain ⟨rfl, ha, hstop⟩ := ih hrun
      exact ⟨rfl, .pct hstep hpct hdig ha, hstop⟩
    | case4 => nomatch h
    | case5 => nomatch h
    | case6 t c xs hstep hc =>
      cases h
      refine ⟨rfl, .nil _, ?_⟩
      rintro _ _ ⟨⟩
      exact ⟨hstep, fun heq => hc (beq_iff_eq.mpr heq)⟩
  · rintro ⟨rfl, ha, hstop⟩
    induction ha with
    | nil t =>
      cases rest with
      | nil => rfl
      | cons c ys =>
        obtain ⟨hstep, hc⟩ := hstop c ys rfl
        rw [nil_append, splitRun.eq_def]
        dsimp only
        rw [hstep]
        exact if_neg fun h => hc (beq_iff_eq.mp h)
    | cons hstep _ ih =>
      rw [cons_append, splitRun.eq_def]
      dsimp only
      rw [hstep]
      dsimp only
      rw [ih hstop]
      rfl
    | pct hstep hpct hdig _ ih =>
      rw [cons_append, cons_append, cons_append, splitRun.eq_def]
      dsimp only
      rw [hstep, hpct]
      dsimp only
      rw [beq_self_eq_true, if_pos rfl, if_pos hdig, ih hstop]
      rfl

end Runs

/-- One step of text of a class. -/
def textStep (ok : UInt8 → Bool) (_ : Unit) (c : UInt8) : Option Unit :=
  if ok c then some () else none

/-- Text of a class, with percent-encoded bytes. -/
def Text (ok : UInt8 → Bool) (s : List UInt8) : Prop := Run (textStep ok) some () s ()

def splitText (ok : UInt8 → Bool) (xs : List UInt8) : Option (List UInt8 × List UInt8) :=
  (splitRun (textStep ok) some () xs).map Prod.snd

/-- What may follow text of a class. -/
def Stops (ok : UInt8 → Bool) (rest : List UInt8) : Prop :=
  ∀ c ys, rest = c :: ys → ok c = false ∧ c ≠ byte '%'

theorem stops_nil (ok : UInt8 → Bool) : Stops ok [] := fun _ _ h => nomatch h

variable {ok : UInt8 → Bool}

theorem stops_cons {c : UInt8} (ys : List UInt8) (hc : ok c = false) (hpct : c ≠ byte '%') :
    Stops ok (c :: ys) := by
  rintro _ _ ⟨⟩
  exact ⟨hc, hpct⟩

theorem textStep_none {c : UInt8} : textStep ok () c = none ↔ ok c = false := by
  rw [textStep]
  cases ok c <;> simp

/-- Text and what follows it. -/
theorem splitText_iff {xs a rest : List UInt8} :
    splitText ok xs = some (a, rest) ↔ xs = a ++ rest ∧ Text ok a ∧ Stops ok rest := by
  rw [splitText, Option.map_eq_some_iff]
  constructor
  · rintro ⟨⟨t, a', rest'⟩, hrun, heq⟩
    cases heq
    obtain ⟨happend, ha, hstop⟩ := splitRun_iff.mp hrun
    refine ⟨happend, ha, fun c ys hys => ?_⟩
    obtain ⟨hc, hpct⟩ := hstop c ys hys
    exact ⟨textStep_none.mp hc, hpct⟩
  · rintro ⟨happend, ha, hstop⟩
    refine ⟨((), a, rest), splitRun_iff.mpr ⟨happend, ha, fun c ys hys => ?_⟩, rfl⟩
    obtain ⟨hc, hpct⟩ := hstop c ys hys
    exact ⟨textStep_none.mpr hc, hpct⟩

theorem Text.nil (ok : UInt8 → Bool) : Text ok [] := Run.nil ()

theorem Text.cons {c : UInt8} {s : List UInt8} (hc : ok c = true) (h : Text ok s) :
    Text ok (c :: s) :=
  Run.cons (if_pos hc) h

theorem splitText_cons {c : UInt8} (xs : List UInt8) (hc : ok c = true) :
    splitText ok (c :: xs) = (splitText ok xs).map fun y => (c :: y.1, y.2) := by
  have hstep : textStep ok () c = some () := if_pos hc
  rw [splitText, splitText, splitRun.eq_def]
  dsimp only
  rw [hstep]
  dsimp only
  rw [Option.map_map, Option.map_map]
  rfl

/-! ## The reader -/

def wordStep (w : Word) (c : UInt8) : Option Word :=
  if oneOf [':', '@', '%', '/', '?', '#'] c then none else w.step c

def wordPct (w : Word) : Option Word := if w.isText then some (.text 0) else none

/-- The longest host without brackets. -/
def splitWord (w : Word) (xs : List UInt8) : Option (Word × List UInt8 × List UInt8) :=
  splitRun wordStep wordPct w xs

def literalStep (rest : RegularExpression UInt8) (c : UInt8) :
    Option (RegularExpression UInt8) :=
  if c == byte ']' then none
  else if void (rest.deriv c) then none
  else some (rest.deriv c)

/-- The longest beginning of an IP literal. -/
def splitLiteral (rest : RegularExpression UInt8) (xs : List UInt8) :
    Option (RegularExpression UInt8 × List UInt8 × List UInt8) :=
  splitRun literalStep (fun _ => none) rest xs

abbrev Read := Except UriFault (Option Uri)

def readFragment (u : Uri) (xs : List UInt8) : Option Uri :=
  match splitText queryChar xs with
  | some (a, []) => some { u with m_fragment := a }
  | _ => none

def readQuery (u : Uri) (xs : List UInt8) : Option Uri :=
  match splitText queryChar xs with
  | some (a, []) => some { u with m_query := a }
  | some (a, c :: ys) =>
    if c == byte '#' then readFragment { u with m_query := a } ys else none
  | none => none

/-- What follows the path. -/
def readTail (u : Uri) : List UInt8 → Option Uri
  | [] => some u
  | c :: xs =>
    if c == byte '?' then readQuery u xs
    else if c == byte '#' then readFragment u xs
    else none

/-- A path that is not saved. -/
def readPath (u : Uri) (xs : List UInt8) : Option Uri :=
  match splitText pathChar xs with
  | some (_, rest) => readTail u rest
  | none => none

/-- The text ends here, or a query or a fragment begins. -/
def beginsTail : List UInt8 → Bool
  | [] => true
  | c :: _ => c == byte '?' || c == byte '#'

/-- The same, or a path begins. -/
def beginsPath : List UInt8 → Bool
  | [] => true
  | c :: _ => c == byte '/' || c == byte '?' || c == byte '#'

/-- The path is saved in `hier_part`, if there is a mark. -/
def savedPath (x : Part) (hasMark : Bool) (u : Uri) (a : List UInt8) : Except UriFault Uri :=
  match x with
  | .relative => .ok u
  | .hier => if hasMark then .ok { u with m_path := a } else .error .null_mark

/-- Behind the authority and the path `a`. -/
def readPathEnd (x : Part) (hasMark : Bool) (u : Uri) (a rest : List UInt8) : Read :=
  if beginsTail rest then (savedPath x hasMark u a).map fun u => readTail u rest
  else .ok none

/-- Behind the authority. -/
def readEnd (x : Part) (hasMark : Bool) (u : Uri) (xs : List UInt8) : Read :=
  if beginsPath xs then
    match splitText pathChar xs with
    | some (a, rest) => readPathEnd x hasMark u a rest
    | none => .ok none
  else .ok none

/-- The digits `d` of a port, and what follows: an empty port leaves no mark. -/
def readPortEnd (x : Part) (u : Uri) (d rest : List UInt8) : Read :=
  if d = [] then readEnd x false u rest else readEnd x true { u with m_port := atoi d } rest

section Host

variable (x : Part) (b : Bool) (k : Uri → List UInt8 → Read)

/-- A password, with `tok` in front of it in the saved string; `k` goes on behind the user
information. -/
def readPassword (u : Uri) (tok xs : List UInt8) : Read :=
  match splitText userinfoChar xs with
  | some (i, c :: ys) =>
    if c == byte '@' then k { u with m_userinfo := tok ++ i } ys else .ok none
  | _ => .ok none

/-- Behind the digits `d` of a port, or of user information if `b`, with `tok` in front of the rest
then saved. -/
def readDigitsEnd (u : Uri) (tok d rest : List UInt8) : Read :=
  if b && rest.head?.any infoByte then readPassword k u tok rest
  else readPortEnd x u d rest

/-- Behind a colon, in front of which `a` has been read. -/
def readPort (u : Uri) (a xs : List UInt8) : Read :=
  readDigitsEnd x b k u
    (if xs.takeWhile digit = [] then a ++ [byte ':'] else xs.takeWhile digit)
    (xs.takeWhile digit) (xs.dropWhile digit)

/-- Behind the host `a`. -/
def readHostEnd (u : Uri) (a xs : List UInt8) : Read :=
  if xs.head? = some (byte ':') then readPort x b k { u with m_host := a } a xs.tail
  else readEnd x true { u with m_host := a } xs

/-- Behind text that may be user information or a host. -/
def readWordEnd (u : Uri) (w : Word) (a xs : List UInt8) : Read :=
  if (b && w.isText) = true ∧ xs.head? = some (byte '@') then
    k { u with m_userinfo := a } xs.tail
  else if w.complete then readHostEnd x (b && w.isText) k u a xs
  else .ok none

/-- Behind the opening bracket. -/
def readLiteral (u : Uri) (xs : List UInt8) : Read :=
  match splitLiteral literal xs with
  | some (rest, w, c :: ys) =>
    if c == byte ']' && rest.matchEpsilon then
      readHostEnd x false k u (byte '[' :: (w ++ [byte ']'])) ys
    else .ok none
  | _ => .ok none

/-- A host, or user information if `b`. -/
def readHost (u : Uri) (xs : List UInt8) : Read :=
  if xs.head? = some (byte '[') then readLiteral x k u xs.tail
  else
    match splitWord .start xs with
    | some (w, a, rest) => readWordEnd x b k u w a rest
    | none => .ok none

end Host

/-- Behind the two slashes. -/
def readAuthority (x : Part) (u : Uri) (xs : List UInt8) : Read :=
  readHost x true (readHost x false fun _ _ => .ok none) u xs

/-- An authority, or a path that is read by `other`. -/
def readSlashes (x : Part) (u : Uri) (other : List UInt8 → Option Uri) (xs : List UInt8) :
    Read :=
  match xs with
  | c :: d :: ys =>
    if c == byte '/' && d == byte '/' then readAuthority x u ys
    else .ok (other (c :: d :: ys))
  | xs => .ok (other xs)

/-- A reference whose first segment is not a scheme. -/
def readSegment (u : Uri) (xs : List UInt8) : Option Uri :=
  match splitText segmentChar xs with
  | some (_, rest) => if beginsPath rest then readPath u rest else none
  | none => none

/-- The scheme and what follows its colon. -/
def splitScheme (xs : List UInt8) : Option (List UInt8 × List UInt8) :=
  if xs.head?.any alpha then
    match xs.dropWhile schemeChar with
    | c :: ys => if c == byte ':' then some (xs.takeWhile schemeChar, ys) else none
    | [] => none
  else none

/-- **The reader.** -/
def readUri (xs : List UInt8) : Read :=
  match splitScheme xs with
  | some (t, ys) => readSlashes .hier { m_scheme := t } (readPath { m_scheme := t }) ys
  | none => readSlashes .relative {} (readSegment {}) xs

/-! ## The machine behind a text -/

/-- What comes of the machine in state `q`, behind `pre` and in front of `xs`. -/
def runAt (pre xs : List UInt8) (q : Cs) (r : Registers) : Read := do
  let (p, cs, r) ← machine.scan (pre ++ xs) xs pre.length q r
  finish (pre ++ xs) p cs r

section Steps

variable {pre xs : List UInt8} {q q' : Cs} {c : UInt8} {as : List Act} {r r' : Registers}

private theorem runAt_end (pre : List UInt8) (q : Cs) (r : Registers) :
    runAt pre [] q r = finish pre pre.length q r := by
  have hrun : runAt pre [] q r = finish (pre ++ []) pre.length q r := rfl
  rw [hrun, append_nil]

/-- One byte. -/
theorem runAt_cons (pre xs : List UInt8) (q : Cs) (c : UInt8) (r : Registers) :
    runAt pre (c :: xs) q r = if (next q c).1.dead then .ok none
        else machine.performAll (pre ++ c :: xs) pre.length (next q c).2 r
          >>= runAt (pre ++ [c]) xs (next q c).1 := by
  have htext : pre ++ [c] ++ xs = pre ++ c :: xs := by simp
  cases hdead : (next q c).1.dead with
  | true =>
    have hstop : machine.dead (machine.next q c).1 = true := hdead
    rw [runAt, Machine.scan, if_pos hstop, if_pos rfl]
    exact if_pos hdead
  | false =>
    have hgo : machine.stopped (machine.next q c).1 = false := by
      rw [Machine.stopped]
      exact Bool.or_eq_false_iff.mpr ⟨hdead, rfl⟩
    rw [if_neg Bool.false_ne_true]
    cases hact : machine.performAll (pre ++ c :: xs) pre.length (next q c).2 r with
    | error e =>
      have hlive : machine.dead (machine.next q c).1 = false := hdead
      have hfault : machine.performAll (pre ++ c :: xs) pre.length (machine.next q c).2 r
          = .error e := hact
      rw [runAt, Machine.scan, hlive, if_neg Bool.false_ne_true, hfault]
      rfl
    | ok r' =>
      rw [runAt, scan_cons xs hgo hact]
      show _ = runAt (pre ++ [c]) xs (next q c).1 r'
      rw [runAt, htext, length_append]
      rfl

theorem runAt_nil (hq : q.dead = false) (heof : eofActs q = as)
    (hact : machine.performAll pre pre.length as r = .ok r') :
    runAt pre [] q r = .ok (if q.final then some r'.toUri else none) := by
  rw [runAt_end, finish, hq, if_neg Bool.false_ne_true, heof, hact]
  rfl

/-- A byte with its actions. -/
theorem runAt_next (hnext : next q c = (q', as)) (hq' : q'.dead = false)
    (hact : machine.performAll (pre ++ c :: xs) pre.length as r = .ok r') :
    runAt pre (c :: xs) q r = runAt (pre ++ [c]) xs q' r' := by
  rw [runAt_cons, hnext, hq', if_neg Bool.false_ne_true, hact]
  rfl

/-- A byte without actions. -/
theorem runAt_step (hnext : next q c = (q', [])) (hq' : q'.dead = false) :
    runAt pre (c :: xs) q r = runAt (pre ++ [c]) xs q' r :=
  runAt_next hnext hq' rfl

theorem runAt_fail (hnext : next q c = fail) : runAt pre (c :: xs) q r = .ok none := by
  rw [runAt_cons, hnext]
  rfl

/-- A byte with its actions, behind which the registers but the mark decide. -/
theorem runAt_map {f : Uri → Option Uri} (hnext : next q c = (q', as)) (hq' : q'.dead = false)
    (hf : ∀ u m, runAt (pre ++ [c]) xs q' ⟨u, m⟩ = .ok (f u)) :
    runAt pre (c :: xs) q r
      = ((machine.performAll (pre ++ c :: xs) pre.length as r).map (·.toUri)).map f := by
  rw [runAt_cons, hnext, hq', if_neg Bool.false_ne_true]
  cases machine.performAll (pre ++ c :: xs) pre.length as r with
  | error e => rfl
  | ok r' => exact hf _ _

/-- Two states that do the same with the next byte, or with the end of the text. -/
theorem runAt_congr {q₀ : Cs} {r₀ : Registers}
    (heof : xs = [] → finish pre pre.length q₀ r₀ = finish pre pre.length q r)
    (hnext : ∀ c ys, xs = c :: ys → (next q₀ c).1 = (next q c).1
      ∧ machine.performAll (pre ++ xs) pre.length (next q₀ c).2 r₀
        = machine.performAll (pre ++ xs) pre.length (next q c).2 r) :
    runAt pre xs q₀ r₀ = runAt pre xs q r := by
  cases xs with
  | nil => rw [runAt_end, runAt_end, heof rfl]
  | cons c ys =>
    obtain ⟨hstate, hact⟩ := hnext c ys rfl
    rw [runAt_cons, runAt_cons, hstate, hact]

/-- The same transition. -/
theorem runAt_same {q₀ : Cs} {ys : List UInt8} (hnext : next q₀ c = next q c) :
    runAt pre (c :: ys) q₀ r = runAt pre (c :: ys) q r := by
  rw [runAt_cons, runAt_cons, hnext]

end Steps

/-- Bytes at which the machine stays. -/
theorem runAt_while {p : UInt8 → Bool} {q : Cs} (hlive : q.dead = false)
    (hnext : ∀ c, p c = true → next q c = (q, [])) (r : Registers) (xs pre : List UInt8) :
    runAt pre xs q r = runAt (pre ++ xs.takeWhile p) (xs.dropWhile p) q r := by
  induction xs generalizing pre with
  | nil => rw [takeWhile_nil, append_nil, dropWhile_nil]
  | cons c xs ih =>
    by_cases hc : p c = true
    · rw [runAt_step (hnext c hc) hlive, ih, takeWhile_cons_of_pos hc,
        dropWhile_cons_of_pos hc, append_assoc]
      rfl
    · rw [takeWhile_cons_of_neg hc, dropWhile_cons_of_neg hc, append_nil]

/-- **The machine inside a component**: it goes to the end of the run, or fails at a percent
sign. -/
--  case3 t c hc|a whole `pct_encoded`
--  case5 t c xs|a percent sign out of place, or with too few bytes behind it
theorem runAt_region {τ : Type} (step : τ → UInt8 → Option τ) (pct : τ → Option τ)
    (state : τ → Cs) (hlive : ∀ t, (state t).dead = false)
    (hstep : ∀ t c t', step t c = some t' → next (state t) c = (state t', []))
    (hpct : ∀ t, step t (byte '%') = none → next (state t) (byte '%')
      = match pct t with | some t' => (.pct_encoded (state t'), []) | none => fail)
    (t : τ) (xs pre : List UInt8) (r : Registers) :
    runAt pre xs (state t) r = match splitRun step pct t xs with
        | some (t', a, rest) => runAt (pre ++ a) rest (state t') r
        | none => .ok none := by
  have hdigit : ∀ back c, xdigit c = true → next (.pct_encoded back) c = (.pct_digit back, [])
      ∧ next (.pct_digit back) c = (back, []) := fun _ _ hc => ⟨if_pos hc, if_pos hc⟩
  have hnodigit : ∀ back c, ¬ xdigit c = true → next (.pct_encoded back) c = fail
      ∧ next (.pct_digit back) c = fail := fun _ _ hc => ⟨if_neg hc, if_neg hc⟩
  fun_induction splitRun step pct t xs generalizing pre with
  | case1 t => simp only [append_nil]
  | case2 t c xs t₁ hc ih =>
    rw [runAt_step (hstep t c t₁ hc) (hlive t₁), ih]
    cases splitRun step pct t₁ xs with
    | none => rfl
    | some y => simp [append_assoc]
  | case3 t c hc hx t₁ hi lo ys hp hdig ih =>
    rw [beq_iff_eq] at hx
    subst hx
    rw [Bool.and_eq_true] at hdig
    have hnext := hpct t hc
    rw [hp] at hnext
    rw [runAt_step hnext rfl, runAt_step (hdigit _ hi hdig.1).1 rfl,
      runAt_step (hdigit _ lo hdig.2).2 (hlive t₁), ih]
    cases splitRun step pct t₁ ys with
    | none => rfl
    | some y => simp [append_assoc]
  | case4 t c hc hx t₁ hi lo ys hp hdig =>
    rw [beq_iff_eq] at hx
    subst hx
    have hnext := hpct t hc
    rw [hp] at hnext
    rw [runAt_step hnext rfl]
    by_cases hhi : xdigit hi = true
    · have hlo : ¬ xdigit lo = true := fun h => hdig (by rw [hhi, h]; rfl)
      rw [runAt_step (hdigit _ hi hhi).1 rfl, runAt_fail (hnodigit _ lo hlo).2]
    · rw [runAt_fail (hnodigit _ hi hhi).1]
  | case5 t c xs hc hx hno =>
    rw [beq_iff_eq] at hx
    subst hx
    have hnext := hpct t hc
    cases hp : pct t with
    | none =>
      rw [hp] at hnext
      rw [runAt_fail hnext]
    | some t₁ =>
      rw [hp] at hnext
      rw [runAt_step hnext rfl]
      match xs with
      | [] => exact runAt_nil rfl rfl rfl
      | [hi] =>
        by_cases hhi : xdigit hi = true
        · rw [runAt_step (hdigit _ hi hhi).1 rfl]
          exact runAt_nil rfl rfl rfl
        · rw [runAt_fail (hnodigit _ hi hhi).1]
      | hi :: lo :: ys => exact absurd rfl (hno t₁ hi lo ys hp)
  | case6 t c xs hc hx => simp only [append_nil]

/-- The machine inside text of one class, which `other` follows. -/
theorem runAt_text {q : Cs} {other : UInt8 → Cs × List Act} (hlive : q.dead = false)
    (hnext : ∀ c, next q c = if ok c then (q, [])
      else if c == byte '%' then (.pct_encoded q, []) else other c) (hok : ok (byte '%') = false)
    (pre xs : List UInt8) (r : Registers) :
    runAt pre xs q r = .ok none ∧ splitText ok xs = none
      ∨ ∃ a rest, splitText ok xs = some (a, rest) ∧ runAt pre xs q r = runAt (pre ++ a) rest q r
        ∧ ∀ c ys, rest = c :: ys → next q c = other c := by
  have hregion := runAt_region (textStep ok) some (fun _ => q) (fun _ => hlive) (fun _ c _ h => by
      rw [hnext, if_pos]
      by_contra hc
      rw [textStep, if_neg hc] at h
      nomatch h)
    (fun _ _ => by rw [hnext, hok]; rfl) () xs pre r
  rw [hregion]
  cases hsplit : splitRun (textStep ok) some () xs with
  | none => exact Or.inl ⟨rfl, by rw [splitText, hsplit]; rfl⟩
  | some y =>
    obtain ⟨t, a, rest⟩ := y
    refine Or.inr ⟨a, rest, by rw [splitText, hsplit]; rfl, rfl, fun c ys hys => ?_⟩
    obtain ⟨hc, hpct⟩ := (splitRun_iff.mp hsplit).2.2 c ys hys
    rw [hnext, textStep_none.mp hc, if_neg Bool.false_ne_true,
      if_neg fun h => hpct (beq_iff_eq.mp h)]

/-! ## Taking strings from the mark -/

section Saves

variable {buffer pre tok : List UInt8}

theorem marked_at (h : pre ++ tok <+: buffer) :
    marked buffer (pre ++ tok).length (some pre.length) = .ok tok := by
  obtain ⟨rest, rfl⟩ := h
  have hlen : (pre ++ tok).length - pre.length = tok.length := by
    rw [length_append]
    omega
  rw [marked, if_pos (by rw [length_append]; omega), hlen, append_assoc, window_middle]

/-- An action that takes a string. -/
theorem save_at {a : Act} {keep : Option Nat} {u : Uri} (h : pre ++ tok <+: buffer)
    (ha : perform buffer (pre ++ tok).length a ⟨u, some pre.length⟩
      = take buffer (pre ++ tok).length a keep ⟨u, some pre.length⟩) :
    machine.performAll buffer (pre ++ tok).length [a] ⟨u, some pre.length⟩
      = .ok ⟨a.store tok u, keep⟩ := by
  refine performAll_one (ha.trans ?_)
  rw [take, marked_at h]
  rfl

end Saves

/-- `atoi` of digits, whatever other byte follows. -/
theorem atoi_digits {d : List UInt8} (rest : List UInt8) (hne : d ≠ [])
    (hd : ∀ c ∈ d, digit c = true) (hrest : ∀ c ys, rest = c :: ys → digit c = false) :
    atoi (d ++ rest) = SylarHttpClient.toInt32
          (SylarHttpClient.clampLong false (SylarHttpClient.decDigits d)) :=
  congrArg SylarHttpClient.toInt32 (SylarHttpClient.strtol10_digits rest hne hd hrest)

/-! ## Fragment, query and path -/

theorem fragment_run (u : Uri) (pre xs : List UInt8) :
    runAt pre xs .fragment ⟨u, some pre.length⟩ = .ok (readFragment u xs) := by
  rw [readFragment]
  rcases runAt_text (q := .fragment) rfl (fun c => rfl) rfl pre xs ⟨u, some pre.length⟩ with
    ⟨hrun, hsplit⟩ | ⟨a, rest, hsplit, hrun, hnext⟩
  · rw [hrun, hsplit]
  · rw [hrun, hsplit]
    cases rest with
    | nil => exact runAt_nil (q := .fragment) rfl rfl (save_at prefix_rfl rfl)
    | cons c ys => exact runAt_fail (hnext c ys rfl)

/-- Behind the number sign. -/
theorem numberSign_run (u : Uri) (m : Option Nat) (pre xs : List UInt8) :
    runAt pre xs .numberSign ⟨u, m⟩ = .ok (readFragment u xs) := by
  rw [← fragment_run u pre xs]
  refine runAt_congr (fun _ => rfl) fun c ys _ => ?_
  show (markedu (fragmentNext c)).1 = (fragmentNext c).1
    ∧ machine.performAll _ _ (markedu (fragmentNext c)).2 _
      = machine.performAll _ _ (fragmentNext c).2 _
  rw [fragmentNext]
  split_ifs <;> exact ⟨rfl, rfl⟩

theorem query_run (u : Uri) (pre xs : List UInt8) :
    runAt pre xs .query ⟨u, some pre.length⟩ = .ok (readQuery u xs) := by
  rw [readQuery]
  rcases runAt_text (q := .query) rfl (fun c => rfl) rfl pre xs ⟨u, some pre.length⟩ with
    ⟨hrun, hsplit⟩ | ⟨a, rest, hsplit, hrun, hnext⟩
  · rw [hrun, hsplit]
  · rw [hrun, hsplit]
    cases rest with
    | nil => exact runAt_nil (q := .query) rfl rfl (save_at prefix_rfl rfl)
    | cons c ys =>
      have hc := hnext c ys rfl
      dsimp only
      split_ifs at hc ⊢ with hhash
      · rw [runAt_next hc rfl (save_at (prefix_append _ _) rfl)]
        exact numberSign_run _ _ _ _
      · exact runAt_fail hc

/-- Behind the question mark. -/
theorem questionMark_run (u : Uri) (m : Option Nat) (pre xs : List UInt8) :
    runAt pre xs .questionMark ⟨u, m⟩ = .ok (readQuery u xs) := by
  rw [← query_run u pre xs]
  refine runAt_congr (fun _ => rfl) fun c ys _ => ?_
  show (markedu (queryNext c)).1 = (queryNext c).1
    ∧ machine.performAll _ _ (markedu (queryNext c)).2 _ = machine.performAll _ _ (queryNext c).2 _
  rw [queryNext]
  split_ifs <;> exact ⟨rfl, rfl⟩

/-- The byte behind a path, with the actions `as`. -/
def tailNext (as : List Act) (c : UInt8) : Cs × List Act :=
  if c == byte '?' then (.questionMark, as)
  else if c == byte '#' then (.numberSign, as)
  else fail

/-- Behind a path, of which the actions `as` make `saved`. -/
theorem tail_run {q : Cs} {pre xs : List UInt8} {r : Registers} (as : List Act)
    {saved : Except UriFault Uri} (hlive : q.dead = false) (hfinal : q.final = true)
    (heof : xs = [] → eofActs q = as)
    (hnext : ∀ c ys, xs = c :: ys → next q c = tailNext as c)
    (hact : (machine.performAll (pre ++ xs) pre.length as r).map (·.toUri) = saved) :
    runAt pre xs q r = if beginsTail xs then saved.map fun u => readTail u xs else .ok none := by
  subst hact
  cases xs with
  | nil =>
    rw [runAt_end, finish, hlive, if_neg Bool.false_ne_true, heof rfl, hfinal, append_nil]
    cases machine.performAll pre pre.length as r <;> rfl
  | cons c ys =>
    have hc := hnext c ys rfl
    rw [tailNext] at hc
    by_cases hq : c = byte '?'
    · subst hq
      exact runAt_map hc rfl fun u m => questionMark_run u m _ _
    by_cases hf : c = byte '#'
    · subst hf
      exact runAt_map hc rfl fun u m => numberSign_run u m _ _
    rw [if_neg (by rwa [beq_iff_eq]), if_neg (by rwa [beq_iff_eq])] at hc
    rw [runAt_fail hc, beginsTail, beq_false_of_ne hq, beq_false_of_ne hf]
    rfl

theorem readTail_none {xs : List UInt8} (u : Uri) (h : beginsTail xs = false) :
    readTail u xs = none := by
  cases xs with
  | nil => nomatch h
  | cons c ys =>
    rw [beginsTail, Bool.or_eq_false_iff] at h
    rw [readTail, h.1, h.2]
    rfl

/-- In front of something else, nothing comes of a rest. -/
theorem ok_readTail (u : Uri) (xs : List UInt8) :
    (if beginsTail xs then (.ok (readTail u xs) : Read) else .ok none) = .ok (readTail u xs) := by
  cases h : beginsTail xs with
  | true => rfl
  | false =>
    rw [readTail_none u h]
    rfl

/-- A path that is not saved. -/
theorem path_run (u : Uri) (m : Option Nat) (pre xs : List UInt8) :
    runAt pre xs .path ⟨u, m⟩ = .ok (readPath u xs) := by
  rw [readPath]
  rcases runAt_text (q := .path) rfl (fun c => rfl) rfl pre xs ⟨u, m⟩ with
    ⟨hrun, hsplit⟩ | ⟨a, rest, hsplit, hrun, hnext⟩
  · rw [hrun, hsplit]
  · rw [hrun, hsplit, tail_run [] rfl rfl (fun _ => rfl) hnext rfl]
    exact ok_readTail u rest

/-- A path that is saved from the mark, if there is one. -/
theorem path_abempty_run (hasMark : Bool) (u : Uri) (pre tok xs : List UInt8) :
    runAt (pre ++ tok) xs .path_abempty ⟨u, if hasMark then some pre.length else none⟩
      = match splitText pathChar xs with
        | some (a, rest) => readPathEnd .hier hasMark u (tok ++ a) rest
        | none => .ok none := by
  rcases runAt_text (q := .path_abempty) rfl (fun c => rfl) rfl (pre ++ tok) xs
    ⟨u, if hasMark then some pre.length else none⟩ with
    ⟨hrun, hsplit⟩ | ⟨a, rest, hsplit, hrun, hnext⟩
  · rw [hrun, hsplit]
  · rw [hrun, hsplit, append_assoc]
    refine tail_run [.save_path] rfl rfl (fun _ => rfl) hnext ?_
    cases hasMark with
    | false => rfl
    | true =>
      rw [if_pos rfl, save_at (prefix_append _ rest) rfl]
      rfl

/-! ## Behind the authority -/

theorem performAll_append (buffer : List UInt8) (p : Nat) (as bs : List Act) (r : Registers) :
    machine.performAll buffer p (as ++ bs) r
      = machine.performAll buffer p as r >>= machine.performAll buffer p bs :=
  foldlM_append

theorem beginsTail_stops {xs : List UInt8} (h : beginsTail xs = true) : Stops pathChar xs := by
  rintro c ys rfl
  rw [beginsTail, Bool.or_eq_true, beq_iff_eq, beq_iff_eq] at h
  rcases h with rfl | rfl <;> exact ⟨by decide, by decide⟩

theorem beginsPath_cons {c : UInt8} (ys : List UInt8) (hc : c ≠ byte '/') :
    beginsPath (c :: ys) = beginsTail (c :: ys) := by
  rw [beginsPath, beginsTail, beq_false_of_ne hc, Bool.false_or]

/-- **Behind the authority**, which ends with the actions `as`: they leave a mark for the path
of `hier_part`, or not. -/
theorem end_run {x : Part} {q : Cs} {as : List Act} {hasMark : Bool} {u : Uri} {m : Option Nat}
    {pre xs : List UInt8} {r : Registers} (hlive : q.dead = false) (hfinal : q.final = true)
    (heof : xs = [] → eofActs q = leavePath x as)
    (hnext : ∀ c ys, xs = c :: ys → next q c = authorityEnd x as c)
    (hleave : leavePath .hier as = enterPath .hier as ++ [.save_path])
    (hact : machine.performAll (pre ++ xs) pre.length as r = .ok ⟨u, m⟩)
    (henter : machine.performAll (pre ++ xs) pre.length (enterPath .hier as) r
      = .ok ⟨u, if hasMark then some pre.length else none⟩) :
    runAt pre xs q r = readEnd x hasMark u xs := by
  by_cases hslash : ∃ ys, xs = byte '/' :: ys
  · obtain ⟨ys, rfl⟩ := hslash
    have hc := hnext _ ys rfl
    have hbegins : beginsPath (byte '/' :: ys) = true := rfl
    rw [readEnd, if_pos hbegins, splitText_cons ys (show pathChar (byte '/') = true by decide)]
    cases x with
    | relative =>
      rw [runAt_next hc rfl hact, path_run, readPath]
      cases splitText pathChar ys with
      | none => rfl
      | some y => exact (ok_readTail u y.2).symm
    | hier =>
      rw [runAt_next hc rfl henter, path_abempty_run]
      cases splitText pathChar ys <;> rfl
  -- no path: the empty one is saved, if the grammar saves it here
  · have htail : ∀ c ys, xs = c :: ys → next q c = tailNext (leavePath x as) c := by
      intro c ys hys
      rw [hnext c ys hys, authorityEnd.eq_def, if_neg]
      · rfl
      · rw [beq_iff_eq]
        rintro rfl
        exact hslash ⟨ys, hys⟩
    have hsaved : (machine.performAll (pre ++ xs) pre.length (leavePath x as) r).map (·.toUri)
        = savedPath x hasMark u [] := by
      cases x with
      | relative =>
        rw [leavePath, hact]
        rfl
      | hier =>
        rw [hleave, performAll_append, henter]
        cases hasMark with
        | false => rfl
        | true =>
          have hempty : pre ++ [] <+: pre ++ xs := by simp
          have hsave := save_at (a := .save_path) (u := u) hempty rfl
          rw [append_nil] at hsave
          show (machine.performAll (pre ++ xs) pre.length [.save_path]
            ⟨u, some pre.length⟩).map _ = _
          rw [hsave]
          rfl
    have hbegins : beginsPath xs = beginsTail xs := by
      cases xs with
      | nil => rfl
      | cons c ys => exact beginsPath_cons ys fun hc => hslash ⟨ys, hc ▸ rfl⟩
    rw [tail_run _ hlive hfinal heof htail hsaved, readEnd, hbegins]
    cases hb : beginsTail xs with
    | false => rfl
    | true =>
      have hsplit : splitText pathChar xs = some ([], xs) :=
        splitText_iff.mpr ⟨rfl, Text.nil _, beginsTail_stops hb⟩
      rw [hsplit]
      dsimp only
      rw [readPathEnd, hb]
      rfl

end SylarUri
