import Mathlib.Data.List.TakeWhile
import Sylar.UriReaderProofs

/-! # The authority of a URI, and the whole text

While an authority is read it is not known what its parts are: text may turn out to be
user information or a host, digits behind a colon a port or more user information.  The
machine saves what may be a host at the first colon, and a digit behind it moves the mark.

* **`host_run`** — the machine in front of a host, or of user information.
* **`create_eq_read`** — the machine with its one mark does what the reader does. -/

namespace SylarUri

open SylarHttp (byte oneOf digit alpha void)
open List
open ListWindow Scanner

/-! ## The port -/

/-- No digit follows. -/
def stopsDigits (xs : List UInt8) : Prop := ∀ c ys, xs = c :: ys → digit c = false

variable {c : UInt8} {d : List UInt8} {as : List Act} {w : Word}

theorem stopsDigits_dropWhile (xs : List UInt8) : stopsDigits (xs.dropWhile digit) := by
  intro c ys hys
  have hhead := head?_dropWhile_not digit xs
  rw [hys] at hhead
  exact hhead

variable {rest tok : List UInt8} {q : Cs} {other : List UInt8 → Option Uri}

/-- Digits in front of something else. -/
theorem takeWhile_digits (hd : ∀ c ∈ d, digit c = true) (hrest : stopsDigits rest) :
    (d ++ rest).takeWhile digit = d ∧ (d ++ rest).dropWhile digit = rest := by
  rw [takeWhile_append_of_pos hd, dropWhile_append_of_pos hd]
  cases rest with
  | nil => exact ⟨append_nil d, rfl⟩
  | cons c ys =>
    have hc : ¬ digit c = true := by rw [hrest c ys rfl]; exact Bool.false_ne_true
    rw [takeWhile_cons_of_neg hc, dropWhile_cons_of_neg hc, append_nil]
    exact ⟨rfl, rfl⟩

section Host

variable {x : Part} {b : Bool} {k : Uri → List UInt8 → Read} {u : Uri} {pre : List UInt8}

/-- Behind digits: more user information, or a port whose end is read. -/
theorem digitsEnd_run {m : Option Nat} (hnext : ∀ c, ¬ digit c = true → next q c
      = if b && infoByte c then passwordNext x c else authorityEnd x as c)
    (hrest : stopsDigits rest)
    (hpassword : b = true → runAt pre rest (.password x) ⟨u, m⟩ = readPassword k u tok rest)
    (hend : (∀ c ys, rest = c :: ys → next q c = authorityEnd x as c) →
      runAt pre rest q ⟨u, m⟩ = readPortEnd x u d rest) :
    runAt pre rest q ⟨u, m⟩ = readDigitsEnd x b k u tok d rest := by
  have hdigit : ∀ c ys, rest = c :: ys → ¬ digit c = true := fun c ys h => by
    rw [hrest c ys h]
    exact Bool.false_ne_true
  rw [readDigitsEnd]
  by_cases hinfo : (b && rest.head?.any infoByte) = true
  · rw [if_pos hinfo]
    rw [Bool.and_eq_true] at hinfo
    cases rest with
    | nil => exact absurd hinfo.2 Bool.false_ne_true
    | cons c ys =>
      have hc : (b && infoByte c) = true := Bool.and_eq_true_iff.mpr hinfo
      rw [← hpassword hinfo.1]
      exact runAt_same ((hnext c (hdigit c ys rfl)).trans (if_pos hc))
  · rw [if_neg hinfo]
    refine hend fun c ys hys => (hnext c (hdigit c ys hys)).trans (if_neg ?_)
    rw [hys] at hinfo
    exact hinfo

variable (hk : b = true → ∀ u m pre xs, runAt pre xs (.host x false) ⟨u, m⟩ = k u xs)

include hk

theorem password_run (hb : b = true) (tok xs : List UInt8) :
    runAt (pre ++ tok) xs (.password x) ⟨u, some pre.length⟩ = readPassword k u tok xs := by
  rw [readPassword]
  rcases runAt_text (q := .password x) rfl (fun c => rfl) rfl (pre ++ tok) xs
    ⟨u, some pre.length⟩ with ⟨hrun, hsplit⟩ | ⟨a, rest, hsplit, hrun, hnext⟩
  · rw [hrun, hsplit]
  · rw [hrun, hsplit, append_assoc]
    cases rest with
    | nil => exact runAt_nil (q := .password x) rfl rfl rfl
    | cons c ys =>
      have hc := hnext c ys rfl
      dsimp only
      split_ifs at hc ⊢ with hat
      · rw [runAt_next hc rfl (save_at (prefix_append _ _) rfl), hk hb]
        rfl
      · exact runAt_fail hc

/-- Behind the first digits, in front of which the mark is. -/
theorem port_run (xs : List UInt8) (hne : d ≠ []) (hd : ∀ c ∈ d, digit c = true)
    (hxs : stopsDigits xs) :
    runAt (pre ++ d) xs (.port x b) ⟨u, some pre.length⟩ = readDigitsEnd x b k u d d xs := by
  have hlen : (pre ++ d).length ≠ pre.length := by
    have := length_pos_iff.mpr hne
    rw [length_append]
    omega
  have hself := atoi_digits [] hne hd (fun c ys h => nomatch h)
  rw [append_nil] at hself
  have hsave : perform (pre ++ d ++ xs) (pre ++ d).length .save_port ⟨u, some pre.length⟩
      = .ok ⟨{ u with m_port := atoi d }, none⟩ := by
    simp only [perform]
    rw [if_pos hlen, append_assoc, drop_left, atoi_digits xs hne hd hxs, hself]
  refine digitsEnd_run (fun c hc => if_neg hc) hxs (fun hb => password_run hk hb d xs)
    fun hend => ?_
  rw [readPortEnd, if_neg hne]
  exact end_run rfl rfl (fun _ => rfl) hend rfl (performAll_one hsave) (performAll_two hsave rfl)

/-- Behind a colon, with the mark in front of `a`. -/
theorem portStart_run (a xs : List UInt8) :
    runAt (pre ++ a ++ [byte ':']) xs (.portStart x b) ⟨u, some pre.length⟩
      = readPort x b k u a xs := by
  rw [readPort]
  by_cases hxs : stopsDigits xs
  · obtain ⟨htake, hdrop⟩ := takeWhile_digits (fun c hc => absurd hc not_mem_nil) hxs
    rw [nil_append] at htake hdrop
    rw [htake, hdrop, if_pos rfl]
    refine digitsEnd_run (fun c hc => if_neg hc) hxs (fun hb => ?_) fun hend => ?_
    · rw [append_assoc]
      exact password_run hk hb _ xs
    · have hsave : perform (pre ++ a ++ [byte ':'] ++ xs) (pre ++ a ++ [byte ':']).length
          .save_port ⟨u, some (pre ++ a ++ [byte ':']).length⟩ = .ok ⟨u, none⟩ := by
        simp only [perform, ne_eq, not_true, if_false]
      exact end_run rfl rfl (fun _ => rfl) hend rfl (performAll_two rfl hsave)
        (performAll_two rfl hsave)
  · obtain ⟨c, ys, rfl, hc⟩ : ∃ c ys, xs = c :: ys ∧ digit c = true := by
      simpa [stopsDigits] using hxs
    have hnext : next (.portStart x b) c = (.port x b, [.markh]) := if_pos hc
    have hmark : runAt (pre ++ a ++ [byte ':']) (c :: ys) (.portStart x b) ⟨u, some pre.length⟩
        = runAt (pre ++ a ++ [byte ':'] ++ [c]) ys (.port x b)
            ⟨u, some (pre ++ a ++ [byte ':']).length⟩ := runAt_next hnext rfl rfl
    have hloop : ∀ c, digit c = true → next (.port x b) c = (.port x b, []) := fun c hc => if_pos hc
    have hdigits : ∀ d ∈ c :: ys.takeWhile digit, digit d = true :=
      forall_mem_cons.mpr ⟨hc, fun d hd => mem_takeWhile_imp hd⟩
    rw [hmark, runAt_while rfl hloop, append_assoc _ [c], singleton_append,
      port_run hk _ (cons_ne_nil _ _) hdigits (stopsDigits_dropWhile ys),
      takeWhile_cons_of_pos hc, dropWhile_cons_of_pos hc, if_neg (cons_ne_nil _ _)]

/-- Behind a host, in front of which the mark is. -/
theorem hostEnd_run {xs : List UInt8} (hlive : q.dead = false) (hfinal : q.final = true)
    (heof : eofActs q = leavePath x [.save_host]) (hnext : ∀ c ys, xs = c :: ys → next q c
      = if c == byte ':' then (.portStart x b, [.save_host])
        else authorityEnd x [.save_host] c) :
    runAt (pre ++ tok) xs q ⟨u, some pre.length⟩ = readHostEnd x b k u tok xs := by
  have hsave := save_at (a := .save_host) (u := u) (prefix_append (pre ++ tok) xs) rfl
  rw [readHostEnd]
  by_cases hcolon : xs.head? = some (byte ':')
  · obtain ⟨ys, rfl⟩ := head?_eq_some_iff.mp hcolon
    have hc : next q (byte ':') = (.portStart x b, [.save_host]) := hnext _ ys rfl
    rw [if_pos hcolon, runAt_next hc rfl hsave]
    exact portStart_run hk tok ys
  · rw [if_neg hcolon]
    refine end_run hlive hfinal (fun _ => heof) (fun c ys hys => ?_) rfl hsave ?_
    · rw [hnext c ys hys, if_neg]
      rintro hc
      rw [hys, beq_iff_eq.mp hc] at hcolon
      exact hcolon rfl
    · show machine.performAll _ _ ([.save_host] ++ [.markh]) _ = _
      rw [performAll_append, hsave]
      rfl

end Host

/-! ## The host -/

/-- Behind the opening bracket, in front of which the mark is. -/
theorem literal_run (x : Part) (k : Uri → List UInt8 → Read) (u : Uri) (pre xs : List UInt8) :
    runAt (pre ++ [byte '[']) xs (.IP_literal x literal) ⟨u, some pre.length⟩
      = readLiteral x k u xs := by
  have hstep : ∀ t c t', literalStep t c = some t' →
      next (.IP_literal x t) c = (.IP_literal x t', []) := by
    intro t c t' h
    rw [literalStep] at h
    show literalNext x t c = _
    rw [literalNext]
    split_ifs at h with hclose hvoid
    cases h
    rw [if_neg hclose, if_neg hvoid]
  have hstop : ∀ t c, literalStep t c = none → next (.IP_literal x t) c
      = if c == byte ']' && t.matchEpsilon then (.closed x, []) else fail := by
    intro t c h
    rw [literalStep] at h
    show literalNext x t c = _
    rw [literalNext]
    split_ifs at h with hclose hvoid
    · rw [hclose]
      cases t.matchEpsilon <;> rfl
    · rw [if_neg hclose, if_pos hvoid, Bool.eq_false_iff.mpr hclose]
      rfl
  have hregion := runAt_region literalStep (fun _ => none) (.IP_literal x) (fun _ => rfl) hstep
    (fun t h => hstop t _ h) literal xs (pre ++ [byte '[']) ⟨u, some pre.length⟩
  rw [hregion, readLiteral, splitLiteral]
  cases hsplit : splitRun literalStep (fun _ => none) literal xs with
  | none => rfl
  | some y =>
    obtain ⟨t, w, rest⟩ := y
    cases rest with
    | nil => exact runAt_nil (q := .IP_literal x t) rfl rfl rfl
    | cons c ys =>
      have hnext := hstop t c ((splitRun_iff.mp hsplit).2.2 c ys rfl).1
      dsimp only
      by_cases hclosed : (c == byte ']' && t.matchEpsilon) = true
      · rw [if_pos hclosed] at hnext ⊢
        have hc : c = byte ']' := beq_iff_eq.mp (Bool.and_eq_true_iff.mp hclosed).1
        have htext : pre ++ [byte '['] ++ w ++ [c] = pre ++ (byte '[' :: (w ++ [byte ']'])) := by
          rw [hc]
          simp
        rw [runAt_step hnext rfl, htext]
        exact hostEnd_run (b := false) (q := .closed x) (fun h => nomatch h) rfl rfl rfl
          (fun _ _ _ => rfl)
      · rw [if_neg hclosed] at hnext ⊢
        exact runAt_fail hnext

theorem plain_ne (h : oneOf [':', '@', '%', '/', '?', '#'] c = false) :
    (c == byte ':') = false ∧ c ≠ byte '@' ∧ (c == byte '%') = false
      ∧ oneOf ['/', '?', '#'] c = false := by
  simp only [oneOf, any_cons, any_nil, Bool.or_false, Bool.or_eq_false_iff,
    beq_eq_false_iff_ne] at h ⊢
  exact ⟨h.1.symm, h.2.1.symm, h.2.2.1.symm, h.2.2.2⟩

theorem authorityEnd_other {x : Part} (hc : oneOf ['/', '?', '#'] c = false) :
    authorityEnd x as c = fail := by
  simp only [oneOf, any_cons, any_nil, Bool.or_false, Bool.or_eq_false_iff,
    beq_eq_false_iff_ne] at hc
  rw [authorityEnd.eq_def, beq_false_of_ne hc.1.symm, beq_false_of_ne hc.2.1.symm,
    beq_false_of_ne hc.2.2.symm]
  rfl

/-- A word goes on. -/
theorem wordStep_some {w' : Word} (h : wordStep w c = some w') :
    oneOf [':', '@', '%', '/', '?', '#'] c = false ∧ w.step c = some w' := by
  rw [wordStep] at h
  split_ifs at h with hdelim
  exact ⟨Bool.eq_false_iff.mpr hdelim, h⟩

/-- Where a word cannot go on, a delimiter follows, or the machine fails. -/
theorem wordNext_stop {x : Part} {b : Bool} (h : wordStep w c = none) (hpct : c ≠ byte '%') :
    wordNext x b w c
      = if (b && w.isText) = true ∧ c = byte '@' then (.host x false, [.save_userinfo])
        else if w.complete then
          if c == byte ':' then (.portStart x (b && w.isText), [.save_host])
          else authorityEnd x [.save_host] c
        else fail := by
  have hcases : c = byte ':' ∨ c = byte '@' ∨ c = byte '/' ∨ c = byte '?' ∨ c = byte '#'
      ∨ oneOf [':', '@', '%', '/', '?', '#'] c = false ∧ w.step c = none := by
    rw [wordStep] at h
    split_ifs at h with hdelim
    · simp only [oneOf, any_cons, any_nil, Bool.or_false, Bool.or_eq_true, beq_iff_eq] at hdelim
      rcases hdelim with h | h | h | h | h | h
      · exact Or.inl h.symm
      · exact Or.inr (Or.inl h.symm)
      · exact absurd h.symm hpct
      · exact Or.inr (Or.inr (Or.inl h.symm))
      · exact Or.inr (Or.inr (Or.inr (Or.inl h.symm)))
      · exact Or.inr (Or.inr (Or.inr (Or.inr (Or.inl h.symm))))
    · exact Or.inr (Or.inr (Or.inr (Or.inr (Or.inr ⟨Bool.eq_false_iff.mpr hdelim, h⟩))))
  have hat : ∀ {c}, c ≠ byte '@' → ¬ ((b && w.isText) = true ∧ c = byte '@') := fun hc h => hc h.2
  rw [wordNext.eq_def]
  rcases hcases with rfl | rfl | rfl | rfl | rfl | ⟨hplain, hstep⟩
  · rw [if_neg (hat (by decide))]
    rfl
  · cases hbw : b && w.isText with
    | true => rfl
    | false => cases w.complete <;> rfl
  · rw [if_neg (hat (by decide))]
    rfl
  · rw [if_neg (hat (by decide))]
    rfl
  · rw [if_neg (hat (by decide))]
    rfl
  · obtain ⟨hcolon, hne, hp, hother⟩ := plain_ne hplain
    rw [hcolon, beq_false_of_ne hne, hp, hother, hstep, if_neg (hat hne), authorityEnd_other hother]
    cases w.complete <;> rfl

/-- The machine inside a host, or user information. -/
theorem word_region (x : Part) (b : Bool) (pre xs : List UInt8) (r : Registers) :
    runAt pre xs (.word x b .start) r = match splitWord .start xs with
        | some (w, a, rest) => runAt (pre ++ a) rest (.word x b w) r
        | none => .ok none := by
  have hregion := runAt_region wordStep wordPct (.word x b) (fun _ => rfl) (fun w c w' h => by
      obtain ⟨hdelim, hstep⟩ := wordStep_some h
      obtain ⟨hcolon, hat, hpct, hother⟩ := plain_ne hdelim
      show wordNext x b w c = _
      rw [wordNext.eq_def, hcolon, beq_false_of_ne hat, hpct, hother, hstep]
      rfl) (fun w _ => by
      show wordNext x b w _ = _
      rw [wordNext.eq_def, wordPct]
      cases w.isText <;> rfl) .start xs pre r
  rw [hregion, splitWord]
  cases splitRun wordStep wordPct .start xs <;> rfl

/-- The actions of the transitions from a host. -/
def HostActs (as : List Act) : Prop :=
  as = [] ∨ as = [.save_host] ∨ as = [.save_userinfo]
    ∨ ∃ x, as = enterPath x [.save_host] ∨ as = leavePath x [.save_host]

/-- At the beginning of a host, the mark is set first. -/
theorem performAll_markh (has : HostActs as) (buffer : List UInt8) (p : Nat) (u : Uri)
    (m : Option Nat) :
    machine.performAll buffer p (Act.markh :: as).eraseDups ⟨u, m⟩
      = machine.performAll buffer p as ⟨u, some p⟩ := by
  have hhost : perform buffer p .save_host ⟨u, some p⟩ = .ok ⟨{ u with m_host := [] }, some p⟩ := by
    have hempty : marked buffer p (some p) = .ok [] := by
      rw [marked, if_pos (Nat.le_refl p), Nat.sub_self, window_zero]
    show take buffer p .save_host (some p) ⟨u, some p⟩ = _
    rw [take, hempty]
    rfl
  have hmark : ∀ r : Registers, perform buffer p .markh r = .ok { r with mark := some p } :=
    fun _ => rfl
  -- the two orders of setting the mark and saving an empty host
  have hswap : machine.performAll buffer p [.markh, .save_host] ⟨u, m⟩
      = machine.performAll buffer p [.save_host, .markh] ⟨u, some p⟩ := by
    rw [performAll_two (hmark _) hhost, performAll_two hhost (hmark _)]
  rcases has with rfl | rfl | rfl | ⟨x, rfl | rfl⟩
  · rfl
  · rfl
  · rfl
  · cases x with
    | relative => rfl
    | hier => exact hswap
  · cases x with
    | relative => rfl
    | hier =>
      show machine.performAll buffer p ([.markh, .save_host] ++ [.save_path]) _
        = machine.performAll buffer p ([.save_host, .markh] ++ [.save_path]) _
      rw [performAll_append, performAll_append, hswap]

theorem hostActs_wordNext (x : Part) (b : Bool) (w : Word) (c : UInt8) :
    HostActs (wordNext x b w c).2 := by
  rw [wordNext.eq_def, authorityEnd.eq_def]
  split_ifs
  · exact Or.inr (Or.inl rfl)
  · exact Or.inl rfl
  · exact Or.inr (Or.inr (Or.inl rfl))
  · exact Or.inl rfl
  · exact Or.inl rfl
  · exact Or.inl rfl
  · exact Or.inr (Or.inr (Or.inr ⟨x, Or.inl rfl⟩))
  · exact Or.inr (Or.inr (Or.inr ⟨x, Or.inr rfl⟩))
  · exact Or.inr (Or.inr (Or.inr ⟨x, Or.inr rfl⟩))
  · exact Or.inl rfl
  · exact Or.inl rfl
  · cases w.step c <;> exact Or.inl rfl

/-- **In front of a host, or user information**, behind which `k` goes on. -/
theorem host_run {x : Part} {b : Bool} {k : Uri → List UInt8 → Read}
    (hk : b = true → ∀ u m pre xs, runAt pre xs (.host x false) ⟨u, m⟩ = k u xs) (u : Uri)
    (m : Option Nat) (pre xs : List UInt8) :
    runAt pre xs (.host x b) ⟨u, m⟩ = readHost x b k u xs := by
  rw [readHost]
  by_cases hopen : xs.head? = some (byte '[')
  · obtain ⟨ys, rfl⟩ := head?_eq_some_iff.mp hopen
    have hmark : runAt pre (byte '[' :: ys) (.host x b) ⟨u, m⟩
        = runAt (pre ++ [byte '[']) ys (.IP_literal x literal) ⟨u, some pre.length⟩ :=
      runAt_next rfl rfl rfl
    rw [if_pos hopen, hmark]
    exact literal_run x k u pre ys
  -- a registered name: marking first is the same as starting inside the word
  have hstart : runAt pre xs (.host x b) ⟨u, m⟩
      = runAt pre xs (.word x b .start) ⟨u, some pre.length⟩ := by
    refine runAt_congr (fun _ => ?_) fun c ys hys => ?_
    · have hacts : leavePath x [.markh, .save_host]
          = (Act.markh :: leavePath x [.save_host]).eraseDups := by
        cases x <;> rfl
      show (machine.performAll _ _ (leavePath x [.markh, .save_host]) _ >>= _) = _
      rw [hacts, performAll_markh (Or.inr (Or.inr (Or.inr ⟨x, Or.inr rfl⟩)))]
      rfl
    · have hnext : next (.host x b) c = markedh (wordNext x b .start c) := by
        refine if_neg fun hc => hopen ?_
        rw [hys, beq_iff_eq.mp hc]
        rfl
      rw [hnext]
      exact ⟨rfl, performAll_markh (hostActs_wordNext x b .start c) _ _ u m⟩
  rw [if_neg hopen, hstart, word_region]
  cases hsplit : splitWord .start xs with
  | none => rfl
  | some y =>
    obtain ⟨w, a, rest⟩ := y
    have hnext : ∀ c ys, rest = c :: ys → next (.word x b w) c = _ := fun c ys hys =>
      wordNext_stop ((splitRun_iff.mp hsplit).2.2 c ys hys).1
        ((splitRun_iff.mp hsplit).2.2 c ys hys).2
    dsimp only
    rw [readWordEnd]
    -- what was read may turn out to be the user information
    by_cases hat : (b && w.isText) = true ∧ rest.head? = some (byte '@')
    · obtain ⟨ys, rfl⟩ := head?_eq_some_iff.mp hat.2
      have hc := (hnext _ ys rfl).trans (if_pos ⟨hat.1, rfl⟩)
      rw [if_pos hat, runAt_next hc rfl (save_at (prefix_append _ _) rfl),
        hk (Bool.and_eq_true_iff.mp hat.1).1]
      rfl
    rw [if_neg hat]
    have hother : ∀ c ys, rest = c :: ys → next (.word x b w) c = if w.complete then
            if c == byte ':' then (.portStart x (b && w.isText), [.save_host])
            else authorityEnd x [.save_host] c
          else fail := by
      intro c ys hys
      refine (hnext c ys hys).trans (if_neg fun h => hat ⟨h.1, ?_⟩)
      rw [hys, h.2]
      rfl
    by_cases hcomplete : w.complete = true
    · rw [if_pos hcomplete]
      refine hostEnd_run (fun hbw => hk (Bool.and_eq_true_iff.mp hbw).1) rfl hcomplete
        (if_pos hcomplete) fun c ys hys => ?_
      rw [hother c ys hys, if_pos hcomplete]
    · rw [if_neg hcomplete]
      cases rest with
      | nil =>
        have hend : runAt (pre ++ a) [] (.word x b w) ⟨u, some pre.length⟩ = _ :=
          runAt_nil rfl (if_neg hcomplete) rfl
        exact hend.trans (congrArg Except.ok (if_neg hcomplete))
      | cons c ys => exact runAt_fail ((hother c ys rfl).trans (if_neg hcomplete))

/-- Behind the two slashes. -/
theorem authority_run (x : Part) (u : Uri) (m : Option Nat) (pre xs : List UInt8) :
    runAt pre xs (.host x true) ⟨u, m⟩ = readAuthority x u xs :=
  host_run (fun _ => host_run (b := false) fun h => nomatch h) u m pre xs

/-! ## From the beginning -/

theorem readSlashes_other {x : Part} {u : Uri} (ys : List UInt8) (hc : c ≠ byte '/') :
    readSlashes x u other (c :: ys) = .ok (other (c :: ys)) := by
  cases ys with
  | nil => rfl
  | cons d ys =>
    rw [readSlashes, beq_false_of_ne hc, Bool.false_and]
    exact if_neg Bool.false_ne_true

private theorem readPath_cons (u : Uri) (ys : List UInt8) (hc : pathChar c = true) :
    readPath u (c :: ys) = readPath u ys := by
  rw [readPath, readPath, splitText_cons ys hc]
  cases splitText pathChar ys <;> rfl

/-- Behind a first slash, where a path that is no authority is read by `other`. -/
theorem slash_run {x : Part} {u : Uri} (hother : ∀ ys, other (byte '/' :: ys) = readPath u ys)
    (m : Option Nat) (pre xs : List UInt8) :
    runAt pre xs (.slash x) ⟨u, m⟩ = readSlashes x u other (byte '/' :: xs) := by
  cases xs with
  | nil =>
    have hread : readSlashes x u other [byte '/'] = .ok (readPath u []) :=
      congrArg Except.ok (hother [])
    rw [hread]
    exact runAt_nil (q := .slash x) rfl rfl rfl
  | cons c ys =>
    rw [readSlashes, beq_self_eq_true, Bool.true_and, hother]
    by_cases hc : (c == byte '/') = true
    · have hnext : next (.slash x) c = (.host x true, []) := if_pos hc
      rw [if_pos hc, runAt_step hnext rfl, authority_run]
    · rw [if_neg hc, ← path_run u m pre (c :: ys)]
      exact runAt_same (if_neg hc)

/-- Behind the colon of the scheme. -/
theorem hier_part_run (u : Uri) (m : Option Nat) (pre xs : List UInt8) :
    runAt pre xs .hier_part ⟨u, m⟩ = readSlashes .hier u (readPath u) xs := by
  cases xs with
  | nil => exact runAt_nil (q := .hier_part) rfl rfl rfl
  | cons c ys =>
    by_cases hc : c = byte '/'
    · subst hc
      rw [runAt_step (show next .hier_part (byte '/') = (.slash .hier, []) from rfl) rfl]
      exact slash_run (fun ys => readPath_cons u ys (by decide)) m _ ys
    · rw [readSlashes_other ys hc, ← path_run u m pre (c :: ys)]
      exact runAt_same (if_neg fun h => hc (beq_iff_eq.mp h))

theorem segment_run (u : Uri) (m : Option Nat) (pre xs : List UInt8) :
    runAt pre xs .segment_nz_nc ⟨u, m⟩ = .ok (readSegment u xs) := by
  rw [readSegment]
  rcases runAt_text (q := .segment_nz_nc) rfl (fun c => rfl) rfl pre xs ⟨u, m⟩ with
    ⟨hrun, hsplit⟩ | ⟨a, rest, hsplit, hrun, hnext⟩
  · rw [hrun, hsplit]
  · rw [hrun, hsplit]
    dsimp only
    by_cases hslash : ∃ ys, rest = byte '/' :: ys
    · obtain ⟨ys, rfl⟩ := hslash
      have hc : next .segment_nz_nc (byte '/') = (.path, []) := hnext _ ys rfl
      rw [runAt_step hc rfl, path_run, ← readPath_cons u ys
        (show pathChar (byte '/') = true by decide)]
      rfl
    · have hc : ∀ c ys, rest = c :: ys → c ≠ byte '/' := fun c ys hys heq =>
        hslash ⟨ys, heq ▸ hys⟩
      have htail : ∀ c ys, rest = c :: ys → next .segment_nz_nc c = tailNext [] c := by
        intro c ys hys
        exact (hnext c ys hys).trans (if_neg fun h => hc c ys hys (beq_iff_eq.mp h))
      have hbegins : beginsPath rest = beginsTail rest := by
        cases rest with
        | nil => rfl
        | cons c ys => exact beginsPath_cons ys (hc c ys rfl)
      rw [tail_run [] rfl rfl (fun _ => rfl) htail rfl, hbegins]
      cases hb : beginsTail rest with
      | false => rfl
      | true =>
        have hempty : splitText pathChar rest = some ([], rest) :=
          splitText_iff.mpr ⟨rfl, Text.nil _, beginsTail_stops hb⟩
        rw [readPath, hempty]
        rfl

private theorem schemeClasses : ∀ c : UInt8,
    (alpha c = true → schemeChar c = true) ∧ (schemeChar c = true → segmentChar c = true)
    ∧ (alpha c = true → c ≠ byte '/') :=
  SylarHttp.forall_byte (by decide +kernel)

/-- A first segment that may be a scheme, of which `tok` has been read. -/
theorem scheme_run (tok xs : List UInt8) : runAt tok xs .scheme ⟨{}, some 0⟩
      = match xs.dropWhile schemeChar with
        | c :: ys =>
          if c == byte ':' then
            readSlashes .hier { m_scheme := tok ++ xs.takeWhile schemeChar }
              (readPath { m_scheme := tok ++ xs.takeWhile schemeChar }) ys
          else .ok (readSegment {} (c :: ys))
        | [] => .ok (readSegment {} []) := by
  have hloop : ∀ c, schemeChar c = true → next .scheme c = (.scheme, []) := fun c hc => if_pos hc
  rw [runAt_while rfl hloop]
  cases hdrop : xs.dropWhile schemeChar with
  | nil => exact runAt_nil (q := .scheme) rfl rfl rfl
  | cons c ys =>
    have hc : ¬ schemeChar c = true := by
      have hhead := head?_dropWhile_not schemeChar xs
      rw [hdrop] at hhead
      exact Bool.eq_false_iff.mp hhead
    have hnext : next .scheme c
        = if c == byte ':' then (.hier_part, [.save_scheme]) else segmentNext c := if_neg hc
    dsimp only
    by_cases hcolon : (c == byte ':') = true
    · rw [if_pos hcolon] at hnext ⊢
      have hsave := save_at (a := .save_scheme) (u := {})
        (prefix_append ([] ++ (tok ++ xs.takeWhile schemeChar)) (c :: ys)) rfl
      exact (runAt_next hnext rfl hsave).trans (hier_part_run _ _ _ ys)
    · rw [if_neg hcolon] at hnext ⊢
      rw [← segment_run {} (some 0) (tok ++ xs.takeWhile schemeChar) (c :: ys)]
      exact runAt_same hnext

/-- Bytes of a first segment do not matter. -/
theorem readSegment_append {u : Uri} {a : List UInt8} (rest : List UInt8)
    (ha : ∀ c ∈ a, segmentChar c = true) : readSegment u (a ++ rest) = readSegment u rest := by
  induction a with
  | nil => rfl
  | cons c a ih =>
    obtain ⟨hc, ha⟩ := forall_mem_cons.mp ha
    rw [← ih ha, cons_append, readSegment, readSegment, splitText_cons _ hc]
    cases splitText segmentChar (a ++ rest) <;> rfl

/-- **The machine with its one mark does what the reader does.** -/
theorem create_eq_read (s : List UInt8) : Create s = readUri s := by
  have hrun : Create s = runAt [] s .start {} := rfl
  rw [hrun]
  cases s with
  | nil => exact runAt_nil (q := .start) rfl rfl rfl
  | cons c xs =>
    by_cases halpha : alpha c = true
    · obtain ⟨hscheme, hsegment, hslash⟩ := schemeClasses c
      have hmark : runAt [] (c :: xs) .start {} = runAt [c] xs .scheme ⟨{}, some 0⟩ :=
        runAt_next (show next .start c = (.scheme, [.marku]) from if_pos halpha) rfl rfl
      have hall : ∀ d ∈ c :: xs.takeWhile schemeChar, segmentChar d = true := by
        refine forall_mem_cons.mpr ⟨hsegment (hscheme halpha), fun d hd => ?_⟩
        exact (schemeClasses d).2.1 (mem_takeWhile_imp hd)
      have hrest := readSegment_append (u := {}) (xs.dropWhile schemeChar) hall
      rw [cons_append, takeWhile_append_dropWhile] at hrest
      rw [hmark, scheme_run, readUri.eq_def, splitScheme.eq_def, if_pos (show ((c :: xs).head?.any
        alpha) = true from halpha), readSlashes_other xs (hslash halpha), hrest,
        dropWhile_cons_of_pos (hscheme halpha), takeWhile_cons_of_pos (hscheme halpha)]
      cases xs.dropWhile schemeChar with
      | nil => rfl
      | cons d ys =>
        dsimp only
        split_ifs <;> rfl
    · have hnone : splitScheme (c :: xs) = none := if_neg halpha
      have hnext : next .start c
          = if c == byte '/' then (.slash .relative, []) else segmentNext c := if_neg halpha
      rw [readUri, hnone]
      dsimp only
      by_cases hslash : c = byte '/'
      · subst hslash
        have hpath : ∀ ys, readSegment {} (byte '/' :: ys) = readPath {} ys := by
          intro ys
          have hempty : splitText segmentChar (byte '/' :: ys) = some ([], byte '/' :: ys) :=
            splitText_iff.mpr ⟨rfl, Text.nil _, stops_cons ys rfl (by decide)⟩
          rw [readSegment, hempty, ← readPath_cons {} ys
            (show pathChar (byte '/') = true by decide)]
          rfl
        rw [runAt_step hnext rfl]
        exact slash_run hpath none _ xs
      · rw [readSlashes_other xs hslash, ← segment_run {} none [] (c :: xs)]
        exact runAt_same (hnext.trans (if_neg fun h => hslash (beq_iff_eq.mp h)))

end SylarUri
