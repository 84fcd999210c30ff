import Sylar.UriGrammarProofs

/-! # Authorities that are read, and what is stored for them (`uri.rl`)

The reader takes an authority apart as it goes, and only what follows shows what a part
was.  What it reads is user information, a host and a port in the end, and each of them
is read back from the text it is printed as.

The user information is stored as it stands, except that a digit behind its first colon
moves the mark: then only the text from that digit on is stored.

* **`readAuthority_sound`** — what is read is an authority, with the rest left.
* **`readAuthority_complete`** — every authority is read. -/

namespace SylarUri

open SylarHttp (byte oneOf digit)
open List
open UriSyntax

/-! ## What is stored -/

/-- What is saved as user information: if a digit stands behind the first colon, the text from there
on. -/
def savedUserinfo (i : List UInt8) : List UInt8 :=
  match cut colon i with
  | (_, some b) => if b.head?.any digit then b else i
  | (_, none) => i

def Uri.withPort (u : Uri) (port : Option (List UInt8)) : Uri :=
  match port with
  | some (c :: d) => { u with m_port := atoi (c :: d) }
  | _ => u

def Uri.withAuthority (u : Uri) (a : Authority) : Uri :=
  match a.userinfo with
  | some i => { u with m_userinfo := savedUserinfo i, m_host := a.host }.withPort a.port
  | none => { u with m_host := a.host }.withPort a.port

/-- There is a mark for the path, unless the port is empty. -/
def keepsMark (port : Option (List UInt8)) : Bool := port != some []

private theorem readPortEnd_eq (x : Part) (u : Uri) (d rest : List UInt8) :
    readPortEnd x u d rest = readEnd x (keepsMark (some d)) (u.withPort (some d)) rest := by
  cases d <;> rfl

/-- What is saved as user information when the first colon stands between `a` and `i`. -/
def savedParts (a i : List UInt8) : List UInt8 :=
  if i.head?.any digit then i else a ++ byte ':' :: i

variable {a i rest : List UInt8} {c : UInt8} {port : Option (List UInt8)}

theorem savedUserinfo_parts (i : List UInt8) (ha : byte ':' ∉ a) :
    savedUserinfo (a ++ byte ':' :: i) = savedParts a i := by
  have hcut : cut colon (a ++ byte ':' :: i) = (a, some i) := cut_append i ha
  rw [savedUserinfo, hcut]
  rfl

theorem savedUserinfo_plain (ha : byte ':' ∉ a) : savedUserinfo a = a := by
  have hcut : cut colon a = (a, none) := cut_of_not_mem ha
  rw [savedUserinfo, hcut]

variable {d ys : List UInt8} {w : Word}

/-- With the digits in front. -/
theorem savedParts_digits (a : List UInt8) (hd : ∀ c ∈ d, digit c = true) (hi : stopsDigits i) :
    (if d = [] then a ++ [byte ':'] else d) ++ i = savedParts a (d ++ i) := by
  rw [savedParts]
  cases d with
  | nil =>
    have hhead : ¬ i.head?.any digit = true := by
      cases i with
      | nil => exact Bool.false_ne_true
      | cons c i => exact Bool.eq_false_iff.mp (hi c i rfl)
    rw [if_pos rfl, nil_append, if_neg hhead, append_assoc]
    rfl
  | cons c d =>
    have hhead : (c :: d ++ i).head?.any digit = true := hd c mem_cons_self
    rw [if_neg (cons_ne_nil c d), if_pos hhead]

/-! ## Behind a colon -/

/-- What begins behind an authority. -/
theorem beginsPath_head (h : beginsPath rest = true) (hrest : rest = c :: ys) :
    c = byte '/' ∨ c = byte '?' ∨ c = byte '#' := by
  subst hrest
  rwa [beginsPath, Bool.or_eq_true, Bool.or_eq_true, beq_iff_eq, beq_iff_eq, beq_iff_eq,
    or_assoc] at h

private theorem beginsPath_stops (h : beginsPath rest = true) : stopsDigits rest := by
  intro c ys hys
  rcases beginsPath_head h hys with rfl | rfl | rfl <;> rfl

private theorem userinfoClasses : ∀ c : UInt8, (digit c = true → userinfoChar c = true)
    ∧ (regChar c = true → userinfoChar c = true ∧ oneOf [':', '@', '%', '/', '?', '#'] c = false)
    ∧ (userinfoChar c = true → regChar c = true ∨ c = byte ':') :=
  SylarHttp.forall_byte (by decide +kernel)

/-- User information goes on with one of its bytes, or ends. -/
theorem infoByte_head (ys : List UInt8) (hi : Text userinfoChar i) :
    (i ++ byte '@' :: ys).head?.any infoByte = true := by
  cases i with
  | nil => rfl
  | cons c i =>
    show infoByte c = true
    rcases hi.head with hc | rfl
    · rw [infoByte, hc]
      rfl
    · rfl

section Port

variable {x : Part} {b : Bool} {k : Uri → List UInt8 → Read} {u : Uri}

theorem readPassword_sound (tok xs : List UInt8) :
    readPassword k u tok xs = .ok none ∨ ∃ i ys, Text userinfoChar i ∧ xs = i ++ byte '@' :: ys
      ∧ readPassword k u tok xs = k { u with m_userinfo := tok ++ i } ys := by
  rw [readPassword]
  cases hsplit : splitText userinfoChar xs with
  | none => exact Or.inl rfl
  | some y =>
    obtain ⟨i, rest⟩ := y
    obtain ⟨rfl, hi, -⟩ := splitText_iff.mp hsplit
    cases rest with
    | nil => exact Or.inl rfl
    | cons c ys =>
      dsimp only
      split_ifs with hc
      · rw [beq_iff_eq.mp hc]
        exact Or.inr ⟨i, ys, hi, rfl, rfl⟩
      · exact Or.inl rfl

theorem readPassword_complete (tok ys : List UInt8) (hi : Text userinfoChar i) :
    readPassword k u tok (i ++ byte '@' :: ys) = k { u with m_userinfo := tok ++ i } ys := by
  have hsplit : splitText userinfoChar (i ++ byte '@' :: ys) = some (i, byte '@' :: ys) :=
    splitText_iff.mpr ⟨rfl, hi, stops_cons ys rfl (by decide)⟩
  rw [readPassword, hsplit]
  rfl

/-- Behind a colon: a port, or more user information. -/
theorem readPort_sound (x : Part) (b : Bool) (k : Uri → List UInt8 → Read) (u : Uri)
    (a xs : List UInt8) :
    readPort x b k u a xs = .ok none ∨ (∃ d rest, Digits (some d) ∧ xs = d ++ rest
          ∧ readPort x b k u a xs = readEnd x (keepsMark (some d)) (u.withPort (some d)) rest)
      ∨ b = true ∧ ∃ i ys, Text userinfoChar i ∧ xs = i ++ byte '@' :: ys
          ∧ readPort x b k u a xs = k { u with m_userinfo := savedParts a i } ys := by
  have hdigits : ∀ c ∈ xs.takeWhile digit, digit c = true := fun c hc =>
    mem_takeWhile_imp hc
  have hparts : xs = xs.takeWhile digit ++ xs.dropWhile digit := takeWhile_append_dropWhile.symm
  have hstops := stopsDigits_dropWhile xs
  rw [readPort, readDigitsEnd]
  by_cases hinfo : (b && (xs.dropWhile digit).head?.any infoByte) = true
  · rw [if_pos hinfo]
    rcases readPassword_sound (k := k) (u := u) _ (xs.dropWhile digit) with
      hnone | ⟨i, ys, hi, hrest, hread⟩
    · exact Or.inl hnone
    · refine Or.inr (Or.inr ⟨(Bool.and_eq_true_iff.mp hinfo).1, xs.takeWhile digit ++ i, ys,
        ?_, ?_, ?_⟩)
      · exact (Text.of_all fun c hc => (userinfoClasses c).1 (hdigits c hc)).append rfl hi
      · rw [append_assoc, ← hrest]
        exact hparts
      · have hi' : stopsDigits i := by
          rintro c i' rfl
          exact hstops c _ hrest
        rw [hread, savedParts_digits a hdigits hi']
  · rw [if_neg hinfo]
    refine Or.inr (Or.inl ⟨_, _, ?_, hparts, readPortEnd_eq _ _ _ _⟩)
    rintro _ ⟨⟩
    exact hdigits

theorem readPort_userinfo (a ys : List UInt8) (hi : Text userinfoChar i) :
    readPort x true k u a (i ++ byte '@' :: ys) = k { u with m_userinfo := savedParts a i } ys := by
  have hdigits : ∀ c ∈ i.takeWhile digit, digit c = true := fun c hc =>
    mem_takeWhile_imp hc
  have hparts : i = i.takeWhile digit ++ i.dropWhile digit := takeWhile_append_dropWhile.symm
  have hrest : Text userinfoChar (i.dropWhile digit) := by
    rw [hparts] at hi
    exact hi.of_append (fun c hc => (userinfoClasses c).1 (hdigits c hc)) rfl
  have hstops : stopsDigits (i.dropWhile digit ++ byte '@' :: ys) := by
    intro c zs hzs
    cases hdrop : i.dropWhile digit with
    | nil =>
      rw [hdrop] at hzs
      obtain ⟨rfl, -⟩ := cons.inj hzs
      rfl
    | cons d ds =>
      rw [hdrop] at hzs
      obtain ⟨rfl, -⟩ := cons.inj hzs
      exact stopsDigits_dropWhile i d ds hdrop
  obtain ⟨htake, hdrop⟩ := takeWhile_digits hdigits hstops
  rw [← append_assoc, ← hparts] at htake hdrop
  rw [readPort, readDigitsEnd, htake, hdrop, infoByte_head ys hrest, Bool.true_and, if_pos rfl,
    readPassword_complete _ _ hrest, savedParts_digits a hdigits (stopsDigits_dropWhile i),
    ← hparts]

theorem readPort_complete (a : List UInt8) (hd : ∀ c ∈ d, digit c = true)
    (hrest : beginsPath rest = true) :
    readPort x b k u a (d ++ rest) = readEnd x (keepsMark (some d)) (u.withPort (some d)) rest := by
  have hinfo : rest.head?.any infoByte = false := by
    cases rest with
    | nil => rfl
    | cons c ys => rcases beginsPath_head hrest rfl with rfl | rfl | rfl <;> rfl
  obtain ⟨htake, hdrop⟩ := takeWhile_digits hd (beginsPath_stops hrest)
  rw [readPort, readDigitsEnd, htake, hdrop, hinfo, Bool.and_false, if_neg Bool.false_ne_true,
    readPortEnd_eq]

end Port

/-! ## The host -/

/-- What follows a host. -/
theorem hostEnd_head (hrest : beginsPath rest = true) (h : behind colon port ++ rest = c :: ys) :
    c = byte ':' ∨ c = byte '/' ∨ c = byte '?' ∨ c = byte '#' := by
  cases port with
  | some d => exact Or.inl (cons.inj h).1.symm
  | none => exact Or.inr (beginsPath_head hrest h)

/-- A host and a port have been read, and the rest is left. -/
def HostRead (x : Part) (u : Uri) (xs : List UInt8) (out : Read) : Prop :=
  ∃ h port rest, HostText h ∧ Digits port ∧ xs = h ++ behind colon port ++ rest
    ∧ out = readEnd x (keepsMark port) (Uri.withPort { u with m_host := h } port) rest

/-- User information has been read, and `k` goes on behind it. -/
def InfoRead (k : Uri → List UInt8 → Read) (u : Uri) (xs : List UInt8) (out : Read) : Prop :=
  ∃ i m ys, Text userinfoChar i ∧ xs = i ++ byte '@' :: ys
    ∧ out = k { u with m_userinfo := savedUserinfo i, m_host := m } ys

theorem Text.userinfo (h : Text regChar a) : Text userinfoChar a :=
  h.mono rfl fun c hc => ((userinfoClasses c).2.1 hc).1

theorem Text.not_mem_colon (h : Text regChar a) : byte ':' ∉ a := by
  have hfree : Free [byte ':'] a := h.free (by decide)
  exact hfree _ mem_cons_self

section Host

variable {x : Part} {b : Bool} {k : Uri → List UInt8 → Read} {u : Uri}

theorem readHostEnd_sound (xs : List UInt8) (ha : HostText a) (hb : b = true → Text regChar a) :
    readHostEnd x b k u a xs = .ok none ∨ HostRead x u (a ++ xs) (readHostEnd x b k u a xs)
      ∨ b = true ∧ InfoRead k u (a ++ xs) (readHostEnd x b k u a xs) := by
  rw [readHostEnd]
  by_cases hcolon : xs.head? = some (byte ':')
  · obtain ⟨ys, rfl⟩ := head?_eq_some_iff.mp hcolon
    rw [if_pos hcolon]
    rcases readPort_sound x b k { u with m_host := a } a ys with
      hnone | ⟨d, rest, hd, rfl, hread⟩ | ⟨rfl, i, zs, hi, rfl, hread⟩
    · exact Or.inl hnone
    · refine Or.inr (Or.inl ⟨a, some d, rest, ha, hd, ?_, hread⟩)
      rw [behind, append_assoc]
      rfl
    · refine Or.inr (Or.inr ⟨rfl, a ++ byte ':' :: i, a, zs, ?_, ?_, ?_⟩)
      · exact (hb rfl).userinfo.append rfl (hi.cons rfl)
      · rw [append_assoc]
        rfl
      · rw [savedUserinfo_parts i (hb rfl).not_mem_colon]
        exact hread
  · rw [if_neg hcolon]
    exact Or.inr (Or.inl ⟨a, none, xs, ha, (fun _ h => by cases h), by simp [behind], rfl⟩)

theorem readHostEnd_complete (hport : Digits port) (hrest : beginsPath rest = true) :
    readHostEnd x b k u a (behind colon port ++ rest)
      = readEnd x (keepsMark port) (Uri.withPort { u with m_host := a } port) rest := by
  cases port with
  | some d =>
    have hcolon : readHostEnd x b k u a (behind colon (some d) ++ rest)
        = readPort x b k { u with m_host := a } a (d ++ rest) := rfl
    rw [hcolon, readPort_complete a (hport d rfl) hrest]
  | none =>
    refine if_neg fun h => ?_
    obtain ⟨ys, hys⟩ := head?_eq_some_iff.mp h
    rcases beginsPath_head hrest hys with hc | hc | hc <;> exact absurd hc (by decide)

/-- A word that may be a `reg_name` has only its bytes. -/
theorem Run.text {w' : Word} (h : Run wordStep wordPct w a w') (hw' : w'.isText = true) :
    w.isText = true ∧ Text regChar a := by
  induction h with
  | nil => exact ⟨hw', Text.nil _⟩
  | @cons w w₁ _ c _ hstep _ ih =>
    obtain ⟨hw₁, htext⟩ := ih hw'
    have hword := (wordStep_some hstep).2
    cases w with
    | text r =>
      rw [Word.step] at hword
      split_ifs at hword with hc hvoid
      · exact ⟨rfl, htext.cons hc⟩
      · cases hword
        cases hw₁
    | octets r =>
      rw [Word.step] at hword
      split_ifs at hword with hvoid
      cases hword
      cases hw₁
  | pct _ hpct hdig _ ih =>
    rw [wordPct] at hpct
    split_ifs at hpct with hw
    exact ⟨hw, (ih hw').2.pct rfl hdig⟩

/-- Text of a `reg_name` is such a word. -/
theorem Text.word (h : Text regChar a) (r : RegularExpression UInt8) :
    ∃ t, Run wordStep wordPct (.text r) a (.text t) := by
  refine Text.induction (motive := fun a => ∀ r, ∃ t, Run wordStep wordPct (.text r) a (.text t))
    (fun r => ⟨r, .nil _⟩) (fun c s hc _ ih r => ?_) (fun hi lo s hdig _ ih r => ?_) h r
  · obtain ⟨t, ht⟩ := ih (residual r c)
    have hstep : wordStep (.text r) c = some (.text (residual r c)) := by
      rw [wordStep, ((userinfoClasses c).2.1 hc).2, if_neg Bool.false_ne_true]
      exact if_pos hc
    exact ⟨t, .cons hstep ht⟩
  · obtain ⟨t, ht⟩ := ih 0
    exact ⟨t, .pct rfl rfl hdig ht⟩

theorem readLiteral_sound (ys : List UInt8) :
    readLiteral x k u ys = .ok none ∨ HostRead x u (byte '[' :: ys) (readLiteral x k u ys) := by
  rw [readLiteral]
  cases hsplit : splitLiteral literal ys with
  | none => exact Or.inl rfl
  | some y =>
    obtain ⟨t, w, rest⟩ := y
    cases rest with
    | nil => exact Or.inl rfl
    | cons c zs =>
      obtain ⟨rfl, hw, -⟩ := splitRun_iff.mp hsplit
      dsimp only
      split_ifs with hc
      · rw [Bool.and_eq_true, beq_iff_eq] at hc
        have hhost : HostText (byte '[' :: (w ++ [byte ']'])) := Or.inl ⟨w, t, rfl, hw, hc.2⟩
        have htext : byte '[' :: (w ++ c :: zs) = byte '[' :: (w ++ [byte ']']) ++ zs := by
          rw [hc.1]
          simp
        rw [htext]
        rcases readHostEnd_sound (b := false) (x := x) (k := k) (u := u) zs hhost
          (fun h => by cases h) with hnone | hread | ⟨h, -⟩
        · exact Or.inl hnone
        · exact Or.inr hread
        · cases h
      · exact Or.inl rfl

theorem readHost_sound (x : Part) (b : Bool) (k : Uri → List UInt8 → Read) (u : Uri)
    (xs : List UInt8) :
    readHost x b k u xs = .ok none ∨ HostRead x u xs (readHost x b k u xs)
      ∨ b = true ∧ InfoRead k u xs (readHost x b k u xs) := by
  rw [readHost]
  by_cases hhead : xs.head? = some (byte '[')
  · obtain ⟨ys, rfl⟩ := head?_eq_some_iff.mp hhead
    rw [if_pos hhead]
    exact (readLiteral_sound ys).imp_right Or.inl
  rw [if_neg hhead]
  cases hsplit : splitWord .start xs with
  | none => exact Or.inl rfl
  | some y =>
    obtain ⟨w, a, rest⟩ := y
    obtain ⟨rfl, hw, -⟩ := splitRun_iff.mp hsplit
    dsimp only
    rw [readWordEnd]
    split_ifs with hat hcomplete
    · obtain ⟨hb, htext⟩ := Bool.and_eq_true_iff.mp hat.1
      obtain ⟨ys, rfl⟩ := head?_eq_some_iff.mp hat.2
      have ha := (hw.text htext).2
      refine Or.inr (Or.inr ⟨hb, a, u.m_host, ys, ha.userinfo, rfl, ?_⟩)
      rw [savedUserinfo_plain ha.not_mem_colon]
      rfl
    · have hhost : HostText a := by
        refine Or.inr ⟨?_, w, hw, hcomplete⟩
        cases a with
        | nil => exact fun h => by cases h
        | cons c a => exact hhead
      have hreg : (b && w.isText) = true → Text regChar a := fun hbw =>
        (hw.text (Bool.and_eq_true_iff.mp hbw).2).2
      rcases readHostEnd_sound (x := x) (k := k) (u := u) rest hhost hreg with
        hnone | hread | ⟨hbw, hread⟩
      · exact Or.inl hnone
      · exact Or.inr (Or.inl hread)
      · exact Or.inr (Or.inr ⟨(Bool.and_eq_true_iff.mp hbw).1, hread⟩)
    · exact Or.inl rfl

/-- A word without a bracket in front is read as one. -/
theorem readHost_word (hhead : (a ++ rest).head? ≠ some (byte '['))
    (hw : Run wordStep wordPct .start a w)
    (hrest : ∀ c ys, rest = c :: ys → c = byte '@' ∨ c = byte ':' ∨ c = byte '/' ∨ c = byte '?'
      ∨ c = byte '#') : readHost x b k u (a ++ rest) = readWordEnd x b k u w a rest := by
  have hsplit : splitWord .start (a ++ rest) = some (w, a, rest) := by
    refine splitRun_iff.mpr ⟨rfl, hw, fun c ys hys => ?_⟩
    rcases hrest c ys hys with rfl | rfl | rfl | rfl | rfl <;> exact ⟨rfl, by decide⟩
  rw [readHost, if_neg hhead, hsplit]

/-- A host and a port are read back. -/
theorem readHost_complete {h : List UInt8} (hh : HostText h) (hport : Digits port)
    (hrest : beginsPath rest = true) :
    readHost x b k u (h ++ behind colon port ++ rest)
      = readEnd x (keepsMark port) (Uri.withPort { u with m_host := h } port) rest := by
  have hend := fun b => readHostEnd_complete (x := x) (b := b) (k := k) (u := u) (a := h) hport
    hrest
  rw [append_assoc]
  rcases hh with ⟨w, t, rfl, hw, ht⟩ | ⟨hhead, w, hw, hcomplete⟩
  · have htext : byte '[' :: (w ++ [byte ']']) ++ (behind colon port ++ rest)
        = byte '[' :: (w ++ byte ']' :: (behind colon port ++ rest)) := by simp
    have hsplit : splitLiteral literal (w ++ byte ']' :: (behind colon port ++ rest))
        = some (t, w, byte ']' :: (behind colon port ++ rest)) := by
      refine splitRun_iff.mpr ⟨rfl, hw, ?_⟩
      rintro _ _ ⟨⟩
      exact ⟨rfl, by decide⟩
    have hopen : readHost x b k u (byte '[' :: (w ++ byte ']' :: (behind colon port
        ++ rest))) = readLiteral x k u (w ++ byte ']' :: (behind colon port ++ rest)) :=
      if_pos rfl
    rw [htext, hopen, readLiteral, hsplit]
    dsimp only
    rw [ht, beq_self_eq_true, Bool.and_self, if_pos rfl, hend]
  · have hbracket : (h ++ (behind colon port ++ rest)).head? ≠ some (byte '[') := by
      cases h with
      | cons c h => exact hhead
      | nil =>
        intro hopen
        obtain ⟨ys, hys⟩ := head?_eq_some_iff.mp hopen
        rcases hostEnd_head hrest hys with hc | hc | hc | hc <;> exact absurd hc (by decide)
    rw [readHost_word hbracket hw fun c ys hys => Or.inr (hostEnd_head hrest hys), readWordEnd,
      if_neg, if_pos hcomplete, hend]
    rintro ⟨-, hat⟩
    obtain ⟨ys, hys⟩ := head?_eq_some_iff.mp hat
    rcases hostEnd_head hrest hys with hc | hc | hc | hc <;> exact absurd hc (by decide)

/-- Up to the first colon, user information is text of a `reg_name`. -/
theorem userinfo_cut (h : Text userinfoChar i) :
    Text regChar i ∨ ∃ a b, i = a ++ byte ':' :: b ∧ Text regChar a ∧ Text userinfoChar b := by
  refine Text.induction (motive := fun i => Text regChar i ∨ ∃ a b, i = a ++ byte ':' :: b
    ∧ Text regChar a ∧ Text userinfoChar b) (Or.inl (Text.nil _)) (fun c s hc hs ih => ?_)
    (fun hi lo s hdig _ ih => ?_) h
  · rcases (userinfoClasses c).2.2 hc with hreg | rfl
    · rcases ih with ih | ⟨a, b, rfl, ha, hb⟩
      · exact Or.inl (ih.cons hreg)
      · exact Or.inr ⟨c :: a, b, rfl, ha.cons hreg, hb⟩
    · exact Or.inr ⟨[], s, rfl, Text.nil _, hs⟩
  · rcases ih with ih | ⟨a, b, rfl, ha, hb⟩
    · exact Or.inl (ih.pct rfl hdig)
    · exact Or.inr ⟨byte '%' :: hi :: lo :: a, b, rfl, ha.pct rfl hdig, hb⟩

theorem readHost_text (ys : List UInt8) (ha : Text regChar a) (hc : c = byte '@' ∨ c = byte ':') :
    ∃ t, readHost x b k u (a ++ c :: ys) = readWordEnd x b k u (.text t) a (c :: ys) := by
  obtain ⟨t, ht⟩ := ha.word IPv4address
  refine ⟨t, readHost_word ?_ ht ?_⟩
  · cases a with
    | nil =>
      rw [nil_append, head?_cons]
      rcases hc with rfl | rfl <;> decide
    | cons d a =>
      intro h
      cases h
      rcases ha.head with h | h <;> exact absurd h (by decide)
  · rintro _ _ ⟨⟩
    rw [← or_assoc]
    exact Or.inl hc

/-- User information is read back. -/
theorem readHost_userinfo (ys : List UInt8) (hi : Text userinfoChar i) :
    ∃ m, readHost x true k u (i ++ byte '@' :: ys)
      = k { u with m_userinfo := savedUserinfo i, m_host := m } ys := by
  rcases userinfo_cut hi with hreg | ⟨a, d, rfl, ha, hd⟩
  · obtain ⟨t, ht⟩ := readHost_text (x := x) (b := true) (k := k) (u := u) ys hreg (Or.inl rfl)
    rw [savedUserinfo_plain hreg.not_mem_colon]
    exact ⟨u.m_host, ht⟩
  · obtain ⟨t, ht⟩ := readHost_text (x := x) (b := true) (k := k) (u := u) (d ++ byte '@' :: ys)
      ha (Or.inr rfl)
    have hcolon : readWordEnd x true k u (.text t) a (byte ':' :: (d ++ byte '@' :: ys))
        = readPort x true k { u with m_host := a } a (d ++ byte '@' :: ys) := rfl
    rw [append_assoc, cons_append, ht, hcolon, readPort_userinfo a ys hd,
      savedUserinfo_parts d ha.not_mem_colon]
    exact ⟨a, rfl⟩

end Host

/-! ## The authority -/

/-- An authority has been read, and the rest is left. -/
def AuthorityRead (x : Part) (u : Uri) (xs : List UInt8) (out : Read) : Prop :=
  ∃ a rest, AuthorityText a ∧ xs = a.text ++ rest
    ∧ out = readEnd x (keepsMark a.port) (u.withAuthority a) rest

/-- **What is read is an authority**, or the text is refused. -/
theorem readAuthority_sound (x : Part) (u : Uri) (xs : List UInt8) :
    readAuthority x u xs = .ok none ∨ AuthorityRead x u xs (readAuthority x u xs) := by
  rw [readAuthority]
  rcases readHost_sound x true (readHost x false fun _ _ => .ok none) u xs with
    hnone | ⟨h, port, rest, hh, hport, rfl, hread⟩ | ⟨-, i, m, ys, hi, rfl, hread⟩
  · exact Or.inl hnone
  · exact Or.inr ⟨⟨none, h, port⟩, rest, ⟨(fun _ h => by cases h), hh, hport⟩, rfl, hread⟩
  · rw [hread]
    rcases readHost_sound x false (fun _ _ => .ok none) _ ys with
      hnone | ⟨h, port, rest, hh, hport, rfl, hhost⟩ | ⟨hfalse, -⟩
    · exact Or.inl hnone
    · refine Or.inr ⟨⟨some i, h, port⟩, rest, ⟨?_, hh, hport⟩, ?_, hhost⟩
      · rintro _ ⟨⟩
        exact hi
      · simp only [Authority.text, before, append_assoc, cons_append, nil_append]
        rfl
    · cases hfalse

/-- **An authority is read back.** -/
theorem readAuthority_complete {x : Part} {u : Uri} {a : Authority} (ha : AuthorityText a)
    (hrest : beginsPath rest = true) :
    readAuthority x u (a.text ++ rest) = readEnd x (keepsMark a.port) (u.withAuthority a) rest := by
  obtain ⟨userinfo, host, port⟩ := a
  cases userinfo with
  | none => exact readHost_complete ha.host ha.port hrest
  | some i =>
    have htext : Authority.text ⟨some i, host, port⟩ ++ rest
        = i ++ byte '@' :: (host ++ behind colon port ++ rest) := by
      simp only [Authority.text, before, append_assoc, cons_append, nil_append]
      rfl
    obtain ⟨m, hm⟩ := readHost_userinfo (x := x) (k := readHost x false fun _ _ => .ok none)
      (u := u) (host ++ behind colon port ++ rest) (ha.userinfo i rfl)
    rw [htext, readAuthority, hm, readHost_complete ha.host ha.port hrest]
    rfl

end SylarUri
