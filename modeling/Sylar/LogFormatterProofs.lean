import Mathlib.Data.List.Basic

/-! # Log patterns (`log.cc`)

`LogFormatter::init` cuts a pattern into literal texts and items `%name`.  The outer
loop goes on behind an item; behind `%%`, and behind `%name{fmt}`, whose branch is
commented out, it goes on with the next character.

* **`pattern_documented`** — a pattern is read as documented if the documentation has an
  error for it, or no brace stands behind a name and every `%%` is followed by a name and
  a format of letters, so that its second percent sign is dropped again; one with a format
  for an item that is known is not. -/

namespace SylarLog

/-! ## The code -/

/-- How the inner loop ends: `format_status` 0, 1 and 2. -/
inductive Scan where
  | name (str : List Char)
  | unclosed
  | formatted (str fmt : List Char)
  deriving DecidableEq, Repr

/-- The inner loop goes on over the character. -/
def inName (c : Char) : Bool := c.isAlpha || c = '{' || c = '}'

/-- The inner loop behind a `{`, up to the `}`. -/
def scanFmt : List Char → Option (List Char)
  | [] => none
  | c :: rest =>
    if !inName c then none
    else if c = '}' then some []
    else (scanFmt rest).map (c :: ·)

/-- The inner loop behind a `%`. -/
def scanName : List Char → Scan
  | [] => .name []
  | c :: rest =>
    if !inName c then .name []
    else if c = '{' then
      match scanFmt rest with
      | none => .unclosed
      | some fmt => .formatted [] fmt
    else
      match scanName rest with
      | .name str => .name (c :: str)
      | .unclosed => .unclosed
      | .formatted str fmt => .formatted (c :: str) fmt

/-- The tuples of `vec`, of type 0 and of type 1. -/
inductive Piece where
  | text (str : List Char)
  | item (str fmt : List Char)
  deriving DecidableEq, Repr

/-- `nstr` becomes a text unless it is empty. -/
def flush (nstr : List Char) : List Piece := if nstr.isEmpty then [] else [.text nstr]

/-- The outer loop: `vec`, and whether `m_error` was set.  The first `skip` characters belong to an
item already read. -/
def pieces : List Char → (skip : Nat) → (nstr : List Char) → List Piece × Bool
  | [], _, nstr => (flush nstr, false)
  | _ :: rest, skip + 1, nstr => pieces rest skip nstr
  | c :: rest, 0, nstr =>
    if c ≠ '%' then pieces rest 0 (nstr ++ [c])
    else if rest.head? = some '%' then pieces rest 0 (nstr ++ ['%'])
    else
      match scanName rest with
      | .name str =>
          let r := pieces rest str.length []
          (flush nstr ++ .item str [] :: r.1, r.2)
      | .unclosed => (.text "<<pattern_error>>".toList :: (pieces rest 0 nstr).1, true)
      | .formatted _ _ => pieces rest 0 nstr

/-- The item classes. -/
inductive ItemKind where
  | message
  | level
  | elapse
  | name
  | threadId
  | newLine
  | dateTime
  | filename
  | line
  | tab
  | fiberId
  | threadName
  deriving DecidableEq, Repr

/-- `s_format_items`. -/
def s_format_items : List (List Char × ItemKind) :=
  [(['m'], .message), (['p'], .level), (['r'], .elapse), (['c'], .name), (['t'], .threadId),
    (['n'], .newLine), (['d'], .dateTime), (['f'], .filename), (['l'], .line), (['T'], .tab),
    (['F'], .fiberId), (['N'], .threadName)]

/-- An item. -/
inductive FormatItem where
  | string (m_string : List Char)
  | item (kind : ItemKind) (fmt : List Char)
  deriving DecidableEq, Repr

/-- The item of a piece; an unknown name becomes a text. -/
def Piece.toItem : Piece → FormatItem
  | .text str => .string str
  | .item str fmt =>
    match s_format_items.lookup str with
    | none => .string ("<<error_format %".toList ++ str ++ ">>".toList)
    | some kind => .item kind fmt

/-- The piece sets `m_error`. -/
def Piece.unknown : Piece → Bool
  | .text _ => false
  | .item str _ => (s_format_items.lookup str).isNone

/-- `LogFormatter`. -/
structure LogFormatter where
  m_pattern : List Char
  m_items : List FormatItem
  m_error : Bool
  deriving DecidableEq, Repr

/-- The constructor, which calls `init`. -/
def LogFormatter.new (pattern : List Char) : LogFormatter :=
  let r := pieces pattern 0 []
  ⟨pattern, r.1.map Piece.toItem, r.2 || r.1.any Piece.unknown⟩

/-- The pattern of a new logger. -/
def defaultPattern : List Char := "%d%T%t%T%N%T%F%T[%p]%T[%c]%T%f:%l%T%m%n".toList

/-! ## The documented grammar -/

/-- The documented pieces, with `%%` for a percent sign and `%name{fmt}` for an item with a format;
`none` if a `{` behind a name is not closed. -/
def document : List Char → (skip : Nat) → (nstr : List Char) → Option (List Piece)
  | [], _, nstr => some (flush nstr)
  | _ :: rest, skip + 1, nstr => document rest skip nstr
  | c :: rest, 0, nstr =>
    if c ≠ '%' then document rest 0 (nstr ++ [c])
    else if rest.head? = some '%' then document rest 1 (nstr ++ ['%'])
    else
      let name := rest.takeWhile Char.isAlpha
      match rest.dropWhile Char.isAlpha with
      | '{' :: behind =>
          let fmt := behind.takeWhile (· != '}')
          if '}' ∈ behind then
            (document rest (name.length + fmt.length + 2) []).map
              (flush nstr ++ .item name fmt :: ·)
          else none
      | _ => (document rest name.length []).map (flush nstr ++ .item name [] :: ·)

/-- The items are those of the grammar, with an error exactly if a name is unknown or a `{` is not
closed. -/
structure Documented (pattern : List Char) : Prop where
  items : ∀ ps, document pattern 0 [] = some ps →
    (LogFormatter.new pattern).m_items = ps.map Piece.toItem
  error : (LogFormatter.new pattern).m_error = true
    ↔ ∀ ps, document pattern 0 [] = some ps → ps.any Piece.unknown = true

/-- No brace stands directly behind a name, but for a `%%`: behind it stand a name and a closed
format, which the loop drops. -/
def Agrees : List Char → (skip : Nat) → Prop
  | [], _ => True
  | _ :: rest, skip + 1 => Agrees rest skip
  | c :: rest, 0 =>
    if c ≠ '%' then Agrees rest 0
    else if rest.head? = some '%' then
      (∃ str fmt, scanName rest.tail = .formatted str fmt) ∧ Agrees rest 1
    else ((rest.dropWhile Char.isAlpha).head? ≠ some '{'
        ∧ (rest.dropWhile Char.isAlpha).head? ≠ some '}')
      ∧ Agrees rest (rest.takeWhile Char.isAlpha).length

/-! ## Patterns that agree -/

variable {rest fmt str nstr pattern : List Char} {ps : List Piece} {skip : Nat}

/-- A name that no brace follows. -/
theorem scanName_plain (hopen : (rest.dropWhile Char.isAlpha).head? ≠ some '{')
    (hclose : (rest.dropWhile Char.isAlpha).head? ≠ some '}') :
    scanName rest = .name (rest.takeWhile Char.isAlpha) := by
  induction rest with
  | nil => rfl
  | cons c rest ih =>
    cases hc : c.isAlpha with
    | false =>
      rw [List.dropWhile_cons, hc] at hopen hclose
      have hname : inName c = false := by
        simp [inName, hc]
        exact ⟨fun h => hopen (by simp [h]), fun h => hclose (by simp [h])⟩
      simp [scanName, hname, hc]
    | true =>
      rw [List.dropWhile_cons, hc] at hopen hclose
      have hname : inName c = true := by simp [inName, hc]
      have hbrace : c ≠ '{' := by
        rintro rfl
        exact absurd hc (by decide)
      simp [scanName, hname, hbrace, ih hopen hclose, hc]

/-- The second percent sign begins an item with a format, which is dropped. -/
theorem pieces_dropped (h : scanName rest = .formatted str fmt) (nstr : List Char) :
    pieces ('%' :: rest) 0 nstr = pieces rest 0 nstr := by
  have hpercent : rest.head? ≠ some '%' := by
    rintro hhead
    obtain ⟨rest, rfl⟩ := List.head?_eq_some_iff.mp hhead
    cases h
  rw [pieces, if_neg (not_not_intro rfl), if_neg hpercent, h]

/-- The loop is the grammar on patterns that agree. -/
theorem pieces_agree (h : Agrees pattern skip) (hdoc : document pattern skip nstr = some ps) :
    pieces pattern skip nstr = (ps, false) := by
  induction pattern generalizing skip nstr ps with
  | nil =>
    cases hdoc
    rfl
  | cons c rest ih =>
    cases skip with
    | succ skip => exact ih h hdoc
    | zero =>
      rw [Agrees] at h
      rw [document] at hdoc
      by_cases hc : c = '%'
      · subst hc
        rw [if_neg (not_not_intro rfl)] at h hdoc
        by_cases hpercent : rest.head? = some '%'
        · rw [if_pos hpercent] at h hdoc
          obtain ⟨rest, rfl⟩ := List.head?_eq_some_iff.mp hpercent
          obtain ⟨⟨str, fmt, hscan⟩, hrest⟩ := h
          rw [List.tail_cons] at hscan
          rw [pieces, if_neg (not_not_intro rfl), if_pos hpercent, pieces_dropped hscan]
          exact ih hrest hdoc
        · rw [if_neg hpercent] at h hdoc
          obtain ⟨⟨hopen, hclose⟩, hrest⟩ := h
          rw [pieces, if_neg (not_not_intro rfl), if_neg hpercent, scanName_plain hopen hclose]
          split at hdoc
          · next hbehind => exact absurd (by rw [hbehind]; rfl) hopen
          · obtain ⟨more, hmore, rfl⟩ := Option.map_eq_some_iff.mp hdoc
            simp only [ih hrest hmore]
      · rw [if_pos hc] at h hdoc
        rw [pieces, if_pos hc]
        exact ih h hdoc

/-! ## Formats -/

/-- No item of the code has a format. -/
theorem pieces_fmt (h : .item str fmt ∈ (pieces pattern skip nstr).1) : fmt = [] := by
  have hflush : ∀ nstr, .item str fmt ∉ flush nstr := by
    intro nstr
    unfold flush
    split <;> simp
  induction pattern generalizing skip nstr with
  | nil => exact absurd h (hflush nstr)
  | cons c rest ih =>
    cases skip with
    | succ skip => exact ih h
    | zero =>
      rw [pieces] at h
      split at h
      · exact ih h
      · split at h
        · exact ih h
        · split at h
          · rcases List.mem_append.mp h with h | h
            · exact absurd h (hflush nstr)
            · rcases List.mem_cons.mp h with h | h
              · cases h
                rfl
              · exact ih h
          · rcases List.mem_cons.mp h with h | h
            · cases h
            · exact ih h
          · exact ih h

/-! ## Patterns with an error -/

/-- A name with a `{` that is not closed. -/
def Unclosed (rest : List Char) : Prop :=
  ∃ behind, rest.dropWhile Char.isAlpha = '{' :: behind ∧ '}' ∉ behind

theorem Unclosed.scanName {rest : List Char} (h : Unclosed rest) : scanName rest = .unclosed := by
  have hfmt : ∀ {behind : List Char}, '}' ∉ behind → scanFmt behind = none := by
    intro behind hnot
    induction behind with
    | nil => rfl
    | cons c behind ih =>
      rw [List.mem_cons, not_or] at hnot
      rw [scanFmt, ih hnot.2, if_neg (Ne.symm hnot.1)]
      split <;> rfl
  induction rest with
  | nil =>
    obtain ⟨behind, heq, -⟩ := h
    cases heq
  | cons c rest ih =>
    obtain ⟨behind, heq, hnot⟩ := h
    rw [List.dropWhile_cons] at heq
    split at heq
    · next hc =>
      have hbrace : c ≠ '{' := by
        rintro rfl
        exact absurd hc (by decide)
      simp [SylarLog.scanName, inName, hc, hbrace, ih ⟨behind, heq, hnot⟩]
    · cases heq
      rw [SylarLog.scanName, if_neg (by decide), if_pos rfl, hfmt hnot]

/-- Where the grammar has an error. -/
theorem unclosed_of_document (h : document rest skip nstr = none) :
    ∃ pre post, rest = pre ++ '%' :: post
      ∧ post.head? ≠ some '%' ∧ Unclosed post := by
  induction rest generalizing skip nstr with
  | nil => cases h
  | cons c rest ih =>
    have hlater : ∀ {skip nstr}, document rest skip nstr = none → ∃ pre post,
        c :: rest = pre ++ '%' :: post ∧ post.head? ≠ some '%' ∧ Unclosed post := by
      intro skip nstr h
      obtain ⟨pre, post, rfl, hpost⟩ := ih h
      exact ⟨c :: pre, post, rfl, hpost⟩
    cases skip with
    | succ skip => exact hlater h
    | zero =>
      rw [document] at h
      dsimp only at h
      split at h
      · exact hlater h
      · next hc =>
        split at h
        · exact hlater h
        · next hpercent =>
          split at h
          · next behind hbehind =>
            split at h
            · exact hlater (Option.map_eq_none_iff.mp h)
            · next hclosed =>
              exact ⟨[], rest, by rw [not_not.mp hc]; rfl, hpercent, behind, hbehind, hclosed⟩
          · exact hlater (Option.map_eq_none_iff.mp h)

/-- The code has it there, too: it begins an item at every percent sign that no other one
follows. -/
theorem error_of_unclosed {pre post : List Char} (hskip : skip ≤ pre.length) (nstr : List Char)
    (hpercent : post.head? ≠ some '%') (h : Unclosed post) :
    (pieces (pre ++ '%' :: post) skip nstr).2 = true := by
  have hname : ∀ {pre str : List Char}, scanName (pre ++ '%' :: post) = .name str →
      str.length ≤ pre.length := by
    intro pre str hscan
    induction pre generalizing str with
    | nil =>
      cases hscan
      exact Nat.le_refl _
    | cons c pre ih =>
      rw [List.cons_append, scanName] at hscan
      split at hscan
      · cases hscan
        exact Nat.zero_le _
      · split at hscan
        · split at hscan <;> cases hscan
        · split at hscan
          · next hrest =>
            cases hscan
            exact Nat.succ_le_succ (ih hrest)
          · cases hscan
          · cases hscan
  induction pre generalizing skip nstr with
  | nil =>
    obtain rfl : skip = 0 := Nat.le_zero.mp hskip
    rw [List.nil_append, pieces, if_neg (not_not_intro rfl), if_neg hpercent, h.scanName]
  | cons c pre ih =>
    cases skip with
    | succ skip => exact ih (Nat.le_of_succ_le_succ hskip) nstr
    | zero =>
      rw [List.cons_append, pieces]
      split
      · exact ih (Nat.zero_le _) _
      · split
        · exact ih (Nat.zero_le _) _
        · split
          · next hscan => exact ih (hname hscan) _
          · rfl
          · exact ih (Nat.zero_le _) _

/-- **Patterns**: one is read as documented if the documentation has an error for it or it
agrees; one with a format for an item that is known is not. -/
theorem pattern_documented (pattern : List Char) :
    (document pattern 0 [] = none ∨ Agrees pattern 0 → Documented pattern)
      ∧ ∀ ps name fmt kind, document pattern 0 [] = some ps → .item name fmt ∈ ps →
        s_format_items.lookup name = some kind → fmt ≠ [] → ¬ Documented pattern := by
  constructor
  · cases hdoc : document pattern 0 [] with
    | none =>
      intro _
      obtain ⟨pre, post, rfl, hpercent, hunclosed⟩ := unclosed_of_document hdoc
      have herror := error_of_unclosed (Nat.zero_le pre.length) [] hpercent hunclosed
      refine ⟨fun ps hps => ?_, iff_of_true ?_ fun ps hps => ?_⟩
      · rw [hdoc] at hps
        cases hps
      · rw [LogFormatter.new, herror]
        rfl
      · rw [hdoc] at hps
        cases hps
    | some ps =>
      rintro (hnone | h)
      · cases hnone
      · have hpieces := pieces_agree h hdoc
        refine ⟨fun ps' hps' => ?_, ?_⟩
        · cases hdoc.symm.trans hps'
          rw [LogFormatter.new, hpieces]
        · rw [LogFormatter.new, hpieces]
          simp [hdoc]
  · intro ps name fmt kind hps hitem hkind hfmt hdoc
    have hmem : FormatItem.item kind fmt ∈ (LogFormatter.new pattern).m_items := by
      rw [hdoc.items ps hps, List.mem_map]
      exact ⟨_, hitem, by rw [Piece.toItem, hkind]⟩
    obtain ⟨piece, hpiece, heq⟩ := List.mem_map.mp hmem
    cases piece with
    | text str => cases heq
    | item str fmt' =>
      cases pieces_fmt hpiece
      rw [Piece.toItem] at heq
      split at heq
      · cases heq
      · cases heq
        exact hfmt rfl

/-- The default pattern of the documentation is an error, and `%%` is no percent sign. -/
theorem documented_default_fails :
    (LogFormatter.new "%d{%Y-%m-%d %H:%M:%S}%T%t%T%N%T%F%T[%p]%T[%c]%T%f:%l%T%m%n".toList).m_error
        = true
      ∧ (document "%d{%Y-%m-%d %H:%M:%S}%T%t%T%N%T%F%T[%p]%T[%c]%T%f:%l%T%m%n".toList 0 []).map
        (·.any Piece.unknown) = some false
      ∧ (pieces "%%m".toList 0 []).1 = [.text ['%'], .item ['m'] []]
      ∧ document "%%m".toList 0 [] = some [.text ['%', 'm']] := by
  decide

end SylarLog
