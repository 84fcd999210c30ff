import Mathlib.Data.List.TakeWhile
import Mathlib.Data.UInt

/-! # The components of a URI reference (RFC 3986)

A URI reference is taken apart at its delimiters: the fragment behind the first `#`,
the query behind the first `?` in front of it, a scheme in front of the first `:`, an
authority behind two slashes.  The authority is taken apart at its `@` and at the colon
behind the host, which may be a literal in square brackets.

Any text can be taken apart, and the parts of a well-formed reference are the ones it
was put together from.

* **`decompose_text`** — taking apart what was put together. -/

namespace UriSyntax

open List

/-! ## Delimiters -/

def colon : UInt8 := 58
def slash : UInt8 := 47
def question : UInt8 := 63
def hash : UInt8 := 35
def atSign : UInt8 := 64
def openBracket : UInt8 := 91
def closeBracket : UInt8 := 93

/-- What stands in front of the first delimiter, and what stands behind it if there is
one. -/
def cut (d : UInt8) (s : List UInt8) : List UInt8 × Option (List UInt8) :=
  match s.dropWhile (· != d) with
  | [] => (s, none)
  | _ :: rest => (s.takeWhile (· != d), some rest)

variable {d : UInt8} {s ds : List UInt8}

theorem cut_of_not_mem (h : d ∉ s) : cut d s = (s, none) := by
  have hdrop : s.dropWhile (· != d) = [] := by
    rw [dropWhile_eq_nil_iff]
    intro c hc
    exact bne_iff_ne.mpr fun heq => h (heq ▸ hc)
  rw [cut, hdrop]

theorem cut_append {a : List UInt8} (b : List UInt8) (h : d ∉ a) :
    cut d (a ++ d :: b) = (a, some b) := by
  have ha : ∀ c ∈ a, (c != d) = true := fun c hc => bne_iff_ne.mpr fun heq => h (heq ▸ hc)
  rw [cut, dropWhile_append_of_pos ha, takeWhile_append_of_pos ha, dropWhile_cons_of_neg (by simp),
    takeWhile_cons_of_neg (by simp), append_nil]

/-! ## Components -/

/-- An authority and its parts. -/
structure Authority where
  userinfo : Option (List UInt8)
  host : List UInt8
  port : Option (List UInt8)
  deriving DecidableEq, Repr

/-- The five components. -/
structure Components where
  scheme : Option (List UInt8)
  authority : Option Authority
  path : List UInt8
  query : Option (List UInt8)
  fragment : Option (List UInt8)
  deriving DecidableEq, Repr

/-- A component behind its delimiter. -/
def behind (d : UInt8) : Option (List UInt8) → List UInt8
  | none => []
  | some s => d :: s

/-- A component in front of its delimiter. -/
def before (d : UInt8) : Option (List UInt8) → List UInt8
  | none => []
  | some s => s ++ [d]

def Authority.text (a : Authority) : List UInt8 :=
  before atSign a.userinfo ++ a.host ++ behind colon a.port

/-- The authority behind its two slashes. -/
def authorityText : Option Authority → List UInt8
  | none => []
  | some a => slash :: slash :: a.text

/-- **Putting together** (section 5.3). -/
def Components.text (c : Components) : List UInt8 :=
  before colon c.scheme ++ authorityText c.authority ++ c.path ++ behind question c.query
    ++ behind hash c.fragment

/-- The host and the port. -/
def splitHost (s : List UInt8) : List UInt8 × Option (List UInt8) :=
  if s.head? = some openBracket then
    match cut closeBracket s with
    | (h, none) => (h, none)
    | (h, some rest) => (h ++ [closeBracket], (cut colon rest).2)
  else cut colon s

def splitAuthority (s : List UInt8) : Authority :=
  match cut atSign s with
  | (s, none) => ⟨none, (splitHost s).1, (splitHost s).2⟩
  | (u, some s) => ⟨some u, (splitHost s).1, (splitHost s).2⟩

/-- The scheme, and what stands behind it. -/
def splitScheme (s : List UInt8) : Option (List UInt8) × List UInt8 :=
  match cut colon s with
  | (_, none) => (none, s)
  | (t, some rest) => if t = [] ∨ slash ∈ t then (none, s) else (some t, rest)

/-- The authority, if there is one, and the path. -/
def splitHier : List UInt8 → Option Authority × List UInt8
  | c :: d :: rest =>
    if c = slash ∧ d = slash then
      (some (splitAuthority (rest.takeWhile (· != slash))), rest.dropWhile (· != slash))
    else (none, c :: d :: rest)
  | s => (none, s)

/-- Taking apart (appendix B and section 3.2). -/
def decompose (s : List UInt8) : Components :=
  let f := cut hash s
  let q := cut question f.1
  let x := splitScheme q.1
  let h := splitHier x.2
  ⟨x.1, h.1, h.2, q.2, f.2⟩

/-! ## Well-formed components -/

/-- No byte of the text is one of these. -/
def Free (ds s : List UInt8) : Prop := ∀ d ∈ ds, d ∉ s

instance (ds s : List UInt8) : Decidable (Free ds s) := List.decidableBAll (· ∉ s) ds

/-- A host: a literal in brackets, or text without a colon. -/
def HostShape (h : List UInt8) : Prop :=
  (∃ w, h = openBracket :: (w ++ [closeBracket])
      ∧ Free [closeBracket, atSign, slash, question, hash] w)
    ∨ h.head? ≠ some openBracket ∧ Free [colon, atSign, slash, question, hash] h

structure Authority.WellFormed (a : Authority) : Prop where
  userinfo : ∀ u, a.userinfo = some u → Free [atSign, slash, question, hash] u
  host : HostShape a.host
  port : ∀ p, a.port = some p → Free [atSign, slash, question, hash] p

/-- What the path must not look like, depending on what stands in front of it. -/
def PathShape (c : Components) : Prop :=
  match c.authority, c.scheme with
  | some _, _ => c.path = [] ∨ c.path.head? = some slash
  | none, some _ => ¬ [slash, slash] <+: c.path
  | none, none => ¬ [slash, slash] <+: c.path ∧ colon ∉ c.path.takeWhile (· != slash)

structure Components.WellFormed (c : Components) : Prop where
  scheme : ∀ t, c.scheme = some t → t ≠ [] ∧ Free [colon, slash, question, hash] t
  authority : ∀ a, c.authority = some a → a.WellFormed
  path : Free [question, hash] c.path
  shape : PathShape c
  query : ∀ q, c.query = some q → Free [hash] q

/-! ## Taking apart what was put together -/

variable {t h path : List UInt8} {o : Option (List UInt8)}

theorem free_append : Free ds (s ++ t) ↔ Free ds s ∧ Free ds t := by
  constructor
  · intro h
    exact ⟨fun d hd hs => h d hd (mem_append_left _ hs),
      fun d hd ht => h d hd (mem_append_right _ ht)⟩
  · rintro ⟨hs, ht⟩ d hd hmem
    exact (mem_append.mp hmem).elim (hs d hd) (ht d hd)

theorem free_cons {c : UInt8} : Free ds (c :: s) ↔ c ∉ ds ∧ Free ds s := by
  constructor
  · intro h
    exact ⟨fun hc => h c hc mem_cons_self, fun d hd hs => h d hd (mem_cons_of_mem _ hs)⟩
  · rintro ⟨hc, hs⟩ d hd hmem
    rcases mem_cons.mp hmem with rfl | hmem
    · exact hc hd
    · exact hs d hd hmem

private theorem free_nil (ds : List UInt8) : Free ds [] := fun _ _ => not_mem_nil

/-- Fewer bytes to be free of. -/
theorem Free.mono {es : List UInt8} (h : Free ds s) (hes : es ⊆ ds) : Free es s :=
  fun d hd => h d (hes hd)

theorem free_before (hd : d ∉ ds) (h : ∀ s, o = some s → Free ds s) : Free ds (before d o) := by
  cases o with
  | none => exact free_nil ds
  | some s => exact free_append.mpr ⟨h s rfl, free_cons.mpr ⟨hd, free_nil ds⟩⟩

theorem free_behind (hd : d ∉ ds) (h : ∀ s, o = some s → Free ds s) : Free ds (behind d o) := by
  cases o with
  | none => exact free_nil ds
  | some s => exact free_cons.mpr ⟨hd, h s rfl⟩

/-- A component behind its delimiter is cut off. -/
theorem cut_behind {a : List UInt8} (o : Option (List UInt8)) (h : d ∉ a) :
    cut d (a ++ behind d o) = (a, o) := by
  cases o with
  | none => rw [behind, append_nil, cut_of_not_mem h]
  | some s => exact cut_append s h

theorem HostShape.free (hh : HostShape h) : Free [atSign, slash, question, hash] h := by
  rcases hh with ⟨w, rfl, hw⟩ | ⟨-, hfree⟩
  · refine free_cons.mpr ⟨by decide, free_append.mpr ⟨hw.mono (by decide), ?_⟩⟩
    exact free_cons.mpr ⟨by decide, free_nil _⟩
  · exact hfree.mono (by decide)

/-- The host and the port behind it. -/
theorem splitHost_append (port : Option (List UInt8)) (hh : HostShape h) :
    splitHost (h ++ behind colon port) = (h, port) := by
  rcases hh with ⟨w, rfl, hw⟩ | ⟨hhead, hfree⟩
  · have hnot : closeBracket ∉ openBracket :: w := by
      rw [mem_cons, not_or]
      exact ⟨by decide, hw _ (by decide)⟩
    have hrest : cut colon (behind colon port) = ([], port) := cut_behind port not_mem_nil
    have htext : openBracket :: (w ++ [closeBracket]) ++ behind colon port
        = (openBracket :: w) ++ closeBracket :: behind colon port := by simp
    have hopen : (openBracket :: w ++ closeBracket :: behind colon port).head?
        = some openBracket := rfl
    rw [splitHost, htext, if_pos hopen, cut_append _ hnot]
    dsimp only
    rw [hrest]
    rfl
  · have hopen : (h ++ behind colon port).head? ≠ some openBracket := by
      cases h with
      | nil => cases port <;> simp [behind, colon, openBracket]
      | cons c h => simpa using hhead
    rw [splitHost, if_neg hopen]
    exact cut_behind port (hfree _ (by decide))

variable {a : Authority}

/-- The authority. -/
theorem splitAuthority_text (h : a.WellFormed) : splitAuthority a.text = a := by
  obtain ⟨userinfo, host, port⟩ := a
  have hhost : Free [atSign, slash, question, hash] (host ++ behind colon port) :=
    free_append.mpr ⟨h.host.free, free_behind (by decide) h.port⟩
  have hsplit := splitHost_append port h.host
  dsimp only at hsplit
  cases userinfo with
  | none =>
    have htext : Authority.text ⟨none, host, port⟩ = host ++ behind colon port := rfl
    rw [splitAuthority, htext, cut_of_not_mem (hhost _ (by decide))]
    dsimp only
    rw [hsplit]
  | some u =>
    have htext : Authority.text ⟨some u, host, port⟩
        = u ++ atSign :: (host ++ behind colon port) := by
      simp [Authority.text, before]
    rw [splitAuthority, htext, cut_append _ (h.userinfo u rfl _ (by decide))]
    dsimp only
    rw [hsplit]

theorem Authority.WellFormed.free (h : a.WellFormed) : Free [slash, question, hash] a.text := by
  refine free_append.mpr ⟨free_append.mpr ⟨?_, ?_⟩, ?_⟩
  · exact free_before (by decide) fun u hu => (h.userinfo u hu).mono (by decide)
  · exact h.host.free.mono (by decide)
  · exact free_behind (by decide) fun p hp => (h.port p hp).mono (by decide)

/-- A path without an authority in front of it. -/
theorem splitHier_path (h : ¬ [slash, slash] <+: path) : splitHier path = (none, path) := by
  match path with
  | [] | [c] => rfl
  | c :: d :: rest =>
    rw [splitHier, if_neg]
    rintro ⟨rfl, rfl⟩
    exact h ⟨rest, rfl⟩

/-- The authority and the path behind it. -/
theorem splitHier_authority (ha : a.WellFormed) (hpath : path = [] ∨ path.head? = some slash) :
    splitHier (authorityText (some a) ++ path) = (some a, path) := by
  have hall : ∀ c ∈ a.text, (c != slash) = true := fun c hc =>
    bne_iff_ne.mpr fun heq => ha.free slash (by decide) (heq ▸ hc)
  have hend : path.takeWhile (· != slash) = [] ∧ path.dropWhile (· != slash) = path := by
    rcases hpath with rfl | hhead
    · exact ⟨rfl, rfl⟩
    · obtain ⟨rest, rfl⟩ := head?_eq_some_iff.mp hhead
      exact ⟨takeWhile_cons_of_neg (by simp), dropWhile_cons_of_neg (by simp)⟩
  show splitHier (slash :: slash :: (a.text ++ path)) = _
  rw [splitHier, if_pos ⟨rfl, rfl⟩, takeWhile_append_of_pos hall,
    dropWhile_append_of_pos hall, hend.1, hend.2, append_nil, splitAuthority_text ha]

/-- A text that begins with a slash has no scheme. -/
theorem splitScheme_slash (s : List UInt8) :
    splitScheme (slash :: s) = (none, slash :: s) := by
  have hcut : cut colon (slash :: s) = (slash :: s, none)
      ∨ ∃ rest, cut colon (slash :: s) = (slash :: s.takeWhile (· != colon), some rest) := by
    rw [cut, takeWhile_cons_of_pos (by decide)]
    split
    · exact Or.inl rfl
    · exact Or.inr ⟨_, rfl⟩
  rw [splitScheme]
  rcases hcut with h | ⟨rest, h⟩
  · rw [h]
  · rw [h]
    dsimp only
    rw [if_pos (Or.inr mem_cons_self)]

/-- A text whose first segment has no colon has no scheme. -/
theorem splitScheme_path (h : colon ∉ s.takeWhile (· != slash)) : splitScheme s = (none, s) := by
  rw [splitScheme]
  by_cases hmem : colon ∈ s
  · obtain ⟨a, b, rfl, ha⟩ := eq_append_cons_of_mem hmem
    rw [cut_append b ha]
    dsimp only
    rw [if_pos]
    by_contra hno
    rw [not_or] at hno
    -- the colon would stand in the first segment
    have hall : ∀ c ∈ a, (c != slash) = true := fun c hc =>
      bne_iff_ne.mpr fun heq => hno.2 (heq ▸ hc)
    refine h ?_
    rw [takeWhile_append_of_pos hall, takeWhile_cons_of_pos (by decide)]
    exact mem_append_right _ mem_cons_self
  · rw [cut_of_not_mem hmem]

theorem splitScheme_before (s : List UInt8) (hne : t ≠ [])
    (h : Free [colon, slash, question, hash] t) :
    splitScheme (before colon (some t) ++ s) = (some t, s) := by
  have htext : before colon (some t) ++ s = t ++ colon :: s := by simp [before]
  rw [splitScheme, htext, cut_append s (h _ (by decide))]
  dsimp only
  rw [if_neg]
  rintro (rfl | hslash)
  · exact hne rfl
  · exact h _ (by decide) hslash

theorem free_authorityText {o : Option Authority} (h : ∀ a, o = some a → a.WellFormed) :
    Free [question, hash] (authorityText o) := by
  cases o with
  | none => exact free_nil _
  | some a =>
    refine free_cons.mpr ⟨by decide, free_cons.mpr ⟨by decide, ?_⟩⟩
    exact (h a rfl).free.mono (by decide)

/-- **Taking apart what was put together.** -/
theorem decompose_text {c : Components} (h : c.WellFormed) : decompose c.text = c := by
  obtain ⟨scheme, authority, path, query, fragment⟩ := c
  have hscheme : Free [question, hash] (before colon scheme) :=
    free_before (by decide) fun t ht => (h.scheme t ht).2.mono (by decide)
  have hfront : Free [question, hash] (before colon scheme ++ authorityText authority ++ path) :=
    free_append.mpr ⟨free_append.mpr ⟨hscheme, free_authorityText h.authority⟩, h.path⟩
  have hhash : hash ∉ before colon scheme ++ authorityText authority ++ path
      ++ behind question query := by
    refine free_append.mpr ⟨hfront.mono (show [hash] ⊆ _ by decide), ?_⟩ hash (by decide)
    exact free_behind (by decide) h.query
  have hcut : cut hash (Components.text ⟨scheme, authority, path, query, fragment⟩)
      = (before colon scheme ++ authorityText authority ++ path ++ behind question query,
          fragment) := cut_behind fragment hhash
  have hhier : splitScheme (before colon scheme ++ authorityText authority ++ path)
        = (scheme, authorityText authority ++ path)
      ∧ splitHier (authorityText authority ++ path) = (authority, path) := by
    have hshape := h.shape
    cases authority with
    | some a =>
      refine ⟨?_, splitHier_authority (h.authority a rfl) hshape⟩
      cases scheme with
      | none => exact splitScheme_slash _
      | some t =>
        rw [append_assoc]
        exact splitScheme_before _ (h.scheme t rfl).1 (h.scheme t rfl).2
    | none =>
      cases scheme with
      | none => exact ⟨splitScheme_path hshape.2, splitHier_path hshape.1⟩
      | some t =>
        refine ⟨?_, splitHier_path hshape⟩
        rw [append_assoc]
        exact splitScheme_before _ (h.scheme t rfl).1 (h.scheme t rfl).2
  rw [decompose, hcut]
  dsimp only
  rw [cut_behind query (hfront _ (by decide)), hhier.1]
  dsimp only
  rw [hhier.2]

end UriSyntax
