import Sylar.UriAuthorityTextProofs

/-! # What `Uri::Create` accepts and stores (`uri.rl`)

The reader takes a text apart into the components of the grammar.  What it stores for
them is compared with the decomposition at the delimiters: the scheme, the host, the
query and the fragment always agree with it.  The path is saved in `hier_part` behind an
authority only, user information is cut in front of a digit behind its colon, and a port
is not held against its bound.

The only strings from which something is built from the null mark have a scheme, an
authority with an empty port, and a path that ends there: the port saves nothing and
takes the mark with it, and the path is saved all the same.

* **`readUri_sound`**, **`readUri_complete`** — what is accepted, and what is stored.
* **`create_agrees_iff`** — when the stored components are those of the string.
* **`create_returns_iff`** — which strings raise an exception. -/

namespace SylarUri

open SylarHttp (byte oneOf digit alpha xdigit bytes)
open List
open UriSyntax

/-! ## Path, query and fragment -/

def Uri.withTail (u : Uri) (query fragment : Option (List UInt8)) : Uri :=
  { u with m_query := query.getD u.m_query, m_fragment := fragment.getD u.m_fragment }

/-- A query and a fragment. -/
structure TailText (query fragment : Option (List UInt8)) : Prop where
  query : ∀ q, query = some q → Text queryChar q
  fragment : ∀ f, fragment = some f → Text queryChar f

def tailText (query fragment : Option (List UInt8)) : List UInt8 :=
  behind question query ++ behind hash fragment

variable {u v : Uri} {xs path t s : List UInt8} {x : Part} {hasMark : Bool} {e : UriFault}

theorem readFragment_iff :
    readFragment u xs = some v ↔ Text queryChar xs ∧ v = { u with m_fragment := xs } := by
  rw [readFragment]
  constructor
  · intro h
    split at h
    · rename_i a hsplit
      obtain ⟨rfl, ha, -⟩ := splitText_iff.mp hsplit
      rw [append_nil]
      exact ⟨ha, (Option.some.inj h).symm⟩
    · cases h
  · rintro ⟨hxs, rfl⟩
    have hsplit : splitText queryChar xs = some (xs, []) :=
      splitText_iff.mpr ⟨(append_nil xs).symm, hxs, stops_nil _⟩
    rw [hsplit]

theorem readQuery_iff : readQuery u xs = some v ↔ ∃ q f, TailText (some q) f
      ∧ xs = q ++ behind hash f ∧ v = u.withTail (some q) f := by
  rw [readQuery]
  constructor
  · intro h
    split at h
    · rename_i a hsplit
      obtain ⟨rfl, ha, -⟩ := splitText_iff.mp hsplit
      exact ⟨a, none, ⟨(fun _ h => Option.some.inj h ▸ ha), (fun _ h => by cases h)⟩, rfl,
        (Option.some.inj h).symm⟩
    · rename_i a c ys hsplit
      obtain ⟨rfl, ha, -⟩ := splitText_iff.mp hsplit
      split_ifs at h with hc
      obtain ⟨hys, rfl⟩ := readFragment_iff.mp h
      rw [beq_iff_eq.mp hc]
      exact ⟨a, some ys, ⟨(fun _ h => Option.some.inj h ▸ ha),
        (fun _ h => Option.some.inj h ▸ hys)⟩, rfl, rfl⟩
    · cases h
  · rintro ⟨q, f, htail, rfl, rfl⟩
    have hq := htail.query q rfl
    cases f with
    | none =>
      have hsplit : splitText queryChar (q ++ behind hash none) = some (q, []) :=
        splitText_iff.mpr ⟨rfl, hq, stops_nil _⟩
      rw [hsplit]
      rfl
    | some f =>
      have hsplit : splitText queryChar (q ++ behind hash (some f)) = some (q, byte '#' :: f) :=
        splitText_iff.mpr ⟨rfl, hq, stops_cons f rfl (by decide)⟩
      rw [hsplit]
      exact readFragment_iff.mpr ⟨htail.fragment f rfl, rfl⟩

/-- What follows the path. -/
theorem readTail_iff :
    readTail u xs = some v ↔ ∃ q f, TailText q f ∧ xs = tailText q f ∧ v = u.withTail q f := by
  constructor
  · intro h
    cases xs with
    | nil =>
      exact ⟨none, none, ⟨(fun _ h => by cases h), (fun _ h => by cases h)⟩, rfl,
        (Option.some.inj h).symm⟩
    | cons c ys =>
      rw [readTail] at h
      split_ifs at h with hq hf
      · obtain ⟨q, f, htail, rfl, rfl⟩ := readQuery_iff.mp h
        rw [beq_iff_eq.mp hq]
        exact ⟨some q, f, htail, rfl, rfl⟩
      · obtain ⟨hys, rfl⟩ := readFragment_iff.mp h
        rw [beq_iff_eq.mp hf]
        exact ⟨none, some ys, ⟨(fun _ h => by cases h), (fun _ h => Option.some.inj h ▸ hys)⟩,
          rfl, rfl⟩
  · rintro ⟨q, f, htail, rfl, rfl⟩
    cases q with
    | some q => exact readQuery_iff.mpr ⟨q, f, htail, rfl, rfl⟩
    | none =>
      cases f with
      | none => rfl
      | some f => exact readFragment_iff.mpr ⟨htail.fragment f rfl, rfl⟩

private theorem tailText_begins (q f : Option (List UInt8)) : beginsTail (tailText q f) = true := by
  cases q with
  | some q => rfl
  | none => cases f <;> rfl

/-- A path behind an authority. -/
structure PathAbempty (path : List UInt8) : Prop where
  text : Text pathChar path
  shape : path = [] ∨ path.head? = some slash

variable {tail : List UInt8} {other : List UInt8 → Option Uri} {a : Authority}

/-- What begins behind an authority is a path, even an empty one. -/
theorem pathAbempty_iff (hpath : Text pathChar path) (htail : beginsTail tail = true) :
    beginsPath (path ++ tail) = true ↔ PathAbempty path := by
  constructor
  · intro h
    refine ⟨hpath, ?_⟩
    cases path with
    | nil => exact Or.inl rfl
    | cons c path =>
      rcases beginsPath_head h rfl with rfl | rfl | rfl
      · exact Or.inr rfl
      · rcases hpath.head with h | h <;> exact absurd h (by decide)
      · rcases hpath.head with h | h <;> exact absurd h (by decide)
  · rintro ⟨-, rfl | hhead⟩
    · cases tail with
      | nil => rfl
      | cons c ys =>
        rw [beginsTail] at htail
        rw [nil_append, beginsPath, Bool.or_assoc, htail, Bool.or_true]
    · obtain ⟨ys, rfl⟩ := head?_eq_some_iff.mp hhead
      rfl

/-- The path is saved in `hier_part` only. -/
def Uri.withPath (u : Uri) : Part → List UInt8 → Uri
  | .relative, _ => u
  | .hier, path => { u with m_path := path }

/-- Behind an authority there is a path, or the text is refused. -/
theorem readEnd_cases (x : Part) (hasMark : Bool) (u : Uri) (xs : List UInt8) :
    readEnd x hasMark u xs = .ok none ∨ ∃ path tail, PathAbempty path ∧ beginsTail tail = true
      ∧ xs = path ++ tail
      ∧ readEnd x hasMark u xs = (savedPath x hasMark u path).map fun u => readTail u tail := by
  rw [readEnd.eq_def]
  split_ifs with hbegins
  · cases hsplit : splitText pathChar xs with
    | none => exact Or.inl rfl
    | some y =>
      obtain ⟨path, tail⟩ := y
      obtain ⟨rfl, hpath, -⟩ := splitText_iff.mp hsplit
      dsimp only
      rw [readPathEnd]
      split_ifs with htail
      · exact Or.inr ⟨path, tail, (pathAbempty_iff hpath htail).mp hbegins, htail, rfl, rfl⟩
      · exact Or.inl rfl
  · exact Or.inl rfl

theorem readEnd_path (hpath : PathAbempty path) (htail : beginsTail tail = true) :
    readEnd x hasMark u (path ++ tail)
      = (savedPath x hasMark u path).map fun u => readTail u tail := by
  have hsplit : splitText pathChar (path ++ tail) = some (path, tail) :=
    splitText_iff.mpr ⟨rfl, hpath.text, beginsTail_stops htail⟩
  rw [readEnd, if_pos ((pathAbempty_iff hpath.text htail).mpr hpath), hsplit]
  exact if_pos htail

theorem readEnd_sound (h : readEnd x hasMark u xs = .ok (some v)) :
    ∃ path q f, PathAbempty path ∧ TailText q f ∧ xs = path ++ tailText q f
      ∧ v = (u.withPath x path).withTail q f := by
  rcases readEnd_cases x hasMark u xs with hnone | ⟨path, tail, hpath, -, rfl, hread⟩
  · rw [hnone] at h
    cases h
  · have htail : readTail (u.withPath x path) tail = some v := by
      rw [hread, savedPath.eq_def] at h
      cases x with
      | relative => exact Except.ok.inj h
      | hier =>
        cases hasMark with
        | true => exact Except.ok.inj h
        | false => cases h
    obtain ⟨q, f, htext, rfl, rfl⟩ := readTail_iff.mp htail
    exact ⟨path, q, f, hpath, htext, rfl, rfl⟩

/-- A path is saved from the null pointer behind an authority that leaves no mark. -/
theorem readEnd_error_iff :
    readEnd x hasMark u xs = .error e ↔ e = .null_mark ∧ x = .hier ∧ hasMark = false
      ∧ ∃ path tail, PathAbempty path ∧ beginsTail tail = true ∧ xs = path ++ tail := by
  constructor
  · intro h
    rcases readEnd_cases x hasMark u xs with hnone | ⟨path, tail, hpath, htail, rfl, hread⟩
    · rw [hnone] at h
      cases h
    · rw [hread, savedPath.eq_def] at h
      cases x with
      | relative => cases h
      | hier =>
        cases hasMark with
        | true => cases h
        | false =>
          cases h
          exact ⟨rfl, rfl, rfl, path, tail, hpath, htail, rfl⟩
  · rintro ⟨rfl, rfl, rfl, path, tail, hpath, htail, rfl⟩
    rw [readEnd_path hpath htail]
    rfl

/-! ## The whole text -/

/-- The user information of the components, and the other parts of the authority: empty when
absent. -/
def userinfoOf (c : Components) : List UInt8 := (c.authority.bind (·.userinfo)).getD []

def hostOf (c : Components) : List UInt8 := (c.authority.map (·.host)).getD []

def portOf (c : Components) : List UInt8 := (c.authority.bind (·.port)).getD []

/-- **What is stored for the components.** -/
def stored (c : Components) : Uri where
  m_scheme := c.scheme.getD []
  m_userinfo := savedUserinfo (userinfoOf c)
  m_host := hostOf c
  m_port := atoi (portOf c)
  m_path := if c.scheme.isSome ∧ c.authority.isSome then c.path else []
  m_query := c.query.getD []
  m_fragment := c.fragment.getD []

/-- Where the grammar puts a path. -/
def partOf (scheme : Option (List UInt8)) : Part := if scheme.isSome then .hier else .relative

theorem stored_authority (scheme : Option (List UInt8)) (a : Authority) (path : List UInt8)
    (q f : Option (List UInt8)) :
    stored ⟨scheme, some a, path, q, f⟩
      = ((Uri.withAuthority { m_scheme := scheme.getD [] } a).withPath (partOf scheme)
          path).withTail q f := by
  obtain ⟨userinfo, host, port⟩ := a
  cases scheme <;> cases userinfo <;> rcases port with - | - | ⟨c, d⟩ <;> rfl

theorem splitScheme_iff {ys : List UInt8} :
    splitScheme xs = some (t, ys) ↔ SchemeText t ∧ xs = t ++ byte ':' :: ys := by
  rw [splitScheme.eq_def]
  constructor
  · intro h
    split_ifs at h with hhead
    split at h
    · rename_i c zs hdrop
      split_ifs at h with hc
      cases h
      have hparts : xs = xs.takeWhile schemeChar ++ c :: ys := by
        rw [← hdrop, takeWhile_append_dropWhile]
      have hfirst : (xs.takeWhile schemeChar).head?.any alpha = true := by
        cases xs with
        | nil => exact hhead
        | cons b bs =>
          have hb : schemeChar b = true := by
            rw [schemeChar, show alpha b = true from hhead]
            rfl
          rw [takeWhile_cons_of_pos hb]
          exact hhead
      rw [beq_iff_eq.mp hc] at hparts
      exact ⟨⟨hfirst, fun b hb => mem_takeWhile_imp hb⟩, hparts⟩
    · cases h
  · rintro ⟨ht, rfl⟩
    have hhead : (t ++ byte ':' :: ys).head?.any alpha = true := by
      cases t with
      | nil => exact absurd ht.first Bool.false_ne_true
      | cons c t => exact ht.first
    have hno : ¬ schemeChar (byte ':') = true := by decide
    rw [if_pos hhead, dropWhile_append_of_pos ht.all, takeWhile_append_of_pos ht.all,
      dropWhile_cons_of_neg hno, takeWhile_cons_of_neg hno, append_nil]
    rfl

/-- Behind the scheme: an authority, or what is read by `other`. -/
theorem readSlashes_cases (x : Part) (u : Uri) (other : List UInt8 → Option Uri) (xs : List UInt8) :
    readSlashes x u other xs = .ok none
      ∨ (∃ a rest, AuthorityText a ∧ xs = byte '/' :: byte '/' :: (a.text ++ rest)
        ∧ readSlashes x u other xs = readEnd x (keepsMark a.port) (u.withAuthority a) rest)
      ∨ ¬ [slash, slash] <+: xs ∧ readSlashes x u other xs = .ok (other xs) := by
  match xs with
  | [] => exact Or.inr (Or.inr ⟨by simp, rfl⟩)
  | [c] => exact Or.inr (Or.inr ⟨by simp, rfl⟩)
  | c :: d :: zs =>
    rw [readSlashes]
    by_cases hc : (c == byte '/' && d == byte '/') = true
    · rw [if_pos hc]
      rw [Bool.and_eq_true, beq_iff_eq, beq_iff_eq] at hc
      rw [hc.1, hc.2]
      rcases readAuthority_sound x u zs with hnone | ⟨a, rest, ha, rfl, hend⟩
      · exact Or.inl hnone
      · exact Or.inr (Or.inl ⟨a, rest, ha, rfl, hend⟩)
    · rw [if_neg hc]
      refine Or.inr (Or.inr ⟨?_, rfl⟩)
      rintro ⟨ys, hys⟩
      cases hys
      exact hc rfl

theorem readSlashes_sound (h : readSlashes x u other xs = .ok (some v)) :
    (∃ a path q f, AuthorityText a ∧ PathAbempty path ∧ TailText q f
        ∧ xs = byte '/' :: byte '/' :: (a.text ++ (path ++ tailText q f))
        ∧ v = ((u.withAuthority a).withPath x path).withTail q f)
      ∨ ¬ [slash, slash] <+: xs ∧ other xs = some v := by
  rcases readSlashes_cases x u other xs with hread | ⟨a, rest, ha, rfl, hread⟩ | ⟨hno, hread⟩ <;>
    rw [hread] at h
  · cases h
  · obtain ⟨path, q, f, hpath, htail, rfl, rfl⟩ := readEnd_sound h
    exact Or.inl ⟨a, path, q, f, ha, hpath, htail, rfl, rfl⟩
  · exact Or.inr ⟨hno, Except.ok.inj h⟩

theorem readPath_sound (h : readPath u xs = some v) :
    ∃ path q f, Text pathChar path ∧ TailText q f ∧ xs = path ++ tailText q f
      ∧ v = u.withTail q f := by
  rw [readPath] at h
  cases hsplit : splitText pathChar xs with
  | none =>
    rw [hsplit] at h
    cases h
  | some y =>
    obtain ⟨path, rest⟩ := y
    rw [hsplit] at h
    obtain ⟨rfl, hpath, -⟩ := splitText_iff.mp hsplit
    obtain ⟨q, f, htail, rfl, rfl⟩ := readTail_iff.mp h
    exact ⟨path, q, f, hpath, htail, rfl, rfl⟩

theorem readSegment_sound (h : readSegment u xs = some v) :
    ∃ path q f, Text pathChar path ∧ colon ∉ path.takeWhile (· != slash)
      ∧ TailText q f ∧ xs = path ++ tailText q f ∧ v = u.withTail q f := by
  rw [readSegment] at h
  cases hsplit : splitText segmentChar xs with
  | none =>
    rw [hsplit] at h
    cases h
  | some y =>
    obtain ⟨a, rest⟩ := y
    rw [hsplit] at h
    dsimp only at h
    split_ifs at h with hbegins
    obtain ⟨rfl, ha, -⟩ := splitText_iff.mp hsplit
    obtain ⟨path, q, f, hpath, htail, rfl, rfl⟩ := readPath_sound h
    have hfree : Free [slash, colon] a := ha.free (by decide)
    have htext : Text pathChar a := ha.mono (by decide) (SylarHttp.forall_byte (by decide +kernel))
    have hshape := ((pathAbempty_iff hpath (tailText_begins q f)).mp hbegins).shape
    have htake : (a ++ path).takeWhile (· != slash) = a := by
      have hall : ∀ c ∈ a, (c != slash) = true := fun c hc =>
        bne_iff_ne.mpr fun heq => hfree _ mem_cons_self (heq ▸ hc)
      rw [takeWhile_append_of_pos hall]
      rcases hshape with rfl | hhead
      · rw [takeWhile_nil, append_nil]
      · obtain ⟨ys, rfl⟩ := head?_eq_some_iff.mp hhead
        rw [takeWhile_cons_of_neg (by simp), append_nil]
    refine ⟨a ++ path, q, f, htext.append (by decide) hpath, ?_, htail,
      (append_assoc _ _ _).symm, rfl⟩
    rw [htake]
    exact hfree _ (by decide)

/-- A text with an authority. -/
theorem text_authority (scheme : Option (List UInt8)) (a : Authority) (path : List UInt8)
    (q f : Option (List UInt8)) :
    Components.text ⟨scheme, some a, path, q, f⟩ = before colon scheme
        ++ byte '/' :: byte '/' :: (a.text ++ (path ++ tailText q f)) := by
  simp only [Components.text, authorityText, tailText, append_assoc, cons_append]
  rfl

theorem text_path (scheme : Option (List UInt8)) (path : List UInt8) (q f : Option (List UInt8)) :
    Components.text ⟨scheme, none, path, q, f⟩ = before colon scheme ++ (path ++ tailText q f) := by
  simp only [Components.text, authorityText, tailText, append_assoc, nil_append]

theorem grammatical_authority {scheme : Option (List UInt8)} {a : Authority}
    {path : List UInt8} {q f : Option (List UInt8)} (hscheme : ∀ t, scheme = some t → SchemeText t)
    (ha : AuthorityText a) (hpath : PathAbempty path) (htail : TailText q f) :
    Grammatical ⟨scheme, some a, path, q, f⟩ where
  scheme := hscheme
  authority _ h := Option.some.inj h ▸ ha
  path := hpath.text
  shape := hpath.shape
  query := htail.query
  fragment := htail.fragment

/-- **What is accepted is grammatical, and its components are stored.** -/
theorem readUri_sound (h : readUri s = .ok (some u)) :
    ∃ c, Grammatical c ∧ s = c.text ∧ u = stored c := by
  have hnone : ∀ t, (none : Option (List UInt8)) = some t → SchemeText t := fun _ h => by cases h
  rw [readUri] at h
  cases hscheme : splitScheme s with
  | some y =>
    obtain ⟨t, ys⟩ := y
    obtain ⟨ht, rfl⟩ := splitScheme_iff.mp hscheme
    have htext : t ++ byte ':' :: ys = before colon (some t) ++ ys :=
      (append_assoc t [byte ':'] ys).symm
    have hsome : ∀ t', some t = some t' → SchemeText t' := fun _ h => Option.some.inj h ▸ ht
    rw [hscheme] at h
    rcases readSlashes_sound h with ⟨a, path, q, f, ha, hpath, htail, rfl, rfl⟩ | ⟨hno, hread⟩
    · exact ⟨⟨some t, some a, path, q, f⟩, grammatical_authority hsome ha hpath htail,
        by rw [text_authority, htext], (stored_authority (some t) a path q f).symm⟩
    · obtain ⟨path, q, f, hpath, htail, rfl, rfl⟩ := readPath_sound hread
      exact ⟨⟨some t, none, path, q, f⟩, ⟨hsome, (fun _ h => by cases h), hpath,
        fun hpre => hno (hpre.trans (prefix_append _ _)), htail.query, htail.fragment⟩,
        by rw [text_path, htext], rfl⟩
  | none =>
    rw [hscheme] at h
    rcases readSlashes_sound h with ⟨a, path, q, f, ha, hpath, htail, rfl, rfl⟩ | ⟨hno, hread⟩
    · exact ⟨⟨none, some a, path, q, f⟩, grammatical_authority hnone ha hpath htail,
        (text_authority none a path q f).symm, (stored_authority none a path q f).symm⟩
    · obtain ⟨path, q, f, hpath, hcolon, htail, rfl, rfl⟩ := readSegment_sound hread
      exact ⟨⟨none, none, path, q, f⟩, ⟨hnone, (fun _ h => by cases h), hpath,
        ⟨fun hpre => hno (hpre.trans (prefix_append _ _)), hcolon⟩, htail.query,
        htail.fragment⟩, (text_path none path q f).symm, rfl⟩

/-- A text with a scheme and an authority is read from the authority on. -/
theorem readUri_hier (ht : SchemeText t) (ha : AuthorityText a) {rest : List UInt8}
    (hrest : beginsPath rest = true) :
    readUri (t ++ byte ':' :: byte '/' :: byte '/' :: (a.text ++ rest))
      = readEnd .hier (keepsMark a.port) (Uri.withAuthority { m_scheme := t } a) rest := by
  have hscheme := splitScheme_iff.mpr
    ⟨ht, (rfl : t ++ byte ':' :: byte '/' :: byte '/' :: (a.text ++ rest) = _)⟩
  rw [readUri, hscheme, ← readAuthority_complete ha hrest]
  rfl

/-- **Components with a scheme and an authority are read back.** -/
theorem readUri_complete {q f : Option (List UInt8)} (ht : SchemeText t) (ha : AuthorityText a)
    (hport : a.port ≠ some []) (hpath : PathAbempty path) (htail : TailText q f) :
    readUri (Components.text ⟨some t, some a, path, q, f⟩)
      = .ok (some (stored ⟨some t, some a, path, q, f⟩)) := by
  have hbegins := (pathAbempty_iff hpath.text (tailText_begins q f)).mpr hpath
  have hmark : keepsMark a.port = true := bne_iff_ne.mpr hport
  have htext : before colon (some t) ++ byte '/' :: byte '/' :: (a.text ++ (path ++ tailText q f)) =
    t ++ byte ':' :: byte '/' :: byte '/' :: (a.text ++ (path ++ tailText q f)) := append_assoc t
    [byte ':'] _
  rw [text_authority, htext, readUri_hier ht ha hbegins, hmark,
    readEnd_path hpath (tailText_begins q f), stored_authority]
  exact congrArg Except.ok (readTail_iff.mpr ⟨q, f, htail, rfl, rfl⟩)

/-! ## What is stored, and the components of the string -/

/-- What the components of a string should be stored as. -/
structure Agrees (c : Components) (u : Uri) : Prop where
  scheme : u.m_scheme = c.scheme.getD []
  userinfo : u.m_userinfo = userinfoOf c
  host : u.m_host = hostOf c
  path : u.m_path = c.path
  query : u.m_query = c.query.getD []
  fragment : u.m_fragment = c.fragment.getD []
  port : u.m_port = SylarHttpClient.decDigits (portOf c)
  range : 0 ≤ u.m_port ∧ u.m_port ≤ 65535

/-- Components that are stored as they stand. -/
structure Kept (c : Components) : Prop where
  path : c.path = [] ∨ c.scheme.isSome ∧ c.authority.isSome
  userinfo : ∀ b, (cut colon (userinfoOf c)).2 = some b →
    b.head?.any digit = false
  port : SylarHttpClient.decDigits (portOf c) ≤ 65535

theorem savedUserinfo_eq_iff (i : List UInt8) :
    savedUserinfo i = i ↔ ∀ b, (cut colon i).2 = some b → b.head?.any digit = false := by
  by_cases hcolon : byte ':' ∈ i
  · obtain ⟨a, b, rfl, ha⟩ := eq_append_cons_of_mem hcolon
    rw [savedUserinfo_parts b ha, savedParts, show cut colon
      (a ++ byte ':' :: b) = (a, some b) from cut_append b ha]
    constructor
    · rintro h _ ⟨⟩
      rw [← Bool.not_eq_true]
      intro hdigit
      rw [if_pos hdigit] at h
      -- the text from the digit on is shorter
      have hlength := congrArg length h
      rw [length_append, length_cons] at hlength
      omega
    · intro h
      rw [h b rfl, if_neg Bool.false_ne_true]
  · rw [savedUserinfo_plain hcolon, show cut colon i = (i, none) from cut_of_not_mem hcolon]
    exact ⟨(fun _ _ h => by cases h), fun _ => rfl⟩

theorem Grammatical.port {c : Components} (h : Grammatical c) : ∀ d ∈ portOf c, digit d = true := by
  rcases hc : c.authority with - | ⟨userinfo, host, - | port⟩
  · simp [portOf, hc]
  · simp [portOf, hc]
  · rw [portOf, hc]
    exact (h.authority _ hc).port port rfl

theorem atoi_port {d : List UInt8} (hd : ∀ c ∈ d, digit c = true)
    (h : SylarHttpClient.decDigits d ≤ 65535) : atoi d = SylarHttpClient.decDigits d := by
  cases d with
  | nil => rfl
  | cons c d =>
    have hvalue := atoi_digits [] (cons_ne_nil c d) hd (fun _ _ h => by cases h)
    rw [append_nil, SylarHttpClient.toInt32_clamp (by omega)] at hvalue
    exact hvalue

/-- **When the stored components are those of the string.** The scheme, the host, the query
and the fragment always are. -/
theorem create_agrees_iff (h : Create s = .ok (some u)) :
    u.m_scheme = (decompose s).scheme.getD [] ∧ u.m_host = hostOf (decompose s)
      ∧ u.m_query = (decompose s).query.getD [] ∧ u.m_fragment = (decompose s).fragment.getD []
      ∧ (Agrees (decompose s) u ↔ Kept (decompose s)) := by
  rw [create_eq_read] at h
  obtain ⟨c, hc, rfl, rfl⟩ := readUri_sound h
  rw [decompose_text hc.wellFormed]
  refine ⟨rfl, rfl, rfl, rfl, ?_⟩
  constructor
  · intro h
    refine ⟨?_, (savedUserinfo_eq_iff _).mp h.userinfo, ?_⟩
    · by_cases hhier : c.scheme.isSome ∧ c.authority.isSome
      · exact Or.inr hhier
      · exact Or.inl (h.path.symm.trans (if_neg hhier))
    · have hrange := h.range.2
      rw [h.port] at hrange
      omega
  · intro h
    have hport := atoi_port hc.port h.port
    refine ⟨rfl, (savedUserinfo_eq_iff _).mpr h.userinfo, rfl, ?_, rfl, rfl, hport, ?_⟩
    · by_cases hhier : c.scheme.isSome ∧ c.authority.isSome
      · exact if_pos hhier
      · exact (if_neg hhier).trans (h.path.resolve_right hhier).symm
    · have hbound := h.port
      rw [show (stored c).m_port = _ from hport]
      omega

theorem create_agrees_iff_full :
    Create (bytes "http://u:p@h:80/c?d#e") = .ok (some ⟨bytes "http", bytes "u:p", bytes "h", 80,
        bytes "/c", bytes "d", bytes "e"⟩)
      ∧ Agrees (decompose (bytes "http://u:p@h:80/c?d#e")) ⟨bytes "http", bytes "u:p", bytes "h",
        80, bytes "/c", bytes "d", bytes "e"⟩ := by
  have hread : Create (bytes "http://u:p@h:80/c?d#e") = .ok (some ⟨bytes "http", bytes "u:p",
      bytes "h", 80, bytes "/c", bytes "d", bytes "e"⟩) := by decide +kernel
  refine ⟨hread, (create_agrees_iff hread).2.2.2.2.mpr ⟨Or.inr (by decide), ?_, by decide⟩⟩
  intro b hb
  obtain rfl : bytes "p" = b := Option.some.inj hb
  decide

/-- The path of a relative reference is not stored. -/
theorem relative_path_is_dropped :
    Create (bytes "/a") = .ok (some {}) ∧ ¬ Agrees (decompose (bytes "/a")) {} := by
  refine ⟨by decide +kernel, fun h => ?_⟩
  exact absurd h.path (by decide)

/-! ## Exceptions -/

/-- A scheme, an authority with an empty port, and a path that ends there. -/
def EmptyPort (s : List UInt8) : Prop :=
  ∃ t a path tail, SchemeText t ∧ AuthorityText a ∧ a.port = some [] ∧ PathAbempty path
    ∧ beginsTail tail = true
    ∧ s = t ++ byte ':' :: byte '/' :: byte '/' :: (a.text ++ (path ++ tail))

theorem readSlashes_error (h : readSlashes x u other xs = .error e) :
    e = .null_mark ∧ x = .hier ∧ ∃ a path tail, AuthorityText a ∧ a.port = some []
      ∧ PathAbempty path ∧ beginsTail tail = true
      ∧ xs = byte '/' :: byte '/' :: (a.text ++ (path ++ tail)) := by
  rcases readSlashes_cases x u other xs with hread | ⟨a, rest, ha, rfl, hread⟩ | ⟨-, hread⟩ <;>
    rw [hread] at h
  · cases h
  · obtain ⟨he, hx, hmark, path, tail, hpath, htail, rfl⟩ := readEnd_error_iff.mp h
    have hport : a.port = some [] := by
      rw [keepsMark, bne_eq_false_iff_eq] at hmark
      exact hmark
    exact ⟨he, hx, a, path, tail, ha, hport, hpath, htail, rfl⟩
  · cases h

theorem readUri_error_iff : readUri s = .error e ↔ e = .null_mark ∧ EmptyPort s := by
  constructor
  · intro h
    rw [readUri] at h
    cases hscheme : splitScheme s with
    | some y =>
      obtain ⟨t, ys⟩ := y
      obtain ⟨ht, rfl⟩ := splitScheme_iff.mp hscheme
      rw [hscheme] at h
      obtain ⟨he, -, a, path, tail, ha, hport, hpath, htail, rfl⟩ := readSlashes_error h
      exact ⟨he, t, a, path, tail, ht, ha, hport, hpath, htail, rfl⟩
    | none =>
      rw [hscheme] at h
      cases (readSlashes_error h).2.1
  · rintro ⟨rfl, t, a, path, tail, ht, ha, hport, hpath, htail, rfl⟩
    rw [readUri_hier ht ha ((pathAbempty_iff hpath.text htail).mpr hpath), readEnd_error_iff, hport]
    exact ⟨rfl, rfl, rfl, path, tail, hpath, htail, rfl⟩

/-- **Which strings raise an exception**: a path is saved from the null mark; no mark lies behind
the position. -/
theorem create_returns_iff (s : List UInt8) :
    ((∃ r, Create s = .ok r) ↔ ¬ EmptyPort s) ∧ Create s ≠ .error .length_error := by
  rw [create_eq_read]
  refine ⟨⟨?_, ?_⟩, fun h => nomatch (readUri_error_iff.mp h).1⟩
  · rintro ⟨r, hr⟩ hempty
    rw [readUri_error_iff.mpr ⟨rfl, hempty⟩] at hr
    cases hr
  · intro hno
    cases hread : readUri s with
    | ok r => exact ⟨r, rfl⟩
    | error e => exact absurd (readUri_error_iff.mp hread).2 hno

theorem empty_port_raises : Create (bytes "http://h:") = .error .null_mark := by decide +kernel

end SylarUri
