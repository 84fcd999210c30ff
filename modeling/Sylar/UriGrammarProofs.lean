import Sylar.UriSyntaxProofs
import Sylar.UriAuthorityProofs

/-! # The texts of the URI grammar (`uri.rl`)

Text of a class with percent-encoded bytes, hosts, and the components the grammar takes.
None of them holds a delimiter that would end it, not even a literal in brackets: the
expressions of its grammar have no such byte, nor have their derivatives.

* **`Text.free`**, **`HostText.shape`** — which delimiters stand in no text.
* **`Grammatical.wellFormed`** — what the grammar takes is taken apart at its
  delimiters. -/

namespace SylarUri

open SylarHttp (byte oneOf digit alpha xdigit void)
open UriSyntax

/-! ## Text -/

variable {a s : List UInt8} {ok : UInt8 → Bool}

/-- The bytes of a run, whose states keep `I`. -/
theorem Run.mem {τ : Type} {step : τ → UInt8 → Option τ} {pct : τ → Option τ} {I : τ → Prop}
    {P : UInt8 → Prop} (hstep : ∀ {t c t'}, I t → step t c = some t' → P c ∧ I t')
    (hpct : ∀ {t t'}, I t → pct t = some t' → P (byte '%') ∧ I t') (hx : ∀ c, xdigit c = true → P c)
    {t t' : τ} (h : Run step pct t a t') : I t → ∀ c ∈ a, P c := by
  induction h with
  | nil => exact fun _ c hc => absurd hc List.not_mem_nil
  | cons hc _ ih =>
    intro ht
    obtain ⟨hP, ht₁⟩ := hstep ht hc
    exact List.forall_mem_cons.mpr ⟨hP, ih ht₁⟩
  | pct _ hp hdig _ ih =>
    intro ht
    obtain ⟨hP, ht₁⟩ := hpct ht hp
    obtain ⟨hhi, hlo⟩ := Bool.and_eq_true_iff.mp hdig
    exact List.forall_mem_cons.mpr ⟨hP, List.forall_mem_cons.mpr ⟨hx _ hhi,
      List.forall_mem_cons.mpr ⟨hx _ hlo, ih ht₁⟩⟩⟩

theorem Text.pct {hi lo : UInt8} (hok : ok (byte '%') = false)
    (hdig : (xdigit hi && xdigit lo) = true) (h : Text ok s) :
    Text ok (byte '%' :: hi :: lo :: s) :=
  Run.pct (textStep_none.mpr hok) rfl hdig h

/-- Induction on text. -/
theorem Text.induction {motive : List UInt8 → Prop} (hnil : motive [])
    (hcons : ∀ c s, ok c = true → Text ok s → motive s → motive (c :: s))
    (hpct : ∀ hi lo s, (xdigit hi && xdigit lo) = true → Text ok s → motive s →
      motive (byte '%' :: hi :: lo :: s)) (h : Text ok s) : motive s := by
  have hall : ∀ {t a t'}, Run (textStep ok) some t a t' → motive a := by
    intro t a t' h
    induction h with
    | nil => exact hnil
    | cons hc ha ih =>
      rw [textStep] at hc
      split_ifs at hc with hok
      exact hcons _ _ hok ha ih
    | pct _ _ hdig ha ih => exact hpct _ _ _ hdig ha ih
  exact hall h

/-- Text has none of the delimiters that are not in its class. -/
theorem Text.free {ds : List UInt8} (h : Text ok s)
    (hds : ds.any (fun d => ok d || d == byte '%' || xdigit d) = false) : Free ds s := by
  have hmem : ∀ c ∈ s, (ok c || c == byte '%' || xdigit c) = true := by
    refine Run.mem (I := fun _ => True) (fun _ hc => ⟨?_, trivial⟩) (fun _ _ => ⟨?_, trivial⟩)
      (fun c hc => ?_) h trivial
    · rw [textStep] at hc
      split_ifs at hc with hok
      rw [hok]
      rfl
    · rw [beq_self_eq_true, Bool.or_true]
      rfl
    · rw [hc, Bool.or_true]
  intro d hd hdmem
  exact List.any_eq_false.mp hds d hd (hmem d hdmem)

/-- Bytes of the class are text. -/
theorem Text.of_all (h : ∀ c ∈ s, ok c = true) : Text ok s := by
  induction s with
  | nil => exact Text.nil ok
  | cons c s ih =>
    obtain ⟨hc, hs⟩ := List.forall_mem_cons.mp h
    exact (ih hs).cons hc

theorem Text.append {b : List UInt8} (hok : ok (byte '%') = false) (ha : Text ok a) (hb : Text ok b)
    :
    Text ok (a ++ b) :=
  Text.induction (motive := fun a => Text ok (a ++ b)) hb (fun _ _ hc _ ih => ih.cons hc)
    (fun _ _ _ hdig _ ih => ih.pct hok hdig) ha

/-- Text of a larger class. -/
theorem Text.mono {ok' : UInt8 → Bool} (hok : ok' (byte '%') = false)
    (hle : ∀ c, ok c = true → ok' c = true) (h : Text ok s) : Text ok' s :=
  Text.induction (motive := Text ok') (Text.nil _) (fun c _ hc _ ih => ih.cons (hle c hc))
    (fun _ _ _ hdig _ ih => ih.pct hok hdig) h

/-- The first byte of a text. -/
theorem Text.head {c : UInt8} (h : Text ok (c :: s)) : ok c = true ∨ c = byte '%' := by
  cases h with
  | cons hc _ =>
    rw [textStep] at hc
    split_ifs at hc with hok
    exact Or.inl hok
  | pct => exact Or.inr rfl

theorem Text.tail {c : UInt8} (hc : ok c = true) (hok : ok (byte '%') = false)
    (h : Text ok (c :: s)) : Text ok s := by
  cases h with
  | cons _ hs => exact hs
  | pct => exact absurd (hok.symm.trans hc) Bool.false_ne_true

theorem Text.of_append {b : List UInt8} (ha : ∀ c ∈ a, ok c = true) (hok : ok (byte '%') = false)
    (h : Text ok (a ++ b)) : Text ok b := by
  induction a with
  | nil => exact h
  | cons c a ih =>
    obtain ⟨hc, ha⟩ := List.forall_mem_cons.mp ha
    exact ih ha (h.tail hc hok)

/-! ## IP literals -/

/-- The expression has no other bytes. -/
def uses (p : UInt8 → Bool) : RegularExpression UInt8 → Bool
  | .zero => true
  | .epsilon => true
  | .char c => p c
  | .plus a b => uses p a && uses p b
  | .comp a b => uses p a && uses p b
  | .star a => uses p a

/-- The derivatives have no other bytes, and by another byte they have no words. -/
theorem uses_deriv {p : UInt8 → Bool} (c : UInt8) {r : RegularExpression UInt8}
    (h : uses p r = true) :
    uses p (r.deriv c) = true ∧ (p c = false → void (r.deriv c) = true) := by
  induction r with
  | zero => exact ⟨rfl, fun _ => rfl⟩
  | epsilon => exact ⟨rfl, fun _ => rfl⟩
  | char a =>
    rw [RegularExpression.deriv]
    split_ifs with hac
    · subst hac
      exact ⟨rfl, fun hc => absurd (hc.symm.trans h) Bool.false_ne_true⟩
    · exact ⟨rfl, fun _ => rfl⟩
  | plus a b iha ihb =>
    obtain ⟨ha, hb⟩ := Bool.and_eq_true_iff.mp h
    exact ⟨Bool.and_eq_true_iff.mpr ⟨(iha ha).1, (ihb hb).1⟩,
      fun hc => Bool.and_eq_true_iff.mpr ⟨(iha ha).2 hc, (ihb hb).2 hc⟩⟩
  | comp a b iha ihb =>
    obtain ⟨ha, hb⟩ := Bool.and_eq_true_iff.mp h
    have huses : uses p (a.deriv c * b) = true := Bool.and_eq_true_iff.mpr ⟨(iha ha).1, hb⟩
    have hvoid : p c = false → void (a.deriv c * b) = true := fun hc =>
      Bool.or_eq_true_iff.mpr (Or.inl ((iha ha).2 hc))
    show uses p (if a.matchEpsilon then a.deriv c * b + b.deriv c else a.deriv c * b) = true
      ∧ (_ → void (if a.matchEpsilon then a.deriv c * b + b.deriv c else a.deriv c * b) = true)
    split_ifs
    · exact ⟨Bool.and_eq_true_iff.mpr ⟨huses, (ihb hb).1⟩,
        fun hc => Bool.and_eq_true_iff.mpr ⟨hvoid hc, (ihb hb).2 hc⟩⟩
    · exact ⟨huses, hvoid⟩
  | star a ih =>
    exact ⟨Bool.and_eq_true_iff.mpr ⟨(ih h).1, h⟩,
      fun hc => Bool.or_eq_true_iff.mpr (Or.inl ((ih h).2 hc))⟩

/-- What stands in an IP literal. -/
def literalChar (c : UInt8) : Bool := !oneOf ['@', '/', '?', '#'] c

private theorem uses_literal : uses literalChar literal = true := by
  decide +kernel

theorem literal_free {t : RegularExpression UInt8} {w : List UInt8}
    (h : Run literalStep (fun _ => none) literal w t) :
    Free [closeBracket, atSign, slash, question, hash] w := by
  have hmem : ∀ c ∈ w, (c != byte ']' && literalChar c) = true := by
    refine Run.mem (I := fun r => uses literalChar r = true) (fun {r c r'} hr hc => ?_)
      (fun _ hp => by cases hp) (SylarHttp.forall_byte (by decide +kernel)) h uses_literal
    rw [literalStep] at hc
    split_ifs at hc with hclose hvoid
    cases hc
    obtain ⟨huses, hempty⟩ := uses_deriv c hr
    refine ⟨Bool.and_eq_true_iff.mpr ⟨?_, ?_⟩, huses⟩
    · exact bne_iff_ne.mpr fun heq => hclose (beq_iff_eq.mpr heq)
    · rw [← Bool.not_eq_false]
      exact fun hno => hvoid (hempty hno)
  have hno : [closeBracket, atSign, slash, question, hash].any
      (fun d => d != byte ']' && literalChar d) = false := by decide
  intro d hd hdw
  exact List.any_eq_false.mp hno d hd (hmem d hdw)

/-! ## Components -/

/-- A host: an IP literal in brackets, a `reg_name` or an `IPv4address`. -/
def HostText (h : List UInt8) : Prop :=
  (∃ w t, h = byte '[' :: (w ++ [byte ']']) ∧ Run literalStep (fun _ => none) literal w t
      ∧ t.matchEpsilon = true)
    ∨ h.head? ≠ some (byte '[') ∧ ∃ w, Run wordStep wordPct .start h w ∧ w.complete = true

/-- A scheme. -/
structure SchemeText (t : List UInt8) : Prop where
  first : t.head?.any alpha = true
  all : ∀ c ∈ t, schemeChar c = true

def Digits (port : Option (List UInt8)) : Prop := ∀ p, port = some p → ∀ c ∈ p, digit c = true

/-- An authority that the scanner reads. -/
structure AuthorityText (a : Authority) : Prop where
  userinfo : ∀ u, a.userinfo = some u → Text userinfoChar u
  host : HostText a.host
  port : Digits a.port

/-- What the grammar takes. -/
structure Grammatical (c : Components) : Prop where
  scheme : ∀ t, c.scheme = some t → SchemeText t
  authority : ∀ a, c.authority = some a → AuthorityText a
  path : Text pathChar c.path
  shape : PathShape c
  query : ∀ q, c.query = some q → Text queryChar q
  fragment : ∀ f, c.fragment = some f → Text queryChar f

theorem HostText.shape {h : List UInt8} (hh : HostText h) : HostShape h := by
  rcases hh with ⟨w, t, rfl, hw, -⟩ | ⟨hhead, w, hw, -⟩
  · exact Or.inl ⟨w, rfl, literal_free hw⟩
  · refine Or.inr ⟨hhead, ?_⟩
    have hmem : ∀ c ∈ h, oneOf [':', '@', '/', '?', '#'] c = false := by
      refine Run.mem (I := fun _ => True) (fun _ hc => ⟨?_, trivial⟩)
        (fun _ _ => ⟨by decide, trivial⟩) (SylarHttp.forall_byte (by decide +kernel)) hw trivial
      have hplain := (wordStep_some hc).1
      simp only [oneOf, List.any_cons, List.any_nil, Bool.or_false,
        Bool.or_eq_false_iff] at hplain ⊢
      exact ⟨hplain.1, hplain.2.1, hplain.2.2.2⟩
    have hno : [colon, atSign, slash, question, hash].all (oneOf [':', '@', '/', '?', '#']) =
      true := by decide
    intro d hd hdh
    exact Bool.false_ne_true ((hmem d hdh).symm.trans (List.all_eq_true.mp hno d hd))

theorem AuthorityText.wellFormed {a : Authority} (h : AuthorityText a) : a.WellFormed where
  userinfo u hu := (h.userinfo u hu).free (by decide)
  host := h.host.shape
  port p hp := (Text.of_all (h.port p hp)).free (by decide)

theorem SchemeText.ne_nil {t : List UInt8} (h : SchemeText t) : t ≠ [] := by
  rintro rfl
  exact Bool.false_ne_true h.first

/-- **What the grammar takes can be taken apart.** -/
theorem Grammatical.wellFormed {c : Components} (h : Grammatical c) : c.WellFormed where
  scheme t ht := ⟨(h.scheme t ht).ne_nil, (Text.of_all (h.scheme t ht).all).free (by decide)⟩
  authority a ha := (h.authority a ha).wellFormed
  path := h.path.free (by decide)
  shape := h.shape
  query q hq := (h.query q hq).free (by decide)

end SylarUri
