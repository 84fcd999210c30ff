import Sylar.HttpSessionProofs

/-! # Where a request may be cut

A token of the request head is open in some states of the scanner: a
position has been noted that will be handed on.  The grammar notes every
position before it hands it on, so a read that contains a whole token
handles it, and a division harms only where it cuts an open one.

* **`ready_next`** — in one step: the actions find the positions of the open
  tokens, and leave those of the next state's.
* **`tokensWhole_of_closed`** — cuts in states with no open token are free.
* **`tokensWhole_single`** — a single read cuts nothing. -/

namespace SylarHttp

open Scanner

/-! ## Open tokens -/

/-- A token that starts at `mark`. -/
def Fresh.marked : Fresh := ⟨true, false, false, false⟩

/-- The positions that may be handed on before they are noted again. -/
def Cs.openTokens : Cs → Fresh
  -- the first byte of the target marks it, and again behind a scheme
  | .error | .start | .uri | .hier_part | .questionMark | .numberSign | .HTTP_Version | .lineEnd
  | .header | .xmlData | .xmlClose | .jsonStart | .jsonData | .jsonClose | .socketDone => .stale
  | .method _ | .scheme | .segment_nz_nc _ | .path _ | .slash _ | .authority _ | .userinfo _
  | .passwordOrPort _ | .password _ | .host _ | .reg_name _ | .port _ | .IP_literal _ _
  | .closed _ | .fragment | .versionText _ | .versionNumber | .versionEnd | .xmlStart | .xmlName
  | .jsonPath => .marked
  | .pct_encoded back | .pct_digit back => back.openTokens
  | .query => ⟨false, false, false, true⟩
  | .emptyLine | .field_name | .done => ⟨false, true, false, false⟩
  -- the name is complete but not handed on yet
  | .colon => ⟨false, true, true, false⟩
  | .field_value => ⟨true, true, true, false⟩

/-- All of `g` is fresh in `f`. -/
structure Fresh.Covers (f g : Fresh) : Prop where
  mark : g.mark = true → f.mark = true
  field_start : g.field_start = true → f.field_start = true
  field_len : g.field_len = true → f.field_len = true
  query_start : g.query_start = true → f.query_start = true

/-- The actions of the transition find what they hand on, and leave what is open in
the next state. -/
def Ready (f : Fresh) (t : Cs × List Act) : Prop :=
  ∃ f', t.2.foldlM (fun f a => Act.after a f) f = some f' ∧ f'.Covers t.1.openTokens

/-- Where no token is open nothing has to be fresh. -/
theorem covers_stale (f : Fresh) : f.Covers .stale := ⟨nofun, nofun, nofun, nofun⟩

/-- An open token at `mark` needs only the mark. -/
theorem covers_marked {f : Fresh} (hm : f.mark = true) : f.Covers .marked :=
  ⟨fun _ => hm, nofun, nofun, nofun⟩

variable {t : Cs × List Act} {cs : Cs}

/-- A choice of two transitions that are ready. -/
theorem Ready.ite {f : Fresh} {p : Bool} {u : Cs × List Act} (ht : Ready f t)
    (hu : Ready f u) : Ready f (if p then t else u) := by
  split
  · exact ht
  · exact hu

/-- A transition that also marks may rely on the mark. -/
theorem Ready.marked {f : Fresh} (h : Ready { f with mark := true } t) : Ready f (marked t) := h

theorem Ready.queryMarked {f : Fresh} (h : Ready { f with query_start := true } t) :
    Ready f (queryMarked t) :=
  h

/-- The transition into the error state. -/
theorem ready_fail (f : Fresh) : Ready f fail := ⟨f, rfl, covers_stale f⟩

/-- A transition without actions. -/
theorem ready_stay {f : Fresh} (h : f.Covers cs.openTokens) : Ready f (cs, []) := ⟨f, rfl, h⟩

/-! ## The target -/

section Target

variable {f : Fresh} (hm : f.mark = true) (relaxed : Bool) (x : Ctx) (c : UInt8)
include hm

/-- Behind a path: its token is handed on, or a query or fragment begins. -/
theorem ready_pathEnd : Ready f (pathEnd x c) := by
  have hboth : [Act.request_path, Act.request_uri].foldlM
      (fun f a => Act.after a f) f = some f := by
    simp [Act.after, hm]
  have hone : [Act.request_path].foldlM (fun f a => Act.after a f) f = some f := by
    simp [Act.after, hm]
  cases x with
  | line =>
    exact .ite ⟨f, hboth, covers_stale f⟩ (.ite ⟨f, hboth, covers_stale f⟩
      (.ite ⟨f, hone, covers_stale f⟩ (ready_fail f)))
  | socket => exact .ite ⟨f, hone, covers_stale f⟩ (ready_fail f)

/-- Inside a path, and in the parts of an authority, the token stays open. -/
theorem ready_pathNext : Ready f (pathNext relaxed x c) :=
  .ite (ready_stay (covers_marked hm)) (.ite (ready_stay (covers_marked hm)) (ready_pathEnd hm x c))

private theorem ready_authorityEnd : Ready f (authorityEnd x c) :=
  .ite (ready_stay (covers_marked hm)) (ready_pathEnd hm x c)

private theorem ready_userinfoNext : Ready f (userinfoNext relaxed x c) :=
  .ite (ready_stay (covers_marked hm)) (.ite (ready_stay (covers_marked hm))
    (.ite (ready_stay (covers_marked hm)) (.ite (ready_stay (covers_marked hm))
      (ready_authorityEnd hm x c))))

private theorem ready_passwordNext : Ready f (passwordNext relaxed x c) :=
  .ite (ready_stay (covers_marked hm)) (.ite (ready_stay (covers_marked hm))
    (.ite (ready_stay (covers_marked hm)) (ready_fail f)))

private theorem ready_hostNext : Ready f (hostNext relaxed x c) :=
  .ite (ready_stay (covers_marked hm)) (.ite (ready_stay (covers_marked hm))
    (.ite (ready_stay (covers_marked hm)) (ready_authorityEnd hm x c)))

theorem ready_literalNext (rest : RegularExpression UInt8) : Ready f (literalNext x rest c) :=
  .ite (ready_stay (covers_marked hm)) (.ite (ready_fail f) (ready_stay (covers_marked hm)))

private theorem ready_fragmentNext : Ready f (fragmentNext relaxed c) :=
  .ite (ready_stay (covers_marked hm)) (.ite (ready_stay (covers_marked hm))
    (.ite ⟨f, by simp [Act.after, hm], covers_stale f⟩ (ready_fail f)))

/-- The first segment of a target. -/
theorem ready_segment (t : Cs × List Act) (ht : Ready f t) :
    Ready f (if segment_nz_nc relaxed c then (.segment_nz_nc x, [])
      else if c == byte '%' then (.pct_encoded (.segment_nz_nc x), []) else t) :=
  .ite (ready_stay (covers_marked hm)) (.ite (ready_stay (covers_marked hm)) ht)

end Target

/-- Inside a query its start is known. -/
theorem ready_queryNext {f : Fresh} (hq : f.query_start = true)
    (relaxed : Bool) (c : UInt8) : Ready f (queryNext relaxed c) := by
  have hopen : f.Covers Cs.query.openTokens := ⟨nofun, nofun, nofun, fun _ => hq⟩
  have hboth : [Act.query_string, Act.request_uri].foldlM
      (fun f a => Act.after a f) f = some f := by
    simp [Act.after, hq]
  exact .ite (ready_stay hopen) (.ite (ready_stay hopen)
    (.ite ⟨f, hboth, covers_stale f⟩ (.ite ⟨f, hboth, covers_stale f⟩ (ready_fail f))))

/-! ## Header fields -/

/-- Inside a field name its start is known. -/
theorem ready_fieldNameNext {f : Fresh} (hf : f.field_start = true)
    (c : UInt8) : Ready f (fieldNameNext c) := by
  have hname : f.Covers Cs.field_name.openTokens := ⟨nofun, fun _ => hf, nofun, nofun⟩
  have hcolon : [Act.write_field].foldlM (fun f a => Act.after a f) f
      = some { f with field_len := true } := by
    simp [Act.after, hf]
  exact .ite (ready_stay hname)
    (.ite ⟨_, hcolon, nofun, fun _ => hf, fun _ => rfl, nofun⟩ (ready_fail f))

/-- The end of a line that hands something on, or another byte. -/
theorem ready_lineBreak {f : Fresh} {c : UInt8} {as : List Act}
    (has : as.foldlM (fun f a => Act.after a f) f = some f) (ht : Ready f t) :
    Ready f (lineBreak c as t) :=
  .ite ⟨f, has, covers_stale f⟩ (.ite ⟨f, has, covers_stale f⟩ ht)

/-! ## Every transition -/

/-- **Every position is noted before it is handed on.** -/
theorem ready_next (relaxed : Bool) {f : Fresh} (h : f.Covers cs.openTokens) (c : UInt8) :
    Ready f (next relaxed cs c) := by
  have hmark {g : Fresh} (hg : g.mark = true) {q : Cs} (hq : q.openTokens = .marked) :
      Ready g (q, []) :=
    ready_stay (hq ▸ covers_marked hg)
  have hfree {q : Cs} (hq : q.openTokens = .stale) : Ready f (q, []) :=
    ready_stay (hq ▸ covers_stale f)
  cases cs with
  | error | socketDone => exact ready_fail f
  | start =>
    exact .ite ⟨_, rfl, covers_marked rfl⟩ (.ite ⟨_, rfl, covers_marked rfl⟩
      (.ite ⟨_, rfl, covers_marked rfl⟩ (ready_fail f)))
  | method n =>
    have hm := h.mark rfl
    exact .ite ⟨f, by simp [Act.after, hm], covers_stale f⟩ (.ite (hmark hm rfl) (ready_fail f))
  | uri =>
    refine Ready.marked (.ite (hmark rfl rfl) ?_)
    exact ready_segment rfl relaxed .line c _ (.ite (hmark rfl rfl) (ready_pathEnd rfl .line c))
  | scheme =>
    have hm := h.mark rfl
    exact .ite (hmark hm rfl) (.ite (hfree rfl)
      (ready_segment hm relaxed .line c _ (ready_authorityEnd hm .line c)))
  | hier_part =>
    exact Ready.marked (.ite (hmark rfl rfl) (ready_pathNext rfl relaxed .line c))
  | segment_nz_nc x =>
    have hm := h.mark rfl
    exact ready_segment hm relaxed x c _ (ready_authorityEnd hm x c)
  | path x => exact ready_pathNext (h.mark rfl) relaxed x c
  | slash x =>
    have hm := h.mark rfl
    exact .ite (hmark hm rfl) (ready_pathNext hm relaxed x c)
  | authority x =>
    have hm := h.mark rfl
    exact .ite (hmark hm rfl) (ready_userinfoNext hm relaxed x c)
  | userinfo x => exact ready_userinfoNext (h.mark rfl) relaxed x c
  | passwordOrPort x =>
    have hm := h.mark rfl
    exact .ite (hmark hm rfl) (.ite (ready_passwordNext hm relaxed x c) (ready_authorityEnd hm x c))
  | password x => exact ready_passwordNext (h.mark rfl) relaxed x c
  | host x =>
    have hm := h.mark rfl
    exact .ite (hmark hm rfl) (ready_hostNext hm relaxed x c)
  | reg_name x => exact ready_hostNext (h.mark rfl) relaxed x c
  | port x =>
    have hm := h.mark rfl
    exact .ite (hmark hm rfl) (ready_authorityEnd hm x c)
  | IP_literal x rest => exact ready_literalNext (h.mark rfl) x c rest
  | closed x =>
    have hm := h.mark rfl
    exact .ite (hmark hm rfl) (ready_authorityEnd hm x c)
  | pct_encoded back => exact .ite (ready_stay h) (ready_fail f)
  | pct_digit back => exact .ite (ready_stay h) (ready_fail f)
  | questionMark => exact Ready.queryMarked (ready_queryNext rfl relaxed c)
  | query => exact ready_queryNext (h.query_start rfl) relaxed c
  | numberSign => exact Ready.marked (ready_fragmentNext rfl relaxed c)
  | fragment => exact ready_fragmentNext (h.mark rfl) relaxed c
  | HTTP_Version => exact .ite ⟨_, rfl, covers_marked rfl⟩ (ready_fail f)
  | versionText left =>
    have hm := h.mark rfl
    rcases left with _ | ⟨x, _ | ⟨y, left⟩⟩
    · exact ready_fail f
    · exact .ite (hmark hm rfl) (ready_fail f)
    · exact .ite (hmark hm rfl) (ready_fail f)
  | versionNumber => exact .ite (hmark (h.mark rfl) rfl) (ready_fail f)
  | versionEnd =>
    have hm := h.mark rfl
    exact ready_lineBreak (by simp [Act.after, hm]) (ready_fail f)
  | lineEnd => exact .ite (hfree rfl) (ready_fail f)
  | header =>
    exact .ite ⟨_, rfl, nofun, fun _ => rfl, nofun, nofun⟩
      (.ite ⟨_, rfl, nofun, fun _ => rfl, nofun, nofun⟩
        (.ite ⟨_, rfl, nofun, fun _ => rfl, nofun, nofun⟩ (ready_fail f)))
  | emptyLine =>
    exact .ite ⟨f, rfl, h⟩ (ready_fieldNameNext (h.field_start rfl) c)
  | field_name => exact ready_fieldNameNext (h.field_start rfl) c
  | colon =>
    -- the name must be there when the value, marked here, is handed on
    have hfs := h.field_start rfl
    have hfl := h.field_len rfl
    refine Ready.marked (ready_lineBreak (by simp [Act.after, hfs, hfl]) (.ite ?_
      (.ite (ready_fail _) ?_)))
    · exact ready_stay ⟨nofun, fun _ => hfs, fun _ => hfl, nofun⟩
    · exact ready_stay ⟨fun _ => rfl, fun _ => hfs, fun _ => hfl, nofun⟩
  | field_value =>
    have hm := h.mark rfl
    have hfs := h.field_start rfl
    have hfl := h.field_len rfl
    exact ready_lineBreak (by simp [Act.after, hm, hfs, hfl]) (.ite (ready_fail f) (ready_stay h))
  | xmlStart => exact .ite (hmark (h.mark rfl) rfl) (ready_fail f)
  | xmlName =>
    have hm := h.mark rfl
    exact .ite (hmark hm rfl) (.ite ⟨f, by simp [Act.after, hm], covers_stale f⟩ (ready_fail f))
  | xmlData => exact .ite (hfree rfl) (hfree rfl)
  | xmlClose =>
    exact .ite ⟨f, rfl, covers_stale f⟩ (.ite (hfree rfl) (hfree rfl))
  | jsonPath =>
    have hm := h.mark rfl
    exact ready_segment hm relaxed .socket c _ (.ite (hmark hm rfl) (ready_pathEnd hm .socket c))
  | jsonStart => exact .ite ⟨_, rfl, covers_stale _⟩ (ready_fail f)
  | jsonData => exact .ite (hfree rfl) (hfree rfl)
  | jsonClose =>
    exact .ite ⟨f, rfl, covers_stale f⟩ (.ite (hfree rfl) (hfree rfl))
  | done => exact ready_fieldNameNext (h.field_start rfl) c

/-! ## Free cuts -/

/-- **A cut where no token is open is free**: it is enough that at each cut no token is open, or
that the scanner has stopped before. -/
theorem tokensWhole_of_closed (relaxed : Bool) (pieces : List (List UInt8))
    (h : ∀ before rest, pieces = before ++ rest → rest ≠ [] →
      (machine relaxed).stopped ((machine relaxed).control before.flatten .start) = true
        ∨ ((machine relaxed).control before.flatten .start).openTokens = .stale) :
    tokensWhole relaxed pieces = true := by
  have hstep : ∀ {q : Cs} {f : Fresh} (c : UInt8), f.Covers q.openTokens →
      ∃ f', ((machine relaxed).next q c).2.foldlM (fun f a => Act.after a f) f = some f'
        ∧ f'.Covers ((machine relaxed).next q c).1.openTokens :=
    fun c hopen => ready_next relaxed hopen c
  refine whole_of_open hstep pieces rfl ?_
  intro before rest hsplit hne
  refine (h before rest hsplit hne).imp_right fun hclosed => ?_
  rw [hclosed]
  exact covers_stale _

/-- **A single read cuts nothing.** -/
theorem tokensWhole_single (relaxed : Bool) (R : List UInt8) : tokensWhole relaxed [R] = true := by
  refine tokensWhole_of_closed relaxed [R] fun before rest hsplit hne => Or.inr ?_
  cases before with
  | nil => rfl
  | cons p before =>
    obtain ⟨-, hnil⟩ := List.cons.inj hsplit
    exact absurd (List.append_eq_nil_iff.mp hnil.symm).2 hne

end SylarHttp
