import Mathlib.Data.List.TakeWhile
import Sylar.StreamProofs

/-! # Fixed-size transfers on a raw buffer (`stream.cc`)

`Stream::readFixSize(buffer, length)` and `writeFixSize(buffer, length)` repeat the
virtual `read` or `write` of the stream on what is left of the buffer.  The result of
the call is an `int`, but the loop keeps it in a `size_t`: its test `len <= 0` sees the end
of the stream (`0`) and takes an error for a huge count, with which `offset` and
`left` then wrap around.

Both loops are one, over any underlying call.  A run of it is described by the calls
it makes.

* **`Runs.shape`** — how a run that returns looks: positive results first, then
  nothing, or one `0`, or an error and what follows from it.
* **`exact_iff`** — the loop transfers exactly, or reports the first result that is
  not positive, unless that result is negative or the length is no `int`.
* **`fix_size_iff`** — the same for `readFixSize` and `writeFixSize`, with the bytes
  they move.
* **`fix_size_socket`** — the loops over a socket are these ones. -/

namespace SylarFixSize

open ListWindow SylarStream List
open SylarBytearray (bind_ok)

variable {σ τ : Type}

/-! ## The code -/

/-- A call of `read` or `write` on `buffer[offset..offset + length)`: its result and the
bytes it moved. -/
structure Call where
  offset : Nat
  length : Nat
  rt : Int
  moved : List UInt8
  deriving DecidableEq, Repr

/-- The underlying call, given `offset` and `length`: its result, the bytes it moved and
the state it leaves. -/
abbrev Underlying (σ : Type) := σ → Nat → Nat → Int × List UInt8 × σ

/-- The loop for at most `fuel` rounds: its calls, what it returns, and the state.  What a call does
to memory outside of the buffer is not described. -/
def fixLoop (call : Underlying σ) (length : Nat) :
    Nat → σ → Nat → Nat → List Call × Option Int × σ
  | 0, st, _, _ => ([], none, st)
  | fuel + 1, st, offset, left =>
    if left = 0 then ([], some (intOf length), st)
    else
      let (rt, moved, st) := call st offset left
      let len := sizeT rt
      if len ≤ 0 then ([⟨offset, left, rt, moved⟩], some (intOf len), st)
      else
        let (calls, r, st) :=
          fixLoop call length fuel st (addSizeT offset len) (subSizeT left len)
        (⟨offset, left, rt, moved⟩ :: calls, r, st)

/-- The call of `readFixSize`: `read(buffer + offset, left)`. -/
def readCall (read : τ → Nat → Int × List UInt8 × τ) : Underlying (List UInt8 × τ) :=
  fun (buffer, st) offset left =>
    let (rt, data, st) := read st left
    (rt, data, (overwrite buffer offset data, st))

/-- The call of `writeFixSize`: `write(buffer + offset, left)`. -/
def writeCall (buffer : List UInt8) (write : τ → List UInt8 → Int × τ) : Underlying τ :=
  fun st offset left =>
    let data := window buffer offset left
    let (rt, st) := write st data
    (rt, data.take rt.toNat, st)

/-- `Stream::readFixSize(buffer, length)`. -/
def readFix (read : τ → Nat → Int × List UInt8 × τ) (fuel : Nat) (buffer : List UInt8)
    (st : τ) : List Call × Option Int × List UInt8 × τ :=
  fixLoop (readCall read) buffer.length fuel (buffer, st) 0 buffer.length

/-- `Stream::writeFixSize(buffer, length)`. -/
def writeFix (write : τ → List UInt8 → Int × τ) (fuel : Nat) (buffer : List UInt8)
    (st : τ) : List Call × Option Int × τ :=
  fixLoop (writeCall buffer write) buffer.length fuel st 0 buffer.length

/-! ## What the underlying call may do -/

/-- A positive count not above what was asked, `0`, or a negative `int`. -/
structure Lawful (call : Underlying σ) (n : Nat) : Prop where
  at_most : ∀ (st : σ) {offset left : Nat}, offset + left ≤ n →
    (call st offset left).1 ≤ left
  counted : ∀ (st : σ) {offset left : Nat}, offset + left ≤ n →
    ((call st offset left).2.1.length : Int) = max (call st offset left).1 0
  is_int : ∀ (st : σ) {offset left : Nat}, offset + left ≤ n →
    -2 ^ 31 ≤ (call st offset left).1

/-- What is assumed of the virtual `read`. -/
structure Reads (read : τ → Nat → Int × List UInt8 × τ) : Prop where
  at_most : ∀ (st : τ) (n : Nat), (read st n).1 ≤ n
  counted : ∀ (st : τ) (n : Nat), ((read st n).2.1.length : Int) = max (read st n).1 0
  is_int : ∀ (st : τ) (n : Nat), -2 ^ 31 ≤ (read st n).1

/-- What is assumed of the virtual `write`. -/
structure Writes (write : τ → List UInt8 → Int × τ) : Prop where
  at_most : ∀ (st : τ) (data : List UInt8), (write st data).1 ≤ data.length
  is_int : ∀ (st : τ) (data : List UInt8), -2 ^ 31 ≤ (write st data).1

variable {read : τ → Nat → Int × List UInt8 × τ} {write : τ → List UInt8 → Int × τ}

theorem Reads.lawful (h : Reads read) (n : Nat) :
    Lawful (readCall read) n where
  at_most _ _ _ _ := h.at_most _ _
  counted _ _ _ _ := h.counted _ _
  is_int _ _ _ _ := h.is_int _ _

theorem Writes.lawful (h : Writes write) (buffer : List UInt8) :
    Lawful (writeCall buffer write) buffer.length where
  at_most st offset left hin := by
    have hle := h.at_most st (window buffer offset left)
    rw [length_window hin] at hle
    exact hle
  counted st offset left hin := by
    have hle := h.at_most st (window buffer offset left)
    have hlen : (window buffer offset left).length = left := length_window hin
    show ((take (write st (window buffer offset left)).1.toNat
      (window buffer offset left)).length : Int) = _
    rw [length_take]
    simp only [writeCall]
    omega
  is_int _ _ _ _ := h.is_int _ _

/-! ## What a transfer is to do -/

/-- Whether a call moved something. -/
def Call.positive (c : Call) : Bool := decide (0 < c.rt)

/-- The bytes the calls moved. -/
def count (calls : List Call) : Nat := (calls.map fun c => c.rt.toNat).sum

/-- The bytes moved before the first result that is not positive. -/
def total (calls : List Call) : Nat := count (calls.takeWhile Call.positive)

/-- What the calls and the returned value have to be. -/
structure Exact (n : Nat) (calls : List Call) (rt : Int) : Prop where
  /-- it returns `n` exactly when the positive counts add up to `n` -/
  complete : rt = n ↔ total calls = n
  /-- otherwise it returns the first result that is not positive -/
  failed : total calls ≠ n →
    ∃ c, (calls.dropWhile Call.positive).head? = some c ∧ rt = c.rt
  /-- every call is given a part of the buffer -/
  inside : ∀ c ∈ calls, c.offset + c.length ≤ n
  /-- at most `n` positive results, -/
  positives : (calls.takeWhile Call.positive).length ≤ n
  /-- and at most one behind them -/
  ends : (calls.dropWhile Call.positive).length ≤ 1

/-- `readFixSize` as it is to be: the bytes read stand in the buffer in order. -/
def ReadsExactly (read : τ → Nat → Int × List UInt8 × τ) (buffer : List UInt8) (st : τ) :
    Prop :=
  ∃ fuel calls rt buffer' st', readFix read fuel buffer st = (calls, some rt, buffer', st')
    ∧ Exact buffer.length calls rt
    ∧ (total calls = buffer.length → buffer' = calls.flatMap Call.moved)

/-- `writeFixSize` as it is to be: the bytes of the buffer are written in order. -/
def WritesExactly (write : τ → List UInt8 → Int × τ) (buffer : List UInt8) (st : τ) : Prop :=
  ∃ fuel calls rt st', writeFix write fuel buffer st = (calls, some rt, st')
    ∧ Exact buffer.length calls rt
    ∧ (total calls = buffer.length → calls.flatMap Call.moved = buffer)

/-- The first result that is not positive, and the number of bytes moved before it; `none` if
everything is moved. -/
def firstFailure (call : Underlying σ) : Nat → σ → Nat → Nat → Nat → Option (Nat × Int)
  | 0, _, _, _, _ => none
  | fuel + 1, st, got, offset, left =>
    if left = 0 then none
    else
      let (rt, _, st) := call st offset left
      if rt ≤ 0 then some (got, rt)
      else firstFailure call fuel st (got + rt.toNat) (offset + rt.toNat) (left - rt.toNat)

/-- When the loop does what it is to do: the counts add up and the length is an `int`; or the stream
ends before; or the very first result is an error that makes `left` wrap around to `0`. -/
def Tolerable (n : Nat) : Option (Nat × Int) → Prop
  | none => n < 2 ^ 31
  | some (got, rt) => rt = 0 ∨ (got = 0 ∧ (n : Int) = 2 ^ 64 + rt)

/-- The underlying call answers so. -/
def Served (call : Underlying σ) (n : Nat) (st : σ) : Prop :=
  Tolerable n (firstFailure call n st 0 0 n)

/-! ## One round -/

variable {rt r : Int} {calls : List Call} {got : Nat} {f : Option (Nat × Int)} {c : Call}
  {buffer : List UInt8}

theorem sizeT_of_neg (hneg : rt < 0) (hint : -2 ^ 31 ≤ rt) : (sizeT rt : Int) = 2 ^ 64 + rt := by
  rw [sizeT]
  omega

private theorem sizeT_pos (hpos : 0 < rt) (hlt : rt < 2 ^ 64) : sizeT rt = rt.toNat := by
  rw [sizeT]
  omega

section Round

variable {call : Underlying σ} {n fuel offset left : Nat} {st st₁ st' : σ} {moved : List UInt8}

/-- A run of the loop that returns, call by call. -/
inductive Runs (call : Underlying σ) (n : Nat) : σ → Nat → Nat → List Call → Int → σ → Prop
  | done (st : σ) (offset : Nat) : Runs call n st offset 0 [] (intOf n) st
  | stop {st st' : σ} {offset left : Nat} {rt : Int} {moved : List UInt8} (hleft : left ≠ 0)
      (hcall : call st offset left = (rt, moved, st')) (hstop : sizeT rt = 0) :
      Runs call n st offset left [⟨offset, left, rt, moved⟩] 0 st'
  | next {st st₁ st' : σ} {offset left : Nat} {rt r : Int} {moved : List UInt8}
      {calls : List Call} (hleft : left ≠ 0) (hcall : call st offset left = (rt, moved, st₁))
      (hgo : sizeT rt ≠ 0)
      (hrest : Runs call n st₁ (addSizeT offset (sizeT rt)) (subSizeT left (sizeT rt)) calls r
        st') : Runs call n st offset left (⟨offset, left, rt, moved⟩ :: calls) r st'

theorem runs_of_fixLoop (h : fixLoop call n fuel st offset left = (calls, some r, st')) :
    Runs call n st offset left calls r st' := by
  induction fuel generalizing st offset left calls with
  | zero => cases h
  | succ fuel ih =>
    by_cases hleft : left = 0
    · subst hleft
      rw [fixLoop, if_pos rfl] at h
      cases h
      exact .done st' offset
    · rcases hcall : call st offset left with ⟨rt, moved, st₁⟩
      rw [fixLoop, if_neg hleft, hcall] at h
      dsimp only at h
      by_cases hstop : sizeT rt = 0
      · rw [hstop, if_pos (Nat.le_refl 0)] at h
        cases h
        exact .stop hleft hcall hstop
      · rcases hrun : fixLoop call n fuel st₁ (addSizeT offset (sizeT rt))
          (subSizeT left (sizeT rt)) with ⟨calls', r', st''⟩
        rw [if_neg (by omega), hrun] at h
        cases h
        exact .next hleft hcall hstop (ih hrun)

/-- A run needs one round for each of its calls, and one to return. -/
theorem Runs.fixLoop_eq (h : Runs call n st offset left calls r st') (hfuel : calls.length < fuel) :
    fixLoop call n fuel st offset left = (calls, some r, st') := by
  induction h generalizing fuel with
  | done st offset =>
    obtain ⟨fuel, rfl⟩ := Nat.exists_eq_succ_of_ne_zero (Nat.ne_zero_of_lt hfuel)
    rw [fixLoop, if_pos rfl]
  | stop hleft hcall hstop =>
    obtain ⟨fuel, rfl⟩ := Nat.exists_eq_succ_of_ne_zero (Nat.ne_zero_of_lt hfuel)
    rw [fixLoop, if_neg hleft, hcall]
    dsimp only
    rw [hstop, if_pos (Nat.le_refl 0)]
    rfl
  | next hleft hcall hgo _ ih =>
    obtain ⟨fuel, rfl⟩ := Nat.exists_eq_succ_of_ne_zero (Nat.ne_zero_of_lt hfuel)
    rw [fixLoop, if_neg hleft, hcall]
    dsimp only
    rw [if_neg (by omega), ih (Nat.lt_of_succ_lt_succ hfuel)]

/-- What a call on all that is left answers. -/
theorem Lawful.answer (hlaw : Lawful call n) (hsum : offset + left = n)
    (hcall : call st offset left = (rt, moved, st₁)) : rt ≤ left ∧ -2 ^ 31 ≤ rt := by
  have hle := hlaw.at_most st (Nat.le_of_eq hsum)
  have hint := hlaw.is_int st (Nat.le_of_eq hsum)
  rw [hcall] at hle hint
  exact ⟨hle, hint⟩

/-- The counters after a positive result. -/
theorem positive_counters (hn : n < 2 ^ 64) (hsum : offset + left = n) (hle : rt ≤ left)
    (hpos : 0 < rt) :
    sizeT rt ≠ 0 ∧ addSizeT offset (sizeT rt) = offset + rt.toNat
      ∧ subSizeT left (sizeT rt) = left - rt.toNat := by
  rw [sizeT_pos hpos (by omega)]
  exact ⟨by omega, addSizeT_of_lt (by omega), subSizeT_of_le (by omega) (by omega)⟩

theorem firstFailure_positive (hleft : left ≠ 0)
    (hcall : call st offset left = (rt, moved, st₁)) (hpos : 0 < rt) :
    firstFailure call (fuel + 1) st got offset left
      = firstFailure call fuel st₁ (got + rt.toNat) (offset + rt.toNat) (left - rt.toNat) := by
  rw [firstFailure, if_neg hleft, hcall]
  dsimp only
  rw [if_neg (by omega)]

theorem firstFailure_failed (hleft : left ≠ 0)
    (hcall : call st offset left = (rt, moved, st₁)) (hneg : rt ≤ 0) :
    firstFailure call (fuel + 1) st got offset left = some (got, rt) := by
  rw [firstFailure, if_neg hleft, hcall]
  dsimp only
  rw [if_pos hneg]

/-- The bytes counted before a failure include those counted at the start. -/
theorem le_of_firstFailure {f : Nat × Int}
    (h : firstFailure call fuel st got offset left = some f) : got ≤ f.1 := by
  induction fuel generalizing got offset left st with
  | zero => cases h
  | succ fuel ih =>
    by_cases hleft : left = 0
    · rw [firstFailure, if_pos hleft] at h
      cases h
    · rcases hcall : call st offset left with ⟨rt, moved, st₁⟩
      by_cases hpos : 0 < rt
      · rw [firstFailure_positive hleft hcall hpos] at h
        have := ih h
        omega
      · rw [firstFailure_failed hleft hcall (by omega)] at h
        cases h
        exact Nat.le_refl _

end Round

/-! ## How a run looks -/

@[simp] theorem count_cons (c : Call) (calls : List Call) :
    count (c :: calls) = c.rt.toNat + count calls := by
  rw [count, map_cons, sum_cons, count]

/-- Calls that moved something, each on all that was left. -/
structure Moving (n : Nat) (calls : List Call) : Prop where
  positive : ∀ c ∈ calls, 0 < c.rt
  inside : ∀ c ∈ calls, c.offset + c.length = n
  few : calls.length ≤ count calls

theorem Moving.nil (n : Nat) : Moving n [] where
  positive _ hc := nomatch hc
  inside _ hc := nomatch hc
  few := Nat.le_refl _

theorem Moving.cons {n : Nat} (h : Moving n calls) (hpos : 0 < c.rt)
    (hin : c.offset + c.length = n) : Moving n (c :: calls) where
  positive := forall_mem_cons.mpr ⟨hpos, h.positive⟩
  inside := forall_mem_cons.mpr ⟨hin, h.inside⟩
  few := by
    have := h.few
    rw [count_cons, length_cons]
    omega

/-- Everything is moved, or a call `c` moves nothing; an error ends the run only if `left` has
become `0` by it. -/
inductive Shape (n left got : Nat) :
    List Call → Int → Option (Nat × Int) → Prop
  | complete {calls : List Call} (hmoving : Moving n calls) (hall : count calls = left) :
      Shape n left got calls (intOf n) none
  | ended {calls : List Call} {c : Call} (hmoving : Moving n calls)
      (hleft : count calls + c.length = left) (hpos : c.length ≠ 0)
      (hin : c.offset + c.length = n) (hzero : c.rt = 0) :
      Shape n left got (calls ++ [c]) 0 (some (got + count calls, c.rt))
  | error {calls : List Call} {c : Call} {rest : List Call} {r : Int}
      (hmoving : Moving n calls) (hleft : count calls + c.length = left)
      (hpos : c.length ≠ 0) (hin : c.offset + c.length = n) (hneg : c.rt < 0)
      (hint : -2 ^ 31 ≤ c.rt) (hrest : rest = [] ↔ (c.length : Int) = 2 ^ 64 + c.rt)
      (hr : rest = [] → r = intOf n) :
      Shape n left got (calls ++ c :: rest) r (some (got + count calls, c.rt))

/-- One more call in front that moved something. -/
theorem Shape.cons {n left : Nat} (hpos : 0 < c.rt) (hin : c.offset + c.length = n)
    (hle : c.rt ≤ left) (h : Shape n (left - c.rt.toNat) (got + c.rt.toNat) calls r f) :
    Shape n left got (c :: calls) r f := by
  cases h with
  | complete hmoving hall =>
    refine .complete (hmoving.cons hpos hin) ?_
    rw [count_cons, hall]
    omega
  | @ended calls d hmoving hleft hd hdin hzero =>
    rw [Nat.add_assoc, ← count_cons]
    refine .ended (hmoving.cons hpos hin) ?_ hd hdin hzero
    rw [count_cons]
    omega
  | @error calls d rest r hmoving hleft hd hdin hneg hint hrest hr =>
    rw [Nat.add_assoc, ← count_cons]
    refine .error (hmoving.cons hpos hin) ?_ hd hdin hneg hint hrest hr
    rw [count_cons]
    omega

section Run

variable {call : Underlying σ} {n offset left : Nat} {st st' : σ}

/-- A run makes no call exactly when there is nothing left to do. -/
theorem Runs.no_call (h : Runs call n st offset left calls r st') :
    (calls = [] ↔ left = 0) ∧ (calls = [] → r = intOf n) := by
  cases h with
  | done => exact ⟨iff_of_true rfl rfl, fun _ => rfl⟩
  | stop hleft | next hleft => exact ⟨iff_of_false (by simp) hleft, fun h => nomatch h⟩

variable (hlaw : Lawful call n) (hn : n < 2 ^ 64)
include hlaw hn

/-- **A run that returns**, from any place in the buffer. -/
theorem Runs.shape (h : Runs call n st offset left calls r st') (got : Nat) {bound : Nat}
    (hsum : offset + left = n) (hbound : left ≤ bound) :
    Shape n left got calls r (firstFailure call bound st got offset left) := by
  induction h generalizing got bound with
  | done st offset =>
    have hnone : firstFailure call bound st got offset 0 = none := by
      cases bound with
      | zero => rfl
      | succ bound => rw [firstFailure, if_pos rfl]
    rw [hnone]
    exact .complete (Moving.nil n) rfl
  | @stop st st' offset left rt moved hleft hcall hstop =>
    obtain ⟨bound, rfl⟩ := Nat.exists_eq_succ_of_ne_zero (by omega : bound ≠ 0)
    obtain ⟨hle, hint⟩ := hlaw.answer hsum hcall
    have hzero : rt = 0 := by
      rw [sizeT] at hstop
      omega
    rw [firstFailure_failed hleft hcall (Int.le_of_eq hzero)]
    exact Shape.ended (Moving.nil n) (Nat.zero_add _) hleft hsum hzero
  | @next st st₁ st' offset left rt r moved calls hleft hcall hgo hrest ih =>
    obtain ⟨bound, rfl⟩ := Nat.exists_eq_succ_of_ne_zero (by omega : bound ≠ 0)
    obtain ⟨hle, hint⟩ := hlaw.answer hsum hcall
    by_cases hpos : 0 < rt
    · obtain ⟨-, hadd, hsub⟩ := positive_counters hn hsum hle hpos
      rw [hadd, hsub] at ih
      rw [firstFailure_positive hleft hcall hpos]
      exact Shape.cons hpos hsum hle (ih _ (by omega) (by omega))
    · have hne : rt ≠ 0 := by
        rintro rfl
        exact hgo rfl
      have hneg : rt < 0 := by omega
      have hsize := sizeT_of_neg hneg hint
      rw [firstFailure_failed hleft hcall (by omega)]
      -- no further call exactly if `left` has wrapped around to 0
      obtain ⟨hwrap, hr⟩ := hrest.no_call
      have hback : subSizeT left (sizeT rt) = 0 ↔ (left : Int) = 2 ^ 64 + rt := by
        rw [subSizeT]
        omega
      exact Shape.error (Moving.nil n) (Nat.zero_add _) hleft hsum hneg hint (hwrap.trans hback) hr

/-- A run over the whole buffer. -/
theorem fixLoop_shape {fuel : Nat} (h : fixLoop call n fuel st 0 n = (calls, some r, st')) :
    Shape n n 0 calls r (firstFailure call n st 0 0 n) :=
  (runs_of_fixLoop h).shape hlaw hn 0 (Nat.zero_add n) (Nat.le_refl n)

/-- A loop that meets no error returns. -/
theorem exists_runs (bound got : Nat) (st : σ) (hsum : offset + left = n) (hbound : left ≤ bound)
    (hfail : ∀ f ∈ firstFailure call bound st got offset left, f.2 = 0) :
    ∃ calls r st', Runs call n st offset left calls r st' := by
  induction bound generalizing got offset left st with
  | zero =>
    obtain rfl : left = 0 := by omega
    exact ⟨_, _, _, .done st offset⟩
  | succ bound ih =>
    by_cases hleft : left = 0
    · subst hleft
      exact ⟨_, _, _, .done st offset⟩
    · rcases hcall : call st offset left with ⟨rt, moved, st₁⟩
      by_cases hpos : 0 < rt
      · have hle := (hlaw.answer hsum hcall).1
        obtain ⟨hgo, hadd, hsub⟩ := positive_counters hn hsum hle hpos
        rw [firstFailure_positive hleft hcall hpos] at hfail
        obtain ⟨calls, r, st', hrun⟩ := ih _ _ (by omega) (by omega) hfail
        rw [← hadd, ← hsub] at hrun
        exact ⟨_, _, _, .next hleft hcall hgo hrun⟩
      · rw [firstFailure_failed hleft hcall (by omega)] at hfail
        obtain rfl : rt = 0 := hfail _ rfl
        exact ⟨_, _, _, .stop hleft hcall rfl⟩

/-- **INVARIANT RULE**: what every call that moves something keeps holds at the end of a complete
run. -/
theorem Runs.carries {I : σ → Nat → List UInt8 → Prop}
    (hstep : ∀ {st : σ} {offset left : Nat} {m : List UInt8}, offset + left = n →
      I st offset m → 0 < (call st offset left).1 →
      I (call st offset left).2.2 (offset + (call st offset left).1.toNat)
        (m ++ (call st offset left).2.1))
    (h : Runs call n st offset left calls r st') {m : List UInt8} (hsum : offset + left = n)
    (hI : I st offset m) (hcalls : ∀ c ∈ calls, 0 < c.rt) :
    I st' n (m ++ calls.flatMap Call.moved) := by
  induction h generalizing m with
  | done =>
    rw [flatMap_nil, append_nil, ← hsum]
    exact hI
  | stop _ hcall hstop =>
    obtain ⟨hpos, -⟩ := forall_mem_cons.mp hcalls
    exact absurd hstop (positive_counters hn hsum (hlaw.answer hsum hcall).1 hpos).1
  | @next _ _ _ offset left rt _ _ _ _ hcall _ _ ih =>
    obtain ⟨hpos, hrest⟩ := forall_mem_cons.mp hcalls
    have hle := (hlaw.answer hsum hcall).1
    obtain ⟨-, hadd, hsub⟩ := positive_counters hn hsum hle hpos
    have hnext := hstep hsum hI
    rw [hcall] at hnext
    rw [hadd, hsub] at ih
    rw [flatMap_cons, ← append_assoc]
    exact ih (show offset + rt.toNat + (left - rt.toNat) = n by omega) (hnext hpos) hrest

end Run

/-! ## Exact transfers -/

theorem Moving.takeWhile {n : Nat} (h : Moving n calls) (rest : List Call) :
    (calls ++ rest).takeWhile Call.positive = calls ++ rest.takeWhile Call.positive :=
  takeWhile_append_of_pos fun c hc => decide_eq_true (h.positive c hc)

theorem Moving.dropWhile {n : Nat} (h : Moving n calls) (rest : List Call) :
    (calls ++ rest).dropWhile Call.positive = rest.dropWhile Call.positive :=
  dropWhile_append_of_pos fun c hc => decide_eq_true (h.positive c hc)

/-- The calls up to one that moves nothing. -/
theorem Moving.split {n : Nat} (h : Moving n calls) (hc : c.rt ≤ 0) (rest : List Call) :
    (calls ++ c :: rest).takeWhile Call.positive = calls
      ∧ (calls ++ c :: rest).dropWhile Call.positive = c :: rest := by
  have hneg : ¬ c.positive = true := by
    rw [Call.positive, decide_eq_true_iff]
    omega
  rw [h.takeWhile, h.dropWhile, takeWhile_cons_of_neg hneg, dropWhile_cons_of_neg hneg, append_nil]
  exact ⟨rfl, rfl⟩

theorem Moving.inside_snoc {n : Nat} (h : Moving n calls) (hc : c.offset + c.length = n) :
    ∀ d ∈ calls ++ [c], d.offset + d.length ≤ n := by
  intro d hd
  rcases mem_append.mp hd with hd | hd
  · exact Nat.le_of_eq (h.inside d hd)
  · rw [mem_singleton.mp hd]
    exact Nat.le_of_eq hc

private theorem intOf_lt (n : Nat) : intOf n < 2 ^ 31 := Int32.toInt_lt _

/-- The `int` that a `size_t` just below `2^64` becomes. -/
theorem intOf_wrapped {n : Nat} (h : (n : Int) = 2 ^ 64 + rt) (hneg : rt < 0) (hint : -2 ^ 31 ≤ rt)
    :
    intOf n = rt := by
  have hsize : Int32.size = 2 ^ 32 := rfl
  rw [intOf, Int32.toInt_ofNat', h, Int.bmod, hsize]
  omega

/-- When the transfer of a given shape is exact. -/
theorem Shape.exact_iff {n : Nat} (hn : n < 2 ^ 64) (h : Shape n n 0 calls r f) :
    Exact n calls r ↔ Tolerable n f := by
  cases h with
  | complete hmoving hall =>
    have htake := hmoving.takeWhile []
    have hdrop := hmoving.dropWhile []
    rw [append_nil, takeWhile_nil, append_nil] at htake
    rw [append_nil, dropWhile_nil] at hdrop
    have htotal : total calls = n := by rw [total, htake, hall]
    constructor
    · intro h
      have hint := h.complete.mpr htotal
      have hlt := intOf_lt n
      show n < 2 ^ 31
      omega
    · intro hlt
      have hfew := hmoving.few
      refine ⟨iff_of_true (intOf_of_lt hlt) htotal, fun hne => absurd htotal hne,
        fun c hc => Nat.le_of_eq (hmoving.inside c hc), ?_, ?_⟩
      · rw [htake]
        omega
      · rw [hdrop]
        exact Nat.zero_le _
  | @ended calls c hmoving hleft hpos hin hzero =>
    obtain ⟨htake, hdrop⟩ := hmoving.split (Int.le_of_eq hzero) []
    have htotal : total (calls ++ [c]) = count calls := by rw [total, htake]
    have hfew := hmoving.few
    refine iff_of_true ⟨iff_of_false (by omega) (by omega), ?_, hmoving.inside_snoc hin,
      ?_, ?_⟩ (Or.inl hzero)
    · intro _
      rw [hdrop]
      exact ⟨c, rfl, hzero.symm⟩
    · rw [htake]
      omega
    · rw [hdrop]
      exact Nat.le_refl _
  | @error calls c rest r hmoving hleft hpos hin hneg hint hrest hr =>
    obtain ⟨htake, hdrop⟩ := hmoving.split (Int.le_of_lt hneg) rest
    have htotal : total (calls ++ c :: rest) = count calls := by rw [total, htake]
    have hfew := hmoving.few
    constructor
    · intro h
      have hends := h.ends
      obtain ⟨d, hd, hrd⟩ := h.failed (by omega)
      rw [hdrop, length_cons] at hends
      rw [hdrop, head?_cons] at hd
      cases hd
      have hnil : rest = [] := length_eq_zero_iff.mp (by omega)
      have hlen := hrest.mp hnil
      -- `n` is `count` above the wrapped error, so the returned `int` is, too
      have hwrapped : intOf n = c.rt + count calls := intOf_wrapped (by omega) (by omega) (by omega)
      rw [hr hnil, hwrapped] at hrd
      right
      constructor <;> omega
    · rintro (hzero | ⟨hnone, hlen⟩)
      · omega
      · have hnil : rest = [] := hrest.mpr (by omega)
        have hret : r = c.rt := by rw [hr hnil, intOf_wrapped hlen hneg hint]
        subst hnil
        refine ⟨iff_of_false (by omega) (by omega), ?_, hmoving.inside_snoc hin, ?_, ?_⟩
        · intro _
          rw [hdrop]
          exact ⟨c, rfl, hret⟩
        · rw [htake]
          omega
        · rw [hdrop]
          exact Nat.le_refl _

/-- A run that moves everything has no other calls. -/
theorem Shape.positive_of_total {n : Nat} (h : Shape n n 0 calls r f) (htotal : total calls = n) :
    ∀ c ∈ calls, 0 < c.rt := by
  cases h with
  | complete hmoving _ => exact hmoving.positive
  | @ended calls c hmoving hleft hpos hin hzero =>
    rw [total, (hmoving.split (Int.le_of_eq hzero) []).1] at htotal
    omega
  | @error calls c rest r hmoving hleft hpos hin hneg hint hrest hr =>
    rw [total, (hmoving.split (Int.le_of_lt hneg) rest).1] at htotal
    omega

section Exact

variable {call : Underlying σ} {n : Nat}

/-- An error at once that makes `left` wrap around to `0` ends the loop. -/
theorem runs_wrapped (hlaw : Lawful call n) (hn : n < 2 ^ 64) {st : σ}
    (hf : firstFailure call n st 0 0 n = some (0, rt)) (hlen : (n : Int) = 2 ^ 64 + rt) :
    ∃ calls r st', Runs call n st 0 n calls r st' := by
  by_cases h0 : n = 0
  · subst h0
    cases hf
  obtain ⟨m, hm⟩ := Nat.exists_eq_succ_of_ne_zero h0
  have hstart : firstFailure call n st 0 0 n = firstFailure call (m + 1) st 0 0 n :=
    congrArg (fun bound => firstFailure call bound st 0 0 n) hm
  rw [hstart] at hf
  rcases hcall : call st 0 n with ⟨rt', moved, st₁⟩
  have hnot : ¬ 0 < rt' := by
    intro hpos
    rw [firstFailure_positive h0 hcall hpos] at hf
    have := le_of_firstFailure hf
    omega
  rw [firstFailure_failed h0 hcall (by omega)] at hf
  cases hf
  have hneg : rt < 0 := by omega
  have hsize := sizeT_of_neg hneg (hlaw.answer (Nat.zero_add n) hcall).2
  have hwrap : subSizeT n (sizeT rt) = 0 := by
    rw [subSizeT]
    omega
  exact ⟨_, _, _, .next h0 hcall (by omega) (hwrap ▸ Runs.done ..)⟩

/-- **The loop is exact** for the results that `Served` names, and for no others. -/
theorem exact_iff (hlaw : Lawful call n) (hn : n < 2 ^ 64) (st : σ) :
    (∃ fuel calls r st', fixLoop call n fuel st 0 n = (calls, some r, st')
      ∧ Exact n calls r) ↔ Served call n st := by
  constructor
  · rintro ⟨fuel, calls, r, st', hrun, hexact⟩
    exact ((fixLoop_shape hlaw hn hrun).exact_iff hn).mp hexact
  · intro h
    have hrun : ∃ calls r st', Runs call n st 0 n calls r st' := by
      rw [Served] at h
      cases hf : firstFailure call n st 0 0 n with
      | none =>
        exact exists_runs hlaw hn n 0 st (Nat.zero_add n) (Nat.le_refl n)
          (by rw [hf]; exact fun f hf => nomatch hf)
      | some f =>
        rw [hf] at h
        rcases h with hzero | ⟨hgot, hlen⟩
        · refine exists_runs hlaw hn n 0 st (Nat.zero_add n) (Nat.le_refl n) ?_
          rw [hf]
          rintro _ ⟨⟩
          exact hzero
        · exact runs_wrapped hlaw hn (hf.trans (by rw [← hgot])) hlen
    obtain ⟨calls, r, st', hrun⟩ := hrun
    have hloop := hrun.fixLoop_eq (Nat.lt_succ_self _)
    exact ⟨_, calls, r, st', hloop, ((fixLoop_shape hlaw hn hloop).exact_iff hn).mpr h⟩

end Exact

/-! ## `readFixSize` and `writeFixSize` -/

/-- `readFixSize`: the buffer holds what has been read up to the offset. -/
theorem readsExactly_iff (hread : Reads read) (hn : buffer.length < 2 ^ 64) (st : τ) :
    ReadsExactly read buffer st ↔ Served (readCall read) buffer.length (buffer, st) := by
  have hlaw := hread.lawful buffer.length
  rw [← exact_iff hlaw hn]
  constructor
  · rintro ⟨fuel, calls, rt, buffer', st', hrun, hexact, -⟩
    exact ⟨fuel, calls, rt, (buffer', st'), hrun, hexact⟩
  · rintro ⟨fuel, calls, rt, ⟨buffer', st'⟩, hrun, hexact⟩
    refine ⟨fuel, calls, rt, buffer', st', hrun, hexact, fun htotal => ?_⟩
    have hpos := (fixLoop_shape hlaw hn hrun).positive_of_total htotal
    have hcarried := Runs.carries hlaw hn
      (I := fun s offset m => s.1.length = buffer.length ∧ s.1.take offset = m) ?_
      (runs_of_fixLoop hrun) (Nat.zero_add _) ⟨rfl, rfl⟩ hpos
    · obtain ⟨hlen, htake⟩ := hcarried
      rw [← hlen, take_length] at htake
      exact htake
    · rintro ⟨b, s⟩ offset left m hsum ⟨hlen, rfl⟩ hpos
      change b.length = buffer.length at hlen
      change 0 < (read s left).1 at hpos
      have hle := hread.at_most s left
      have hcount := hread.counted s left
      have hmoved : (read s left).1.toNat = (read s left).2.1.length := by omega
      refine ⟨?_, ?_⟩
      · show (overwrite b offset (read s left).2.1).length = buffer.length
        rw [length_overwrite (by omega), hlen]
      · show (overwrite b offset (read s left).2.1).take (offset + (read s left).1.toNat) = _
        rw [hmoved, take_add_overwrite _ (by omega)]
        rfl

/-- `writeFixSize`: what has been written is the buffer up to the offset. -/
theorem writesExactly_iff (hwrite : Writes write) (hn : buffer.length < 2 ^ 64) (st : τ) :
    WritesExactly write buffer st ↔ Served (writeCall buffer write) buffer.length st := by
  have hlaw := hwrite.lawful buffer
  rw [← exact_iff hlaw hn]
  constructor
  · rintro ⟨fuel, calls, rt, st', hrun, hexact, -⟩
    exact ⟨fuel, calls, rt, st', hrun, hexact⟩
  · rintro ⟨fuel, calls, rt, st', hrun, hexact⟩
    refine ⟨fuel, calls, rt, st', hrun, hexact, fun htotal => ?_⟩
    have hpos := (fixLoop_shape hlaw hn hrun).positive_of_total htotal
    have hcarried := Runs.carries hlaw hn (I := fun _ offset m => buffer.take offset = m)
      ?_ (runs_of_fixLoop hrun) (Nat.zero_add _) rfl hpos
    · rw [take_length] at hcarried
      exact hcarried.symm
    · rintro s offset left m hsum rfl _
      have hle : (write s (window buffer offset left)).1 ≤ left :=
        hlaw.at_most s (Nat.le_of_eq hsum)
      rw [take_add]
      congr 1
      show _ = ((buffer.drop offset).take left).take (write s (window buffer offset left)).1.toNat
      rw [take_take, Nat.min_eq_left (by omega)]
      rfl

/-- **`readFixSize` and `writeFixSize` on a raw buffer**, over any underlying `read` and
`write`. -/
theorem fix_size_iff {ρ : Type} {read : τ → Nat → Int × List UInt8 × τ}
    {write : ρ → List UInt8 → Int × ρ} (hread : Reads read) (hwrite : Writes write)
    {buffer : List UInt8} (hn : buffer.length < 2 ^ 64) (st : τ) (st' : ρ) :
    (ReadsExactly read buffer st ↔ Served (readCall read) buffer.length (buffer, st))
      ∧ (WritesExactly write buffer st' ↔ Served (writeCall buffer write) buffer.length st') :=
  ⟨readsExactly_iff hread hn st, writesExactly_iff hwrite hn st'⟩

/-- A peer that has (or takes) `k` bytes, one at a time. -/
def trickle (k n : Nat) : Int × List UInt8 × Nat :=
  if k = 0 ∨ n = 0 then (0, [], k) else (1, [7], k - 1)

theorem reads_trickle : Reads trickle := by
  have hcases : ∀ k n, trickle k n = (0, [], k) ∨ (0 < n ∧ trickle k n = (1, [7], k - 1)) := by
    intro k n
    rw [trickle]
    split
    · exact Or.inl rfl
    · exact Or.inr ⟨by omega, rfl⟩
  refine ⟨fun k n => ?_, fun k n => ?_, fun k n => ?_⟩
  · rcases hcases k n with h | ⟨hn, h⟩ <;> rw [h]
    · exact Int.natCast_nonneg n
    · show (1 : Int) ≤ n
      omega
  · rcases hcases k n with h | ⟨-, h⟩ <;> rw [h] <;> rfl
  · rcases hcases k n with h | ⟨-, h⟩ <;> rw [h]
    · show (-2 ^ 31 : Int) ≤ 0
      decide
    · show (-2 ^ 31 : Int) ≤ 1
      decide

/-- The same peer, written to. -/
def trickleOut (k : Nat) (data : List UInt8) : Int × Nat :=
  let (rt, _, k) := trickle k data.length
  (rt, k)

theorem writes_trickleOut : Writes trickleOut := ⟨fun k data => reads_trickle.at_most k data.length,
    fun k data => reads_trickle.is_int k data.length⟩

/-- Three of five bytes are read; two of three are written, then the stream ends. -/
theorem fix_size_iff_trickle :
    ReadsExactly trickle [0, 0, 0] 5 ∧ WritesExactly trickleOut [1, 2, 3] 2 := by
  have hread : ([0, 0, 0] : List UInt8).length < 2 ^ 64 := by decide
  have hwrite : ([1, 2, 3] : List UInt8).length < 2 ^ 64 := by decide
  have h := fix_size_iff reads_trickle writes_trickleOut hread 5 2
  have h' := fix_size_iff reads_trickle writes_trickleOut hwrite 5 2
  refine ⟨h.1.mpr ?_, h'.2.mpr ?_⟩
  · show 3 < 2 ^ 31
    decide
  · exact Or.inl rfl

/-- A peer whose first answer is an error; then the stream has ended. -/
def reset (first : Bool) (_ : Nat) : Int × List UInt8 × Bool :=
  (if first then -1 else 0, [], false)

theorem reads_reset : Reads reset := by
  refine ⟨fun first n => ?_, fun first n => ?_, fun first n => ?_⟩
  · cases first <;> simp only [reset] <;> omega
  · cases first <;> rfl
  · cases first <;> simp [reset]

/-- **A failed `read` is called again**, one byte in front of the buffer and for one byte too many;
the error is not returned. -/
theorem error_is_retried : readFix reset 3 [0, 0, 0, 0] true
        = ([⟨0, 4, -1, []⟩, ⟨2 ^ 64 - 1, 5, 0, []⟩], some 0, [0, 0, 0, 0], false)
      ∧ ¬ ReadsExactly reset [0, 0, 0, 0] true := by
  refine ⟨by decide, fun h => ?_⟩
  rcases (readsExactly_iff reads_reset (by decide) true).mp h with h | ⟨-, h⟩
  · exact absurd h (by decide)
  · exact absurd h (by decide)

/-! ## Sockets -/

/-- `SocketStream::read(buffer, length)`. -/
def socketRead (t : Transport) (n : Nat) : Int × List UInt8 × Transport :=
  if t.connected = false then (-1, [], t) else t.recv n

/-- `SocketStream::write(buffer, length)`. -/
def socketWrite (t : Transport) (data : List UInt8) : Int × Transport :=
  if t.connected = false then (-1, t) else t.send data

theorem socketRead_length (t : Transport) (n : Nat) : (socketRead t n).2.1.length ≤ n := by
  rw [socketRead]
  split
  · exact Nat.zero_le _
  · rw [Transport.recv]
    split
    · exact Nat.zero_le _
    · exact Nat.zero_le _
    · split
      · assumption
      · rw [length_take]
        omega

theorem readRaw_inside {offset left : Nat} (hin : offset + left ≤ buffer.length) (t : Transport) :
    readRaw buffer offset left t
      = .ok ((socketRead t left).1, overwrite buffer offset (socketRead t left).2.1)
        (socketRead t left).2.2 := by
  rw [readRaw, if_neg (by omega), socketRead]
  split
  · rw [overwrite_nil]
  · rfl

theorem writeRaw_inside {offset left : Nat} (hin : offset + left ≤ buffer.length) (t : Transport) :
    writeRaw buffer offset left t = .ok (socketWrite t (window buffer offset left)).1
        (socketWrite t (window buffer offset left)).2 := by
  rw [writeRaw, if_neg (by omega), socketWrite]
  split <;> rfl

/-- A loop that makes the calls of a run, all inside the first `m` bytes, returns what the
run says. -/
theorem Runs.refined {ρ : Type} {m : Nat} {I : σ → Prop} {F : Nat → σ → Nat → Nat → ρ}
    {D : Int → σ → ρ} (hdone : ∀ {fuel st offset}, F (fuel + 1) st offset 0 = D (intOf n) st)
    (hstep : ∀ {fuel st offset left}, I st → left ≠ 0 → offset + left ≤ m →
      I (call st offset left).2.2 ∧ F (fuel + 1) st offset left
        = if sizeT (call st offset left).1 ≤ 0 then D 0 (call st offset left).2.2
          else F fuel (call st offset left).2.2 (addSizeT offset (sizeT (call st offset left).1))
            (subSizeT left (sizeT (call st offset left).1)))
    (h : Runs call n st offset left calls r st') (hst : I st)
    (hin : ∀ c ∈ calls, c.offset + c.length ≤ m) {fuel : Nat} (hfuel : calls.length < fuel) :
    F fuel st offset left = D r st' := by
  induction h generalizing fuel with
  | done =>
    obtain ⟨fuel, rfl⟩ := Nat.exists_eq_succ_of_ne_zero (Nat.ne_zero_of_lt hfuel)
    exact hdone
  | stop hleft hcall hstop =>
    obtain ⟨fuel, rfl⟩ := Nat.exists_eq_succ_of_ne_zero (Nat.ne_zero_of_lt hfuel)
    obtain ⟨-, heq⟩ := hstep hst hleft (forall_mem_cons.mp hin).1
    rw [heq, hcall, if_pos (Nat.le_of_eq hstop)]
  | next hleft hcall hgo _ ih =>
    obtain ⟨fuel, rfl⟩ := Nat.exists_eq_succ_of_ne_zero (Nat.ne_zero_of_lt hfuel)
    obtain ⟨hfirst, hrest⟩ := forall_mem_cons.mp hin
    obtain ⟨hst', heq⟩ := hstep hst hleft hfirst
    rw [hcall] at hst'
    rw [heq, hcall, if_neg (Nat.not_le.mpr (Nat.pos_of_ne_zero hgo))]
    exact ih hst' hrest (Nat.lt_of_succ_lt_succ hfuel)

theorem Exact.length_le {n : Nat} (h : Exact n calls r) : calls.length ≤ n + 1 := by
  have hsplit := congrArg length (takeWhile_append_dropWhile (p := Call.positive) (l := calls))
  rw [length_append] at hsplit
  have := h.positives
  have := h.ends
  omega

/-- **Over a socket**, `readFixSize` and `writeFixSize` do what an exact run of `readFix` and
`writeFix` does. -/
theorem fix_size_socket (fuel : Nat) (buffer : List UInt8) {t t' : Transport}
    (hexact : Exact buffer.length calls r) :
    (∀ buffer', readFix socketRead fuel buffer t = (calls, some r, buffer', t') →
      readFixSize buffer t = .ok (r, buffer') t')
    ∧ (writeFix socketWrite fuel buffer t = (calls, some r, t') →
      writeFixSize buffer t = .ok r t') := by
  have hshort := hexact.length_le
  constructor
  · intro buffer' hrun
    refine Runs.refined (I := fun st => st.1.length = buffer.length)
      (F := fun fuel st offset left => readFixLoop buffer.length fuel st.1 offset left st.2)
      (D := fun r st => .ok (r, st.1) st.2) rfl ?_ (runs_of_fixLoop hrun) rfl hexact.inside
      (show _ < t.work + buffer.length + 2 by omega)
    rintro fuel ⟨data, t⟩ offset left hst hleft hin
    dsimp only at hst ⊢
    have hlen := socketRead_length t left
    rw [readFixLoop, if_neg hleft, bind_ok (readRaw_inside (by omega) t)]
    constructor
    · show (overwrite data offset (socketRead t left).2.1).length = _
      rw [length_overwrite (by omega), hst]
    · exact apply_ite (fun x : StreamM _ => x (socketRead t left).2.2) _ _ _
  · intro hrun
    refine Runs.refined (I := fun _ => True)
      (F := fun fuel t offset left => writeFixLoop buffer fuel offset left t)
      (D := .ok) rfl ?_ (runs_of_fixLoop hrun) trivial hexact.inside
      (show _ < t.grants.length + buffer.length + 2 by omega)
    intro fuel t offset left _ hleft hin
    rw [writeFixLoop, if_neg hleft, bind_ok (writeRaw_inside hin t)]
    exact ⟨trivial, apply_ite (fun x : StreamM _ => x (socketWrite t _).2) _ _ _⟩

/-- Five bytes in three calls: two, one and three arrive, and the socket takes two, one and the
rest. -/
theorem fix_size_socket_pieces :
    readFixSize [0, 0, 0, 0, 0] ⟨true, [.bytes [1, 2], .bytes [3], .bytes [4, 5, 6]], [], []⟩
        = .ok (5, [1, 2, 3, 4, 5]) ⟨true, [.bytes [6]], [], []⟩
      ∧ writeFixSize [1, 2, 3, 4, 5] ⟨true, [], [2, 1], []⟩
        = .ok 5 ⟨true, [], [], [1, 2, 3, 4, 5]⟩ := by
  have h : Exact 5 [⟨0, 5, 2, [1, 2]⟩, ⟨2, 3, 1, [3]⟩, ⟨3, 2, 2, [4, 5]⟩] 5 :=
    ⟨by decide, (absurd rfl ·), by decide, by decide, by decide⟩
  exact ⟨(fix_size_socket 4 [0, 0, 0, 0, 0] h).1 _ rfl,
    (fix_size_socket 4 [1, 2, 3, 4, 5] h).2 rfl⟩

end SylarFixSize
