import Sylar.ZlibStreamProofs

/-! # Writing to a compression stream (`zlib_stream.cc`)

A session of `ZlibStream`: any number of `write` calls, on raw buffers and
on byte arrays, and one `flush`.  `deflate` is any machine with the calling
convention of zlib that leaves room only when it has used up its input, and
on `Z_FINISH` only when everything is emitted.

To speak about its calls, the session runs on the same machine with a
record of them (`Transducer.recording`), which changes nothing else
(`pump_recording`).

* **`Logged`** — the invariant: the buffers hold the outputs of the calls one
  after another, and every call was given the rest of one block.
* **`encoded_session`** — what a session emits, in which blocks. -/

namespace SylarZlibSession

open ListWindow Transducer SylarBytearray SylarBytearrayRefinement SylarZlibStream List

/-- One call of `ZlibStream::write`. -/
inductive Write
  | raw (buffer : List UInt8)
  | array (ba : Bytearray) (length : Nat)

/-- The iovecs of a `write`; `none` is a fault of the array, or `&buffers[0]`
of no buffers. -/
def Write.iovecs : Write → Option (List (List UInt8))
  | .raw buffer => some [buffer]
  | .array ba length =>
    match getReadBuffers length ba with
    | .ok [] _ => none
    | .ok iovs _ => some (pieces ba.m_root iovs)
    | .error _ _ => none

/-- `m_zstream.avail_in = v[i].iov_len`, a `uInt`. -/
def availIn (v : List UInt8) : List UInt8 := v.take (v.length % 2 ^ 32)

section Session

variable {σ : Type} (M : Machine UInt8 σ)

/-- `ZlibStream::write`. -/
def Write.run (fuel : Nat) (w : Write) (z : ZlibStream σ) :
    Option (Int × ZlibStream σ) :=
  match w.iovecs with
  | none => none
  | some vs => pump M fuel false (vs.map availIn) z

/-- Calls of `write`, one after another, and what they return. -/
def writes (fuel : Nat) :
    List Write → ZlibStream σ → Option (List Int × ZlibStream σ)
  | [], z => some ([], z)
  | w :: ws, z =>
    match w.run M fuel z with
    | none => none
    | some (rt, z) =>
        match writes fuel ws z with
        | none => none
        | some (rts, z) => some (rt :: rts, z)

/-- A new stream, `write` calls and one `flush`. -/
def session (fuel buff_size : Nat) (ws : List Write) :
    Option (List Int × ZlibStream σ) :=
  match writes M fuel ws (create M buff_size) with
  | none => none
  | some (rts, z) =>
    match flush M fuel z with
    | none => none
    | some (rt, z) => some (rts ++ [rt], z)

end Session

/-- `ZlibStream::getResult`. -/
def getResult {σ : Type} (z : ZlibStream σ) : List UInt8 := z.m_buffs.flatten

/-- The bytes a `write` is about. -/
def Write.bytes : Write → List UInt8
  | .raw buffer => buffer
  | .array ba length => ba.ahead.take length

/-- Below 2³² bytes, and not an empty array. -/
def Write.Valid : Write → Prop
  | .raw buffer => buffer.length < 2 ^ 32
  | .array ba length => WellFormed ba ∧ ba.ahead.take length ≠ []
    ∧ (ba.ahead.take length).length < 2 ^ 32

/-! ## A session is one pass over all pieces -/

variable {v : List UInt8} {vs : List (List UInt8)} {fuel k : Nat} {finish : Bool} {ws : List Write}

private theorem availIn_of_lt (h : v.length < 2 ^ 32) : availIn v = v := by
  rw [availIn, Nat.mod_eq_of_lt h, take_length]

private theorem length_le_of_mem_flatten (h : v ∈ vs) : v.length ≤ vs.flatten.length :=
  (sublist_flatten_of_mem h).length_le

/-- A valid `write` hands its bytes to the loop, piece by piece. -/
theorem Write.Valid.iovecs {w : Write} (h : w.Valid) :
    ∃ vs, w.iovecs = some vs ∧ vs.map availIn = vs ∧ vs.flatten = w.bytes := by
  have hshort : ∀ vs : List (List UInt8), vs.flatten.length < 2 ^ 32 → vs.map availIn = vs := by
    intro vs hvs
    refine (map_congr_left fun v hv => ?_).trans (map_id vs)
    exact availIn_of_lt (Nat.lt_of_le_of_lt (length_le_of_mem_flatten hv) hvs)
  cases w with
  | raw buffer =>
    have hflat : [buffer].flatten = buffer := flatten_singleton
    refine ⟨[buffer], rfl, hshort _ ?_, hflat⟩
    rw [hflat]
    exact h
  | array ba length =>
    obtain ⟨hwf, hne, hlt⟩ := h
    obtain ⟨iovs, hget, hgather⟩ := getReadBuffers_spec hwf length
    have hflat : (pieces ba.m_root iovs).flatten = ba.ahead.take length := by
      rw [Bytearray.ahead, window, take_take, ← window, ← hgather, gather, flatMap_def]
      rfl
    cases hiovs : iovs with
    | nil =>
      rw [hiovs] at hflat
      exact absurd hflat.symm hne
    | cons v rest =>
      rw [hiovs] at hget hflat
      refine ⟨pieces ba.m_root (v :: rest), ?_, hshort _ (hflat ▸ hlt), hflat⟩
      rw [Write.iovecs, hget]

section Runs

variable {σ : Type} {M : Machine UInt8 σ}

variable {z z' : ZlibStream σ} {buff_size : Nat} {r : List Int × ZlibStream σ}

/-- The first iovec of a pass that ends well. -/
theorem pump_cons (h : pump M fuel finish (v :: vs) z = some (Z_OK, z')) :
    ∃ rt z₁, rt ≠ Z_STREAM_ERROR ∧ drainLoop M (finish && vs.isEmpty) fuel v z = some (rt, z₁)
      ∧ pump M fuel finish vs z₁ = some (Z_OK, z') := by
  rw [pump] at h
  cases hloop : drainLoop M (finish && vs.isEmpty) fuel v z with
  | none => rw [hloop] at h; cases h
  | some p =>
    rw [hloop] at h
    dsimp only at h
    by_cases herr : p.1 = Z_STREAM_ERROR
    · rw [if_pos herr] at h
      obtain ⟨hok, -⟩ := Prod.mk.inj (Option.some.inj h)
      exact absurd (hok.symm.trans herr) (by decide)
    · rw [if_neg herr] at h
      exact ⟨p.1, p.2, herr, rfl, h⟩

theorem pump_of_loop {z₁ : ZlibStream σ} {rt : Int} (hrt : rt ≠ Z_STREAM_ERROR)
    (hloop : drainLoop M (finish && vs.isEmpty) fuel v z = some (rt, z₁)) :
    pump M fuel finish (v :: vs) z = pump M fuel finish vs z₁ := by
  rw [pump, hloop]
  dsimp only
  rw [if_neg hrt]

/-- A pass that ends well can be cut anywhere. -/
theorem pump_append {ws : List (List UInt8)}
    (h : pump M fuel false (vs ++ ws) z = some (Z_OK, z')) :
    ∃ z₁, pump M fuel false vs z = some (Z_OK, z₁) ∧ pump M fuel false ws z₁ = some (Z_OK, z') := by
  induction vs generalizing ws z z' with
  | nil => exact ⟨z, rfl, h⟩
  | cons v vs ih =>
    obtain ⟨rt, z₁, hrt, hloop, hrest⟩ := pump_cons h
    have hfirst : pump M fuel false (v :: vs) z = pump M fuel false vs z₁ := pump_of_loop hrt hloop
    rw [hfirst]
    exact ih hrest

/-- The pieces that a list of writes hands over. -/
def handed (ws : List Write) : List (List UInt8) :=
  ws.flatMap fun w => w.iovecs.getD []

theorem flatten_handed (h : ∀ w ∈ ws, w.Valid) : (handed ws).flatten = ws.flatMap Write.bytes := by
  induction ws with
  | nil => rfl
  | cons w ws ih =>
    obtain ⟨vs, hvs, -, hflat⟩ := (h w (mem_cons_self ..)).iovecs
    have hrest := ih fun w' hw' => h w' (mem_cons_of_mem _ hw')
    rw [handed] at hrest ⊢
    rw [flatMap_cons, flatMap_cons, flatten_append, hrest, hvs, Option.getD_some, hflat]

/-- The writes of a session are one pass over all their pieces. -/
theorem writes_of_pump (h : ∀ w ∈ ws, w.Valid)
    (hpump : pump M fuel false (handed ws) z = some (Z_OK, z')) :
    writes M fuel ws z = some (replicate ws.length Z_OK, z') := by
  induction ws generalizing z z' with
  | nil =>
    obtain ⟨-, rfl⟩ := Prod.mk.inj (Option.some.inj hpump)
    rfl
  | cons w ws ih =>
    obtain ⟨vs, hvs, havail, -⟩ := (h w (mem_cons_self ..)).iovecs
    rw [handed, flatMap_cons, hvs, Option.getD_some] at hpump
    obtain ⟨z₁, hfirst, hrest⟩ := pump_append hpump
    have hrun : w.run M fuel z = some (Z_OK, z₁) := by
      rw [Write.run, hvs]
      dsimp only
      rw [havail, hfirst]
    rw [writes, hrun]
    dsimp only
    rw [ih (fun w' hw' => h w' (mem_cons_of_mem _ hw')) hrest]
    rfl

/-- A session ends, with `Z_OK` throughout, and its result is what the machine produces for the
pieces. -/
theorem session_spec (hM : Interface M Z_STREAM_ERROR) (hb : 1 ≤ buff_size)
    (hws : ∀ w ∈ ws, w.Valid) :
    ∃ n z₁ z₂, Produces M (handed ws) (getResult z₂) ∧ Packed z₂ ∧ ∀ fuel, n ≤ fuel →
          pump M fuel false (handed ws) (create M buff_size) = some (Z_OK, z₁)
          ∧ flush M fuel z₁ = some (Z_OK, z₂)
          ∧ session M fuel buff_size ws = some (replicate (ws.length + 1) Z_OK, z₂) := by
  obtain ⟨n, out, z₁, z₂, hprod, rfl, hpacked, hrun⟩ := stream_spec hM hb (handed ws)
  refine ⟨n, z₁, z₂, hprod, hpacked, fun fuel hfuel => ?_⟩
  obtain ⟨hpump, hflush⟩ := hrun fuel hfuel
  refine ⟨hpump, hflush, ?_⟩
  rw [session, writes_of_pump hws hpump]
  dsimp only
  rw [hflush, replicate_succ']

theorem writes_more_fuel (k : Nat) {ws : List Write} (h : writes M fuel ws z = some r) :
    writes M (fuel + k) ws z = some r := by
  induction ws generalizing z r with
  | nil => exact h
  | cons w ws ih =>
    rw [writes] at h ⊢
    cases hrun : w.run M fuel z with
    | none => rw [hrun] at h; cases h
    | some p =>
      have hmore : w.run M (fuel + k) z = some p := by
        rw [Write.run] at hrun ⊢
        split at hrun
        · cases hrun
        · exact pump_more_fuel k hrun
      rw [hrun] at h
      rw [hmore]
      dsimp only at h ⊢
      cases hrest : writes M fuel ws p.2 with
      | none => rw [hrest] at h; cases h
      | some q =>
        rw [hrest] at h
        rw [ih hrest]
        exact h

theorem session_more_fuel (k : Nat) (h : session M fuel buff_size ws = some r) :
    session M (fuel + k) buff_size ws = some r := by
  rw [session] at h ⊢
  cases hws : writes M fuel ws (create M buff_size) with
  | none => rw [hws] at h; cases h
  | some p =>
    rw [hws] at h
    rw [writes_more_fuel k hws]
    dsimp only at h ⊢
    cases hflush : flush M fuel p.2 with
    | none => rw [hflush] at h; cases h
    | some q =>
      have hmore : flush M (fuel + k) p.2 = some q := pump_more_fuel k hflush
      rw [hflush] at h
      rw [hmore]
      exact h

end Runs

/-! ## The record changes nothing else -/

section Record

variable {σ : Type}

/-- The stream without the record. -/
def forget (z : ZlibStream (σ × List (Call UInt8))) : ZlibStream σ where
  m_zstream := z.m_zstream.1
  m_buffSize := z.m_buffSize
  m_buffs := z.m_buffs

variable {M : Machine UInt8 σ}

variable {rt : Int} {z z' : ZlibStream (σ × List (Call UInt8))}

theorem drainLoop_recording {flush : Bool} {next_in : List UInt8}
    (h : drainLoop (recording M) flush fuel next_in z = some (rt, z')) :
    drainLoop M flush fuel next_in (forget z) = some (rt, forget z') := by
  induction fuel generalizing next_in rt z z' with
  | zero => cases h
  | succ fuel ih =>
    rw [drainLoop_succ] at h ⊢
    change (if (M.call z.m_zstream.1 next_in flush z.room).ret = Z_STREAM_ERROR
      then _ else if z.room - (M.call z.m_zstream.1 next_in flush z.room).out.length
        = 0 then _ else _) = _ at h
    change (if (M.call z.m_zstream.1 next_in flush z.room).ret = Z_STREAM_ERROR
      then _ else if z.room - (M.call z.m_zstream.1 next_in flush z.room).out.length
        = 0 then _ else _) = _
    split at h
    · next herr =>
        rw [if_pos herr]
        obtain ⟨rfl, rfl⟩ := Prod.mk.inj (Option.some.inj h)
        rfl
    · next herr =>
        rw [if_neg herr]
        split at h
        · next hfull => rw [if_pos hfull]; exact ih h
        · next hfull =>
            rw [if_neg hfull]
            obtain ⟨rfl, rfl⟩ := Prod.mk.inj (Option.some.inj h)
            rfl

theorem pump_recording (h : pump (recording M) fuel finish vs z = some (rt, z')) :
    pump M fuel finish vs (forget z) = some (rt, forget z') := by
  induction vs generalizing rt z z' with
  | nil =>
    obtain ⟨rfl, rfl⟩ := Prod.mk.inj (Option.some.inj h)
    rfl
  | cons v vs ih =>
    rw [pump] at h ⊢
    cases hloop : drainLoop (recording M) (finish && vs.isEmpty) fuel v z with
    | none => rw [hloop] at h; cases h
    | some p =>
      rw [hloop] at h
      rw [drainLoop_recording hloop]
      dsimp only at h ⊢
      split at h
      · next herr =>
          rw [if_pos herr]
          obtain ⟨rfl, rfl⟩ := Prod.mk.inj (Option.some.inj h)
          rfl
      · next herr => rw [if_neg herr]; exact ih h

/-! ## What the record says -/

/-- What the recorded calls emitted, and what they took. -/
def emitted (log : List (Call UInt8)) : List UInt8 := log.flatMap Call.out
def taken (log : List (Call UInt8)) : List UInt8 := log.flatMap Call.taken

private theorem emitted_concat (log : List (Call UInt8)) (c : Call UInt8) :
    emitted (log ++ [c]) = emitted log ++ c.out := by
  rw [emitted, flatMap_append, flatMap_singleton]
  rfl

private theorem taken_concat (log : List (Call UInt8)) (c : Call UInt8) :
    taken (log ++ [c]) = taken log ++ c.taken := by
  rw [taken, flatMap_append, flatMap_singleton]
  rfl

/-- Every call was given the rest of one block of `buff_size` bytes, behind what was emitted, and
stayed within it. -/
def Inside (buff_size : Nat) (log : List (Call UInt8)) : Prop :=
  ∀ before c after, log = before ++ c :: after →
    (emitted before).length % buff_size + c.avail = buff_size
      ∧ c.out.length ≤ c.avail

theorem Inside.concat {log : List (Call UInt8)} (h : Inside k log) {c : Call UInt8}
    (havail : (emitted log).length % k + c.avail = k) (hfits : c.out.length ≤ c.avail) :
    Inside k (log ++ [c]) := by
  intro before c' after heq
  rcases eq_nil_or_concat after with rfl | ⟨after, c'', rfl⟩
  · obtain ⟨rfl, hc⟩ := append_inj' heq rfl
    rw [← (cons.inj hc).1]
    exact ⟨havail, hfits⟩
  · rw [concat_eq_append, ← cons_append, ← append_assoc] at heq
    exact h before c' after (append_inj' heq rfl).1

/-- The invariant of a session, with what has been taken. -/
structure Logged (buff_size : Nat) (input : List UInt8)
    (z : ZlibStream (σ × List (Call UInt8))) : Prop where
  size : z.m_buffSize = buff_size
  packed : Packed z
  result : getResult z = emitted z.m_zstream.2
  inside : Inside buff_size z.m_zstream.2
  consumed : taken z.m_zstream.2 = input

theorem Logged.create {k : Nat} (hk : 1 ≤ k) : Logged k [] (create (recording M) k) where
  size := rfl
  packed := Packed.create hk
  result := rfl
  inside before c after h := absurd h.symm (by simp [SylarZlibStream.create, recording])
  consumed := rfl

/-- **One call** keeps the invariant. -/
theorem Logged.store (hM : Interface M Z_STREAM_ERROR) {input : List UInt8}
    {z : ZlibStream (σ × List (Call UInt8))} (h : Logged k input z) (next_in : List UInt8)
    (flush : Bool) :
    Logged k (input ++ next_in.take (M.call z.m_zstream.1 next_in flush z.room).consumed)
      (z.store ((recording M).call z.m_zstream next_in flush z.room)) := by
  have hfits := hM.fits z.m_zstream.1 next_in flush z.room
  have hoffset := h.packed.offset_add_room
  rw [← getResult, h.result, h.size] at hoffset
  refine ⟨h.size, h.packed.store hfits, ?_, h.inside.concat hoffset hfits, ?_⟩
  · rw [getResult, h.packed.flatten_store, ← getResult, h.result]
    exact (emitted_concat _ (M.record z.m_zstream.1 next_in flush z.room)).symm
  · rw [← h.consumed]
    exact taken_concat _ (M.record z.m_zstream.1 next_in flush z.room)

section Greedy

variable (hM : Interface M Z_STREAM_ERROR) {complete : σ → Prop}
  (hG : Greedy M complete)

include hM hG

variable {input : List UInt8} {z z' : ZlibStream (σ × List (Call UInt8))}

/-- One iovec is taken as a whole, and with `Z_FINISH` everything is
emitted. -/
theorem drainLoop_logged {flush : Bool} {next_in : List UInt8} {rt : Int} (hz : Logged k input z)
    (h : drainLoop (recording M) flush fuel next_in z = some (rt, z')) (hrt : rt ≠ Z_STREAM_ERROR) :
    Logged k (input ++ next_in) z' ∧ (flush = true → complete z'.m_zstream.1) := by
  induction fuel generalizing next_in input rt z z' with
  | zero => cases h
  | succ fuel ih =>
    have hstore := hz.store hM next_in flush
    have hcall : ((recording M).call z.m_zstream next_in flush z.room).consumed
      = (M.call z.m_zstream.1 next_in flush z.room).consumed := rfl
    rw [drainLoop_succ] at h
    dsimp only at h
    split at h
    · next herr =>
        obtain ⟨hret, -⟩ := Prod.mk.inj (Option.some.inj h)
        exact absurd (hret.symm.trans herr) hrt
    · split at h
      · -- no room left: the rest of the iovec is taken by the calls to come
        obtain ⟨hlog, hcomplete⟩ := ih hstore h hrt
        rw [hcall, append_assoc, take_append_drop] at hlog
        exact ⟨hlog, hcomplete⟩
      · next hfull =>
          have hleft : (M.call z.m_zstream.1 next_in flush z.room).out.length
              < z.room := Nat.lt_of_sub_ne_zero hfull
          obtain ⟨-, rfl⟩ := Prod.mk.inj (Option.some.inj h)
          rw [hG.empties hleft, take_length] at hstore
          refine ⟨hstore, fun hflush => ?_⟩
          subst hflush
          exact hG.completes hleft

theorem pump_logged (hz : Logged k input z)
    (h : pump (recording M) fuel false vs z = some (Z_OK, z')) :
    Logged k (input ++ vs.flatten) z' := by
  induction vs generalizing input z z' with
  | nil =>
    obtain ⟨-, rfl⟩ := Prod.mk.inj (Option.some.inj h)
    rw [flatten_nil, append_nil]
    exact hz
  | cons v vs ih =>
    obtain ⟨rt, z₁, hrt, hloop, hrest⟩ := pump_cons h
    have hv := (drainLoop_logged hM hG hz hloop hrt).1
    rw [flatten_cons, ← append_assoc]
    exact ih hv hrest

theorem flush_logged (hz : Logged k input z) (h : flush (recording M) fuel z = some (Z_OK, z')) :
    Logged k input z' ∧ complete z'.m_zstream.1 := by
  obtain ⟨rt, z₁, hrt, hloop, hrest⟩ := pump_cons h
  obtain ⟨-, rfl⟩ := Prod.mk.inj (Option.some.inj hrest)
  obtain ⟨hlog, hcomplete⟩ := drainLoop_logged hM hG hz hloop hrt
  rw [append_nil] at hlog
  exact ⟨hlog, hcomplete rfl⟩

end Greedy

end Record

/-! ## An encoding session -/

/-- What a session with the recorded calls `z.m_zstream.2` has to show: calls wrote inside one
block, the input was taken in order and everything emitted, all blocks but the last are full, and
both results are what was emitted. -/
structure Encoded {σ : Type} (complete : σ → Prop) (buff_size : Nat)
    (input : List UInt8) (z : ZlibStream (σ × List (Call UInt8))) : Prop where
  inside : Inside buff_size z.m_zstream.2
  consumed : taken z.m_zstream.2 = input
  complete : complete z.m_zstream.1
  allocated : ∀ b ∈ z.m_buffs, b.length ≤ buff_size
  full : ∀ b ∈ z.m_buffs.dropLast, b.length = buff_size
  result : getResult z = emitted z.m_zstream.2
  array : ∀ m_endian, ∃ ba, getByteArray m_endian z = .ok () ba
    ∧ Loaded defaultSize (emitted z.m_zstream.2) ba

/-- **An encoding session**, for every block size and division into `write` calls.  A compressor
whose output depends on the input alone gives the same result for all of them. -/
theorem encoded_session {σ : Type} {M : Machine UInt8 σ}
    (hM : Interface M Z_STREAM_ERROR) {complete : σ → Prop}
    (hG : Greedy M complete) {buff_size : Nat} (hb : 1 ≤ buff_size)
    {ws : List Write} (hws : ∀ w ∈ ws, w.Valid) :
    ∃ n z, (∀ fuel, n ≤ fuel → session (recording M) fuel buff_size ws
          = some (List.replicate (ws.length + 1) Z_OK, z)
        ∧ session M fuel buff_size ws = some (List.replicate (ws.length + 1) Z_OK, forget z))
      ∧ Encoded complete buff_size (ws.flatMap Write.bytes) z
      ∧ ∀ code : List UInt8 → List UInt8,
          (∀ pieces out, Produces M pieces out → out = code pieces.flatten) →
          getResult z = code (ws.flatMap Write.bytes) := by
  obtain ⟨n₁, z₁, z₂, -, hpacked, hrun⟩ := session_spec hM.recording hb hws
  obtain ⟨n₂, y₁, y₂, hprod, -, hrun'⟩ := session_spec hM hb hws
  obtain ⟨hpump, hflush, -⟩ := hrun (max n₁ n₂) (Nat.le_max_left ..)
  obtain ⟨hpump', hflush', -⟩ := hrun' (max n₁ n₂) (Nat.le_max_right ..)
  -- the record left out, the two runs are the same
  have hy₁ : forget z₁ = y₁ :=
    (Prod.mk.inj (Option.some.inj ((pump_recording hpump).symm.trans hpump'))).2
  subst hy₁
  have hy₂ : forget z₂ = y₂ :=
    (Prod.mk.inj (Option.some.inj ((pump_recording hflush).symm.trans hflush'))).2
  subst hy₂
  have hlog₁ := pump_logged hM hG (Logged.create hb) hpump
  obtain ⟨hlog₂, hcomplete⟩ := flush_logged hM hG hlog₁ hflush
  rw [nil_append, flatten_handed hws] at hlog₂
  refine ⟨max n₁ n₂, z₂, fun fuel hfuel => ?_, ?_, fun code hcode => ?_⟩
  · exact ⟨(hrun fuel (by omega)).2.2, (hrun' fuel (by omega)).2.2⟩
  · refine ⟨hlog₂.inside, hlog₂.consumed, hcomplete, ?_, ?_, hlog₂.result, fun m_endian => ?_⟩
    · rw [← hlog₂.size]
      exact hpacked.le
    · rw [← hlog₂.size]
      exact hpacked.full
    · rw [← hlog₂.result]
      exact getByteArray_spec m_endian z₂
  · rw [← flatten_handed hws]
    exact hcode _ _ hprod

/-- Two raw buffers, an empty one between them, through blocks of two bytes. -/
theorem encoded_session_copy : ∃ n z, (∀ fuel, n ≤ fuel → session (recording (copier UInt8)) fuel 2
            [.raw [1, 2, 3], .raw [], .raw [4]]
          = some (List.replicate 4 Z_OK, z)
        ∧ session (copier UInt8) fuel 2 [.raw [1, 2, 3], .raw [], .raw [4]]
          = some (List.replicate 4 Z_OK, forget z))
      ∧ Encoded (· = []) 2 [1, 2, 3, 4] z ∧ getResult z = [1, 2, 3, 4] := by
  have hws : ∀ w ∈ [Write.raw [1, 2, 3], .raw [], .raw [4]], w.Valid := by
    intro w hw
    simp only [mem_cons, not_mem_nil, or_false] at hw
    rcases hw with rfl | rfl | rfl <;> simp [Write.Valid]
  obtain ⟨n, z, hrun, henc, hcode⟩ := encoded_session
    (copierInterface UInt8 (show Z_STREAM_ERROR ≠ 0 by decide)) (copier_greedy UInt8)
    (show 1 ≤ 2 by decide) hws
  exact ⟨n, z, hrun, henc, hcode id fun _ _ => copier_produces⟩

end SylarZlibSession
