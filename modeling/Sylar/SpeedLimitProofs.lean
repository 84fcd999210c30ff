import Mathlib.Algebra.Order.Ring.Nat
import Mathlib.Data.List.Range

/-! # Speed-limited copies (`util.cc`)

`ReadFixFromStreamWithSpeed` and `WriteFixToStreamWithSpeed` move `data[0..size)` in chunks
until the stream fails.  Reading advances by `gcount()`, writing by what it asked for: a
last chunk that fails counts as written.

* **`copyLoop_ends`** — where the loop ends, for both of them.
* **`copies_right_iff`** — reading is right, and when writing is. -/

namespace SylarSpeedLimit

/-! ## The code -/

/-- How many bytes of a chunk at an offset a stream moves; it has failed behind a chunk it did not
move in full. -/
structure Stream where
  moved : Nat → Nat → Nat
  moved_le : ∀ offset s, moved offset s ≤ s

/-- What a loop adds to `offset` after a chunk of `s` bytes of which some were moved. -/
abbrev Advance := { f : Nat → Nat → Nat // ∀ s, f s s = s }

/-- `offset += is.gcount()`. -/
def byCount : Advance := ⟨fun _ moved => moved, fun _ => rfl⟩

/-- `offset += s`. -/
def bySize : Advance := ⟨fun s _ => s, fun _ => rfl⟩

/-- `per`, where `(uint64_t)ceil(speed / 100.0)` is `c`. -/
def per (c : Nat) : Nat := max c (1024 * 64)

/-- `s`, the size of the chunk at `offset`. -/
def chunk (c size offset : Nat) : Nat :=
  if size - offset > per c then per c else size - offset

private theorem per_pos (c : Nat) : 0 < per c := by
  unfold per
  omega

theorem chunk_pos {size offset : Nat} (c : Nat) (h : offset < size) :
    0 < chunk c size offset := by
  have := per_pos c
  unfold chunk
  split <;> omega

private theorem chunk_le (c size offset : Nat) : chunk c size offset ≤ size - offset := by
  unfold chunk
  split <;> omega

/-- The loop, with the indices of `data` whose bytes were moved.  `limit->add` only sleeps. -/
def copyLoop (adv : Advance) (st : Stream) (c size : Nat) (good : Bool) (offset : Nat)
    (done : List Nat) : Nat × List Nat :=
  if good ∧ offset < size then
    let s := chunk c size offset
    let moved := st.moved offset s
    copyLoop adv st c size (moved = s) (offset + adv.1 s moved)
      (done ++ List.range' offset moved)
  else (offset, done)
termination_by if good then size - offset + 1 else 0
decreasing_by
  have := chunk_pos c ‹good ∧ offset < size›.2
  by_cases hall : st.moved offset (chunk c size offset) = chunk c size offset
  · simp only [‹good ∧ offset < size›.1, hall, adv.2, decide_true, if_true]
    omega
  · simp [‹good ∧ offset < size›.1, hall]

/-- A copy to or from a stream that may have failed before: the result and what was moved. -/
def copyWithSpeed (adv : Advance) (st : Stream) (c size : Nat) (good : Bool) : Bool × List Nat :=
  let r := copyLoop adv st c size good 0 []
  (r.1 = size, r.2)

def ReadFixFromStreamWithSpeed := copyWithSpeed byCount

def WriteFixToStreamWithSpeed := copyWithSpeed bySize

/-! ## Where the loop ends -/

variable {adv : Advance} {st : Stream} {c size offset : Nat} {done : List Nat}

private theorem copyLoop_failed : copyLoop adv st c size false offset done = (offset, done) := by
  rw [copyLoop, if_neg (by simp)]

theorem copyLoop_chunk (hlt : offset < size) :
    copyLoop adv st c size true offset (List.range offset) =
      copyLoop adv st c size (st.moved offset (chunk c size offset) = chunk c size offset)
        (offset + adv.1 (chunk c size offset) (st.moved offset (chunk c size offset)))
        (List.range (offset + st.moved offset (chunk c size offset))) := by
  rw [copyLoop, if_pos ⟨rfl, hlt⟩, List.range_add, ← List.range'_eq_map_range]

/-- The stream takes every chunk in front of an offset. -/
def Taken (st : Stream) (c size offset : Nat) : Prop :=
  ∀ o < offset, per c ∣ o → st.moved o (chunk c size o) = chunk c size o

/-- The ends of a good stream: it takes all chunks, or fails in one, all before it taken. -/
inductive Ends (adv : Advance) (st : Stream) (c size : Nat) : Nat × List Nat → Prop
  | all (htaken : Taken st c size size) : Ends adv st c size (size, List.range size)
  | short {o : Nat} (hlt : o < size) (hper : per c ∣ o) (htaken : Taken st c size o)
      (hshort : st.moved o (chunk c size o) < chunk c size o) :
      Ends adv st c size (o + adv.1 (chunk c size o) (st.moved o (chunk c size o)),
        List.range (o + st.moved o (chunk c size o)))

/-- Behind a chunk that is taken: no other one starts inside it. -/
theorem Taken.chunk (h : Taken st c size offset) (hper : per c ∣ offset)
    (hall : st.moved offset (chunk c size offset) = chunk c size offset) :
    Taken st c size (offset + chunk c size offset) := by
  intro o ho hdvd
  by_cases hlt : o < offset
  · exact h o hlt hdvd
  · have hle : SylarSpeedLimit.chunk c size offset ≤ per c := by
      unfold SylarSpeedLimit.chunk
      split <;> omega
    have hzero := Nat.eq_zero_of_dvd_of_lt (Nat.dvd_sub hdvd hper) (by omega)
    obtain rfl : o = offset := by omega
    exact hall

/-- **Where the loop ends** from an offset in front of which all was taken. -/
theorem copyLoop_ends (hle : offset ≤ size) (hper : offset < size → per c ∣ offset)
    (htaken : Taken st c size offset) :
    Ends adv st c size (copyLoop adv st c size true offset (List.range offset)) := by
  induction hleft : size - offset using Nat.strong_induction_on generalizing offset with
  | _ left ih =>
      by_cases hlt : offset < size
      · have hpos := chunk_pos c hlt
        rw [copyLoop_chunk hlt]
        by_cases hall : st.moved offset (chunk c size offset) = chunk c size offset
        · have hnext : offset + chunk c size offset ≤ size ∧
              (offset + chunk c size offset < size → per c ∣ offset + chunk c size offset) := by
            unfold chunk
            split
            · exact ⟨by omega, fun _ => Nat.dvd_add (hper hlt) (Nat.dvd_refl _)⟩
            · exact ⟨by omega, by omega⟩
          simpa only [hall, adv.2, decide_true] using
            ih (size - (offset + chunk c size offset)) (by omega) hnext.1 hnext.2
              (htaken.chunk (hper hlt) hall) rfl
        · simpa only [hall, decide_false, copyLoop_failed] using
            Ends.short hlt (hper hlt) htaken (lt_of_le_of_ne (st.moved_le _ _) hall)
      · obtain rfl : offset = size := by omega
        rw [copyLoop, if_neg (by simp)]
        exact .all htaken

/-! ## The results -/

/-- Where the last chunk starts. -/
def lastChunk (c size : Nat) : Nat := (size - 1) / per c * per c

/-- A chunk at a multiple of `per` is not behind the last one, and is the last one if it reaches
the end. -/
theorem chunk_last_iff {o : Nat} (hlt : o < size) (hper : per c ∣ o) :
    o ≤ lastChunk c size ∧ (o + chunk c size o = size ↔ o = lastChunk c size) := by
  obtain ⟨k, rfl⟩ := hper
  have hk : k ≤ (size - 1) / per c := by
    rw [Nat.le_div_iff_mul_le (per_pos c), Nat.mul_comm]
    omega
  unfold chunk lastChunk
  rw [Nat.mul_comm (_ / _)]
  refine ⟨Nat.mul_le_mul_left _ hk, ?_⟩
  split
  · -- another chunk starts behind this one
    have hnext : k + 1 ≤ (size - 1) / per c := by
      rw [Nat.le_div_iff_mul_le (per_pos c), Nat.mul_comm, Nat.mul_succ]
      omega
    have := Nat.mul_le_mul_left (per c) hnext
    have := per_pos c
    rw [Nat.mul_succ] at *
    omega
  · have : (size - 1) / per c < k + 1 := by
      rw [Nat.div_lt_iff_lt_mul (per_pos c), Nat.mul_comm, Nat.mul_succ]
      omega
    rw [show (size - 1) / per c = k by omega]
    omega

/-- The stream takes all chunks in front of the last one, and that one not in full. -/
def FailsLast (st : Stream) (c size : Nat) : Prop :=
  Taken st c size (lastChunk c size) ∧
    st.moved (lastChunk c size) (chunk c size (lastChunk c size)) <
      chunk c size (lastChunk c size)

/-- `data[0..done.length)` was moved, each byte once and in order. -/
def InOrder (size : Nat) (done : List Nat) : Prop :=
  done = List.range done.length ∧ done.length ≤ size

theorem Ends.inOrder {r : Nat × List Nat} (h : Ends adv st c size r) : InOrder size r.2 := by
  cases h with
  | all => simp [InOrder]
  | @short o hlt hper htaken hshort =>
      have := chunk_le c size o
      simp only [InOrder, List.length_range, true_and]
      omega

theorem Ends.read_iff {r : Nat × List Nat} (h : Ends byCount st c size r) :
    r.1 = size ↔ r.2.length = size := by
  cases h <;> simp [byCount]

/-- Writing is right unless the stream fails in the last chunk. -/
theorem Ends.write_iff {w : Nat × List Nat} (h : Ends bySize st c size w) :
    (w.1 = size ↔ w.2.length = size) ↔ ¬ FailsLast st c size := by
  cases h with
  | all htaken =>
      have hnot : ¬ FailsLast st c size := by
        rintro ⟨-, hshort⟩
        have := chunk_le c size (lastChunk c size)
        have := htaken (lastChunk c size) (by omega) (Nat.dvd_mul_left _ _)
        omega
      simp [hnot]
  | @short o hlt hper htaken hshort =>
      obtain ⟨hle, hlast⟩ := chunk_last_iff hlt hper
      have hfails : FailsLast st c size ↔ o = lastChunk c size := by
        constructor
        · rintro ⟨hbefore, -⟩
          by_contra hne
          have := hbefore o (by omega) hper
          omega
        · rintro rfl
          exact ⟨htaken, hshort⟩
      have := chunk_le c size o
      simp only [bySize, List.length_range, hfails, ← hlast]
      omega

/-- **The copies** move the bytes in order.  Reading returns true exactly when all were moved;
writing does unless a good stream takes all chunks but the last one. -/
theorem copies_right_iff (st : Stream) (c size : Nat) (good : Bool) :
    let r := ReadFixFromStreamWithSpeed st c size good
    let w := WriteFixToStreamWithSpeed st c size good
    (InOrder size r.2 ∧ (r.1 = true ↔ r.2.length = size)) ∧ InOrder size w.2 ∧
      ((w.1 = true ↔ w.2.length = size) ↔ ¬ (good = true ∧ FailsLast st c size)) := by
  simp only [ReadFixFromStreamWithSpeed, WriteFixToStreamWithSpeed, copyWithSpeed,
    decide_eq_true_eq]
  cases good with
  | false => simp [copyLoop_failed, InOrder]
  | true =>
      have hends : ∀ adv, Ends adv st c size (copyLoop adv st c size true 0 []) := fun adv =>
        copyLoop_ends (Nat.zero_le _) (fun _ => Nat.dvd_zero _) fun _ h => absurd h (by omega)
      refine ⟨⟨(hends _).inOrder, (hends _).read_iff⟩, (hends _).inOrder, ?_⟩
      rw [(hends bySize).write_iff]
      simp only [true_and]

/-- A stream that takes nothing: writing one byte to it succeeds, reading one does not. -/
theorem failed_write_is_true :
    WriteFixToStreamWithSpeed ⟨fun _ _ => 0, fun _ _ => Nat.zero_le _⟩ 1 1 true = (true, []) ∧
      ReadFixFromStreamWithSpeed ⟨fun _ _ => 0, fun _ _ => Nat.zero_le _⟩ 1 1 true =
        (false, []) := by
  constructor <;>
    simp [WriteFixToStreamWithSpeed, ReadFixFromStreamWithSpeed, copyWithSpeed, copyLoop, bySize,
      byCount, chunk, per]

end SylarSpeedLimit
