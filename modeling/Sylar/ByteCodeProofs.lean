import Mathlib.Data.List.Basic
import Mathlib.Data.Nat.Log
import Mathlib.Tactic.Ring
import Mathlib.Tactic.Linarith

/-! # Byte codes of machine integers

Three codes and what undoes them, independent of any buffer:

* `leBytes k n` — the `k` bytes of `n`, least significant first, undone by
  `ofLeBytes`; reversing the bytes is the byte swap;
* `leb room n` — seven bits a byte, least significant first, with the
  continuation bit on all bytes but the last, in at most `room` bytes, found
  again at the front of any bytes by `lebFront`;
* `zigzag` — signed values folded onto the even and odd numbers, undone by
  `unzigzag`. -/

namespace ByteCode

/-! ## Fixed width -/

/-- The `k` low bytes of `n`, least significant first. -/
def leBytes : Nat → Nat → List UInt8
  | 0, _ => []
  | k + 1, n => UInt8.ofNat (n % 256) :: leBytes k (n / 256)

/-- The number whose bytes, least significant first, are given. -/
def ofLeBytes : List UInt8 → Nat
  | [] => 0
  | b :: bs => b.toNat + 256 * ofLeBytes bs

@[simp] theorem length_leBytes (k n : Nat) : (leBytes k n).length = k := by
  induction k generalizing n with
  | zero => rfl
  | succ k ih => rw [leBytes, List.length_cons, ih]

theorem ofLeBytes_lt (bs : List UInt8) : ofLeBytes bs < 256 ^ bs.length := by
  induction bs with
  | nil => exact Nat.one_pos
  | cons b bs ih =>
    have hb := b.toNat_lt
    rw [ofLeBytes, List.length_cons, pow_succ]
    omega

/-- Reading the bytes back gives the number cut to its width. -/
theorem ofLeBytes_leBytes (k n : Nat) : ofLeBytes (leBytes k n) = n % 256 ^ k := by
  induction k generalizing n with
  | zero => rw [leBytes, ofLeBytes, pow_zero, Nat.mod_one]
  | succ k ih =>
    have hb : (UInt8.ofNat (n % 256)).toNat = n % 256 := by
      rw [UInt8.toNat_ofNat']
      omega
    rw [leBytes, ofLeBytes, ih, hb, pow_succ, Nat.mul_comm (256 ^ k), Nat.mod_mul]

/-- Writing the number of some bytes gives the bytes back. -/
theorem leBytes_ofLeBytes (bs : List UInt8) : leBytes bs.length (ofLeBytes bs) = bs := by
  induction bs with
  | nil => rfl
  | cons b bs ih =>
    have hb := b.toNat_lt
    have hmod : (b.toNat + 256 * ofLeBytes bs) % 256 = b.toNat := by omega
    have hdiv : (b.toNat + 256 * ofLeBytes bs) / 256 = ofLeBytes bs := by
      omega
    rw [List.length_cons, ofLeBytes, leBytes, hmod, hdiv, ih, UInt8.ofNat_toNat]

/-- The memory image of a `k`-byte integer on a little-endian host. -/
def toMem (k : Nat) (v : BitVec (8 * k)) : List UInt8 := leBytes k v.toNat

/-- The `k`-byte integer with the given memory image. -/
def ofMem (k : Nat) (bs : List UInt8) : BitVec (8 * k) :=
  BitVec.ofNat _ (ofLeBytes bs)

/-- `bswap`: the bytes in opposite order. -/
def byteswap (k : Nat) (v : BitVec (8 * k)) : BitVec (8 * k) :=
  ofMem k (toMem k v).reverse

@[simp] theorem length_toMem (k : Nat) (v : BitVec (8 * k)) :
    (toMem k v).length = k := length_leBytes ..

theorem pow_bytes (k : Nat) : (256 : Nat) ^ k = 2 ^ (8 * k) := by
  rw [show (256 : Nat) = 2 ^ 8 from rfl, ← Nat.pow_mul]

@[simp] theorem ofMem_toMem (k : Nat) (v : BitVec (8 * k)) : ofMem k (toMem k v) = v := by
  rw [ofMem, toMem, ofLeBytes_leBytes, pow_bytes, Nat.mod_eq_of_lt v.isLt,
    BitVec.ofNat_toNat, BitVec.setWidth_eq]

variable {k room w : Nat} {bs : List UInt8}

theorem toNat_ofMem (h : bs.length = k) : (ofMem k bs).toNat = ofLeBytes bs := by
  have hlt := ofLeBytes_lt bs
  rw [h, pow_bytes] at hlt
  rw [ofMem, BitVec.toNat_ofNat, Nat.mod_eq_of_lt hlt]

theorem toMem_ofMem (h : bs.length = k) : toMem k (ofMem k bs) = bs := by
  rw [toMem, toNat_ofMem h, ← h, leBytes_ofLeBytes]

theorem byteswap_ofMem (h : bs.length = k) : byteswap k (ofMem k bs) = ofMem k bs.reverse := by
  rw [byteswap, toMem_ofMem h]

/-- The byte swap reverses the memory image. -/
theorem toMem_byteswap (k : Nat) (v : BitVec (8 * k)) :
    toMem k (byteswap k v) = (toMem k v).reverse :=
  toMem_ofMem (by rw [List.length_reverse, length_toMem])

/-- Two byte swaps cancel. -/
@[simp] theorem byteswap_byteswap (k : Nat) (v : BitVec (8 * k)) :
    byteswap k (byteswap k v) = v := by
  rw [byteswap, toMem_byteswap, List.reverse_reverse, ofMem_toMem]

/-- Bit `i` of a number is bit `i % 8` of its byte `i / 8`. -/
theorem testBit_ofLeBytes (bs : List UInt8) (i : Nat) :
    (ofLeBytes bs).testBit i = (bs.getD (i / 8) 0).toNat.testBit (i % 8) := by
  induction bs generalizing i with
  | nil => simp [ofLeBytes]
  | cons b bs ih =>
    have hb : b.toNat < 2 ^ 8 := b.toNat_lt
    rw [ofLeBytes, Nat.add_comm, show 256 = 2 ^ 8 from rfl, Nat.testBit_two_pow_mul_add _ hb]
    by_cases hi : i < 8
    · rw [if_pos hi, Nat.div_eq_of_lt hi, Nat.mod_eq_of_lt hi]
      rfl
    · obtain ⟨j, rfl⟩ : ∃ j, i = j + 8 := ⟨i - 8, by omega⟩
      rw [if_neg hi, Nat.add_sub_cancel, ih, Nat.add_div_right j (by decide), Nat.add_mod_right]
      rfl

variable {j r n : Nat}

theorem testBit_leBytes (hj : j < k) (n : Nat) (hr : r < 8) :
    ((leBytes k n).getD j 0).toNat.testBit r = n.testBit (8 * j + r) := by
  induction k generalizing j n with
  | zero => exact absurd hj (Nat.not_lt_zero j)
  | succ k ih =>
    cases j with
    | zero =>
      have hmod : n % 256 % 2 ^ 8 = n % 2 ^ 8 := by omega
      show (UInt8.ofNat (n % 256)).toNat.testBit r = _
      rw [UInt8.toNat_ofNat', hmod, Nat.testBit_mod_two_pow, decide_eq_true hr,
        Bool.true_and, Nat.mul_zero, Nat.zero_add]
    | succ j =>
      show ((leBytes k (n / 256)).getD j 0).toNat.testBit r = _
      rw [ih (by omega), show 256 = 2 ^ 8 from rfl, Nat.testBit_div_two_pow]
      congr 1
      omega

/-- Bit `r` of byte `j` in memory. -/
theorem testBit_toMem (hj : j < k) (v : BitVec (8 * k)) (hr : r < 8) :
    ((toMem k v).getD j 0).toNat.testBit r = v.getLsbD (8 * j + r) :=
  testBit_leBytes hj v.toNat hr

/-- The byte swap, bit by bit. -/
theorem getLsbD_byteswap (k : Nat) (v : BitVec (8 * k)) {i : Nat} (hi : i < 8 * k) :
    (byteswap k v).getLsbD i = v.getLsbD (8 * (k - 1 - i / 8) + i % 8) := by
  have hlen : (toMem k v).reverse.length = k := by simp
  have hj : i / 8 < (toMem k v).length := by
    rw [length_toMem]
    omega
  have hback : (toMem k v).reverse.getD (i / 8) 0 = (toMem k v).getD (k - 1 - i / 8) 0 := by
    rw [List.getD_eq_getElem?_getD, List.getElem?_reverse hj, length_toMem,
      List.getD_eq_getElem?_getD]
  show (byteswap k v).toNat.testBit i = _
  rw [byteswap, toNat_ofMem hlen, testBit_ofLeBytes, hback,
    testBit_toMem (by omega) v (Nat.mod_lt i (by decide))]

theorem byteswap_and (k : Nat) (u v : BitVec (8 * k)) :
    byteswap k (u &&& v) = byteswap k u &&& byteswap k v := by
  refine BitVec.eq_of_getLsbD_eq fun i hi => ?_
  rw [BitVec.getLsbD_and, getLsbD_byteswap k _ hi, getLsbD_byteswap k _ hi,
    getLsbD_byteswap k _ hi, BitVec.getLsbD_and]

theorem byteswap_or (k : Nat) (u v : BitVec (8 * k)) :
    byteswap k (u ||| v) = byteswap k u ||| byteswap k v := by
  refine BitVec.eq_of_getLsbD_eq fun i hi => ?_
  rw [BitVec.getLsbD_or, getLsbD_byteswap k _ hi, getLsbD_byteswap k _ hi,
    getLsbD_byteswap k _ hi, BitVec.getLsbD_or]

theorem byteswap_not (k : Nat) (v : BitVec (8 * k)) : byteswap k (~~~v) = ~~~byteswap k v := by
  refine BitVec.eq_of_getLsbD_eq fun i hi => ?_
  have hback : 8 * (k - 1 - i / 8) + i % 8 < 8 * k := by omega
  rw [BitVec.getLsbD_not, getLsbD_byteswap k _ hi, getLsbD_byteswap k _ hi,
    BitVec.getLsbD_not, decide_eq_true hi, decide_eq_true hback]

/-! ## Seven bits a byte -/

/-- The variable-length code of `n` in at most `room` bytes. -/
def leb : Nat → Nat → Option (List UInt8)
  | 0, _ => none
  | room + 1, n =>
    if n < 128 then some [UInt8.ofNat n]
    else (leb room (n / 128)).map (UInt8.ofNat (n % 128 + 128) :: ·)

/-- Below `128^room` the code fits, and takes between one and `room` bytes. -/
theorem leb_fits (hn : n < 128 ^ room) (h : 0 < room) :
    ∃ bs, leb room n = some bs ∧ 1 ≤ bs.length ∧ bs.length ≤ room := by
  induction room generalizing n with
  | zero => exact absurd h (Nat.lt_irrefl 0)
  | succ room ih =>
    rw [leb]
    by_cases hsmall : n < 128
    · rw [if_pos hsmall]
      exact ⟨_, rfl, by simp, by simp⟩
    · rw [if_neg hsmall]
      have hroom : 0 < room := by
        rcases Nat.eq_zero_or_pos room with h0 | hpos
        · rw [h0] at hn
          simp only [zero_add, pow_one] at hn
          omega
        · exact hpos
      have hdiv : n / 128 < 128 ^ room := by
        rw [pow_succ] at hn
        exact Nat.div_lt_of_lt_mul (by rw [Nat.mul_comm]; exact hn)
      obtain ⟨bs, hbs, h1, h2⟩ := ih hdiv hroom
      rw [hbs]
      refine ⟨_, rfl, by simp, ?_⟩
      rw [List.length_cons]
      omega

/-- The number of bytes of the code: the digits of `n` to base `128`. -/
def lebLength (n : Nat) : Nat := Nat.log 128 n + 1

theorem length_leb (h : leb room n = some bs) :
    bs.length = lebLength n := by
  induction room generalizing n bs with
  | zero => exact nomatch h
  | succ room ih =>
    rw [leb] at h
    by_cases hsmall : n < 128
    · rw [if_pos hsmall] at h
      cases h
      rw [lebLength, Nat.log_of_lt hsmall]
      rfl
    · rw [if_neg hsmall] at h
      obtain ⟨tl, htl, hbs⟩ := Option.map_eq_some_iff.mp h
      subst hbs
      have hlog : Nat.log 128 n = Nat.log 128 (n / 128) + 1 :=
        Nat.log_of_one_lt_of_le (by decide) (Nat.not_lt.mp hsmall)
      rw [List.length_cons, ih htl, lebLength, lebLength, hlog]

/-! ## Reading seven bits a byte -/

/-- The number in the bytes of a code. -/
def ofLeb : List UInt8 → Nat
  | [] => 0
  | b :: bs => b.toNat % 128 + 128 * ofLeb bs

/-- The code at the front of some bytes, up to the first one without the continuation bit but at
most `room`; `none` if they end before. -/
def lebFront : Nat → List UInt8 → Option (List UInt8)
  | 0, _ => some []
  | _ + 1, [] => none
  | room + 1, b :: bs =>
    if b < 0x80 then some [b] else (lebFront room bs).map (b :: ·)

variable {front : List UInt8} {v : BitVec (w + 1)}

theorem lebFront_spec (h : lebFront room bs = some front) :
    front.length ≤ room ∧ ∃ rest, bs = front ++ rest := by
  induction room generalizing bs front with
  | zero =>
    cases h
    exact ⟨Nat.le_refl _, bs, rfl⟩
  | succ room ih =>
    cases bs with
    | nil => cases h
    | cons b bs =>
      rw [lebFront] at h
      by_cases hlast : b < 0x80
      · rw [if_pos hlast] at h
        cases h
        exact ⟨by simp, bs, rfl⟩
      · rw [if_neg hlast] at h
        obtain ⟨tl, htl, rfl⟩ := Option.map_eq_some_iff.mp h
        obtain ⟨hle, rest, rfl⟩ := ih htl
        exact ⟨Nat.succ_le_succ hle, rest, rfl⟩

theorem lebFront_pos (h : lebFront (room + 1) bs = some front) :
    0 < front.length := by
  cases bs with
  | nil => cases h
  | cons b bs =>
    rw [lebFront] at h
    split at h
    · cases h
      exact Nat.one_pos
    · obtain ⟨tl, -, rfl⟩ := Option.map_eq_some_iff.mp h
      exact Nat.succ_pos _

theorem lebFront_none (h : lebFront room bs = none) : bs.length < room := by
  induction room generalizing bs with
  | zero => cases h
  | succ room ih =>
    cases bs with
    | nil => exact Nat.succ_pos room
    | cons b bs =>
      rw [lebFront] at h
      by_cases hlast : b < 0x80
      · rw [if_pos hlast] at h
        cases h
      · rw [if_neg hlast] at h
        exact Nat.succ_lt_succ (ih (Option.map_eq_none_iff.mp h))

/-- What follows a code does not matter: it is found again, with its number. -/
theorem lebFront_leb (rest : List UInt8) (h : leb room n = some bs) :
    lebFront room (bs ++ rest) = some bs ∧ ofLeb bs = n := by
  induction room generalizing n bs rest with
  | zero => cases h
  | succ room ih =>
    rw [leb] at h
    by_cases hsmall : n < 128
    · rw [if_pos hsmall] at h
      cases h
      have hb : (UInt8.ofNat n).toNat = n := by
        rw [UInt8.toNat_ofNat']
        omega
      have hlast : UInt8.ofNat n < 0x80 := by
        rw [UInt8.lt_iff_toNat_lt, hb]
        exact hsmall
      refine ⟨if_pos hlast, ?_⟩
      rw [ofLeb, ofLeb, hb]
      omega
    · rw [if_neg hsmall] at h
      obtain ⟨tl, htl, rfl⟩ := Option.map_eq_some_iff.mp h
      have hb : (UInt8.ofNat (n % 128 + 128)).toNat = n % 128 + 128 := by
        rw [UInt8.toNat_ofNat']
        omega
      have hmore : ¬ UInt8.ofNat (n % 128 + 128) < 0x80 := by
        rw [UInt8.lt_iff_toNat_lt, hb]
        show ¬ n % 128 + 128 < 128
        omega
      obtain ⟨hfront, hval⟩ := ih rest htl
      refine ⟨?_, ?_⟩
      · rw [List.cons_append, lebFront, if_neg hmore, hfront]
        rfl
      · rw [ofLeb, hval, hb]
        omega

/-- No code is the front part of another one. -/
theorem leb_prefix_free {m : Nat} {a b : List UInt8} (ha : leb room m = some a)
    (hb : leb room n = some b) (h : a <+: b) : m = n := by
  obtain ⟨rest, rfl⟩ := h
  obtain ⟨hfront, hm⟩ := lebFront_leb rest ha
  obtain ⟨hall, hn⟩ := lebFront_leb [] hb
  rw [List.append_nil, hfront] at hall
  rw [← hm, ← hn, ← Option.some.inj hall]

theorem lebLength_le_iff (hk : 0 < k) : lebLength n ≤ k ↔ n < 128 ^ k := by
  rw [lebLength, Nat.succ_le_iff]
  by_cases h0 : n = 0
  · subst h0
    rw [Nat.log_zero_right]
    exact iff_of_true hk (Nat.pow_pos (by decide))
  · exact Nat.log_lt_iff_lt_pow (by decide) h0

/-! ## Signed values -/

/-- `v < 0 ? ((unsigned)(-v)) * 2 - 1 : v * 2`, wrapping around. -/
def zigzag {w : Nat} (v : BitVec w) : BitVec w :=
  if v.msb then (-v) * 2#w - 1#w else v * 2#w

/-- `(v >> 1) ^ -(v & 1)`. -/
def unzigzag {w : Nat} (v : BitVec w) : BitVec w :=
  (v >>> 1) ^^^ -(v &&& 1#w)

/-- The value of `zigzag` on a non-negative number. -/
theorem toNat_zigzag_of_msb_false (h : v.msb = false) :
    (zigzag v).toNat = 2 * v.toNat := by
  have hv : v.toNat < 2 ^ w := by
    have := BitVec.toNat_lt_of_msb_false h
    rwa [Nat.add_sub_cancel] at this
  rw [zigzag, h, if_neg (by decide), BitVec.toNat_mul, BitVec.toNat_ofNat,
    Nat.mul_mod_mod, Nat.mul_comm, Nat.mod_eq_of_lt]
  rw [pow_succ]
  omega

/-- The value of `zigzag` on a negative number, the least one included. -/
theorem toNat_zigzag_of_msb_true (h : v.msb = true) :
    (zigzag v).toNat = 2 * (2 ^ (w + 1) - v.toNat) - 1 := by
  have hlo : 2 ^ w ≤ v.toNat := by
    have := BitVec.le_toNat_of_msb_true h
    rwa [Nat.add_sub_cancel] at this
  have hhi := v.isLt
  have hpow : 2 ^ (w + 1) = 2 * 2 ^ w := by rw [pow_succ, Nat.mul_comm]
  have hone : (1 : Nat) % 2 ^ (w + 1) = 1 := Nat.mod_eq_of_lt (Nat.one_lt_two_pow (by omega))
  have hneg : (-v).toNat = 2 ^ (w + 1) - v.toNat := by
    rw [BitVec.toNat_neg, Nat.mod_eq_of_lt]
    omega
  rw [zigzag, h, if_pos rfl, BitVec.toNat_sub, BitVec.toNat_mul, hneg,
    BitVec.toNat_ofNat, BitVec.toNat_ofNat, hone, Nat.mul_mod_mod]
  -- `2 * (2^(w+1) - v)` wraps only for the least value, where it is `2^(w+1)`
  by_cases hmin : v.toNat = 2 ^ w
  · rw [hmin, hpow]
    have hval : (2 * 2 ^ w - 2 ^ w) * 2 = 2 * 2 ^ w := by omega
    rw [hval, Nat.mod_self, Nat.add_zero, Nat.mod_eq_of_lt (by omega)]
    omega
  · rw [Nat.mod_eq_of_lt (a := (2 ^ (w + 1) - v.toNat) * 2) (by omega)]
    have hsum : 2 ^ (w + 1) - 1 + (2 ^ (w + 1) - v.toNat) * 2
        = 2 * (2 ^ (w + 1) - v.toNat) - 1 + 2 ^ (w + 1) := by omega
    rw [hsum, Nat.add_mod_right, Nat.mod_eq_of_lt (by omega)]

/-- Bit 0 decides which branch of `unzigzag` applies. -/
theorem toNat_and_one (v : BitVec (w + 1)) : (v &&& 1#(w + 1)).toNat = v.toNat % 2 := by
  rw [BitVec.toNat_and, BitVec.toNat_ofNat,
    Nat.mod_eq_of_lt (Nat.one_lt_two_pow (by omega)), Nat.and_one_is_mod]

/-- `unzigzag` undoes `zigzag`, on every value. -/
theorem unzigzag_zigzag (v : BitVec (w + 1)) : unzigzag (zigzag v) = v := by
  have hhi := v.isLt
  cases h : v.msb with
  | false =>
    have hz := toNat_zigzag_of_msb_false h
    have hbit : zigzag v &&& 1#(w + 1) = 0#(w + 1) := by
      apply BitVec.eq_of_toNat_eq
      rw [toNat_and_one, hz, BitVec.toNat_ofNat, Nat.zero_mod]
      omega
    apply BitVec.eq_of_toNat_eq
    rw [unzigzag, hbit, BitVec.neg_zero, BitVec.xor_zero,
      BitVec.toNat_ushiftRight, hz, Nat.shiftRight_eq_div_pow]
    omega
  | true =>
    have hz := toNat_zigzag_of_msb_true h
    have hlo : 2 ^ w ≤ v.toNat := by
      have := BitVec.le_toNat_of_msb_true h
      rwa [Nat.add_sub_cancel] at this
    have hbit : zigzag v &&& 1#(w + 1) = 1#(w + 1) := by
      apply BitVec.eq_of_toNat_eq
      rw [toNat_and_one, hz, BitVec.toNat_ofNat, Nat.mod_eq_of_lt (Nat.one_lt_two_pow (by omega))]
      omega
    apply BitVec.eq_of_toNat_eq
    rw [unzigzag, hbit, BitVec.neg_one_eq_allOnes, BitVec.xor_allOnes, BitVec.toNat_not,
      BitVec.toNat_ushiftRight, hz, Nat.shiftRight_eq_div_pow]
    omega

/-- `zigzag` keeps small numbers small, of either sign. -/
theorem toNat_zigzag_lt_iff (v : BitVec (w + 1)) (j : Nat) :
    (zigzag v).toNat < 2 ^ (j + 1) ↔ -2 ^ j ≤ v.toInt ∧ v.toInt < 2 ^ j := by
  have hhi := v.isLt
  have hpow : (2 : Nat) ^ (j + 1) = 2 * 2 ^ j := by rw [pow_succ, Nat.mul_comm]
  have hcast : ((2 ^ j : Nat) : Int) = 2 ^ j := by norm_cast
  rw [hpow, BitVec.toInt_eq_msb_cond, ← hcast]
  cases h : v.msb with
  | false =>
    rw [toNat_zigzag_of_msb_false h, if_neg Bool.false_ne_true]
    omega
  | true =>
    rw [toNat_zigzag_of_msb_true h, if_pos rfl]
    omega

end ByteCode
