import Sylar.ByteCodeProofs

/-! # Prefixes of IP addresses (`address.cc`)

`subnetMask`, `networkAddress` and `broadcastAddress` of the two address
families, all built on `CreateMask`, the mask of the bits *behind* a prefix.

* `subnetMask` complements that mask and `broadcastAddress` sets its bits: both
  do what they say.  `networkAddress` keeps its bits instead of clearing them, so
  it returns the host part of an address (**`prefix_algebra_iff`**,
  **`prefix_algebra6_iff`**).
* `CreateMask<uint32_t>(0)` shifts an `int` by 32, and a prefix of 128 bits makes
  the three IPv6 functions touch the byte behind the address. -/

namespace SylarAddress

open ByteCode

/-! ## Words and prefixes -/

/-- The word with `p` leading ones. -/
def leading (w p : Nat) : BitVec w := BitVec.allOnes w <<< (w - p)

variable {w p i : Nat} {v : BitVec 8} {f : BitVec 8 → BitVec 8 → BitVec 8}

private theorem getLsbD_leading (hi : i < w) : (leading w p).getLsbD i = !decide (i < w - p) := by
  simp [leading, hi]

theorem getMsbD_leading (hp : p ≤ w) (hi : i < w) : (leading w p).getMsbD i = decide (i < p) := by
  have hback : w - 1 - i < w := by omega
  have hiff : ¬ w - 1 - i < w - p ↔ i < p := by omega
  rw [BitVec.getMsbD, decide_eq_true hi, Bool.true_and, getLsbD_leading hback, ← decide_not]
  exact decide_eq_decide.mpr hiff

/-- Words are compared bit by bit from the front. -/
theorem eq_iff_getMsbD {x y : BitVec w} : x = y ↔ ∀ i < w, x.getMsbD i = y.getMsbD i := by
  constructor
  · rintro rfl i _
    rfl
  · intro h
    exact BitVec.eq_of_getMsbD_eq h

/-- The bits of a prefix and those behind it agree only for zero. -/
theorem and_leading_eq_iff {x : BitVec w} : x &&& ~~~leading w p = x &&& leading w p ↔ x = 0 := by
  constructor
  · intro h
    have hself : x &&& leading w p &&& leading w p = x &&& leading w p := by
      rw [BitVec.and_assoc, BitVec.and_self]
    have hin : x &&& leading w p = 0 := by
      rw [← hself, ← h, BitVec.and_assoc, BitVec.and_comm (~~~_), BitVec.and_not_self]
      exact BitVec.and_zero
    calc x = x &&& leading w p ||| x &&& ~~~leading w p := by
          rw [← BitVec.and_or_distrib_left, BitVec.or_not_self, BitVec.and_allOnes]
      _ = 0 := by rw [h, hin, BitVec.or_self]
  · rintro rfl
    simp

/-- The bits behind a prefix decide what is left when its bits are cleared. -/
theorem and_not_leading_inj {x y : BitVec w} (hp : p ≤ w) :
    x &&& ~~~leading w p = y &&& ~~~leading w p ↔ ∀ i < w, p ≤ i → x.getMsbD i = y.getMsbD i := by
  rw [eq_iff_getMsbD]
  refine forall₂_congr fun i hi => ?_
  rw [BitVec.getMsbD_and, BitVec.getMsbD_and, BitVec.getMsbD_not, decide_eq_true hi,
    Bool.true_and, getMsbD_leading hp hi]
  by_cases hlt : i < p
  · simp [hlt, Nat.not_le.mpr hlt]
  · simp [hlt, Nat.not_lt.mp hlt]

/-! ## The source's functions -/

/-- What the functions must not do. -/
inductive Fault where
  /-- A shift by the width of the type or more. -/
  | shiftWidth
  | outOfBounds
  deriving DecidableEq, Repr

/-- `CreateMask<T>`, `T` unsigned with `w` bits, computed in `int` (`1 << 31` and what is subtracted
from it wrap around). -/
def CreateMask (w : Nat) (bits : UInt32) : Except Fault (BitVec w) :=
  let shift := (UInt64.ofNat w - bits.toUInt64).toNat
  if shift < 32 then .ok (((1#32 <<< shift) - 1#32).setWidth w) else .error .shiftWidth

/-- `endian.h` on a little-endian host. -/
def byteswapOnLittleEndian (k : Nat) (v : BitVec (8 * k)) : BitVec (8 * k) := byteswap k v

def AF_INET : UInt16 := 2
def AF_INET6 : UInt16 := 10

/-- The fields of a `sockaddr_in`, as they stand in memory. -/
structure sockaddr_in where
  sin_family : UInt16
  sin_port : BitVec 16
  s_addr : BitVec 32
  deriving DecidableEq, Repr

namespace IPv4Address

/-- The common body of `broadcastAddress` and `networkAddress`. -/
def combine (op : BitVec 32 → BitVec 32 → BitVec 32) (m_addr : sockaddr_in)
    (prefix_len : UInt32) : Except Fault (Option sockaddr_in) :=
  if prefix_len > 32 then .ok none
  else do
    let mask ← CreateMask 32 prefix_len
    return some { m_addr with s_addr := op m_addr.s_addr (byteswapOnLittleEndian 4 mask) }

def broadcastAddress : sockaddr_in → UInt32 → Except Fault (Option sockaddr_in) :=
  combine (· ||| ·)

def networkAddress : sockaddr_in → UInt32 → Except Fault (Option sockaddr_in) :=
  combine (· &&& ·)

def subnetMask (prefix_len : UInt32) : Except Fault sockaddr_in := do
  let mask ← CreateMask 32 prefix_len
  return { sin_family := AF_INET, sin_port := 0, s_addr := ~~~byteswapOnLittleEndian 4 mask }

end IPv4Address

/-- The fields of a `sockaddr_in6`, as they stand in memory. -/
structure sockaddr_in6 where
  sin6_family : UInt16
  sin6_port : BitVec 16
  sin6_flowinfo : BitVec 32
  s6_addr : Vector (BitVec 8) 16
  sin6_scope_id : BitVec 32
  deriving DecidableEq, Repr

/-- An access to `s6_addr[i]` that changes it by `f`. -/
def update (s6_addr : Vector (BitVec 8) 16) (i : Nat) (f : BitVec 8 → BitVec 8) :
    Except Fault (Vector (BitVec 8) 16) :=
  if h : i < 16 then .ok (s6_addr.set i (f s6_addr[i])) else .error .outOfBounds

/-- A loop that stores `v` at the given indices. -/
def fill (v : BitVec 8) (is : List Nat) (s6_addr : Vector (BitVec 8) 16) :
    Except Fault (Vector (BitVec 8) 16) :=
  is.foldlM (fun s6_addr i => update s6_addr i fun _ => v) s6_addr

namespace IPv6Address

/-- The common body of `broadcastAddress` and `networkAddress`: the boundary byte is combined with
the mask, those behind it are overwritten. -/
def combine (op : BitVec 8 → BitVec 8 → BitVec 8) (v : BitVec 8) (m_addr : sockaddr_in6)
    (prefix_len : UInt32) : Except Fault sockaddr_in6 := do
  let mask ← CreateMask 8 (prefix_len % 8)
  let s6_addr ← update m_addr.s6_addr (prefix_len.toNat / 8) (op · mask)
  let first := prefix_len.toNat / 8 + 1
  let s6_addr ← fill v (List.range' first (16 - first)) s6_addr
  return { m_addr with s6_addr }

def broadcastAddress : sockaddr_in6 → UInt32 → Except Fault sockaddr_in6 :=
  combine (· ||| ·) 0xff

def networkAddress : sockaddr_in6 → UInt32 → Except Fault sockaddr_in6 :=
  combine (· &&& ·) 0x00

def subnetMask (prefix_len : UInt32) : Except Fault sockaddr_in6 := do
  let mask ← CreateMask 8 (prefix_len % 8)
  let s6_addr ← update (Vector.replicate 16 0) (prefix_len.toNat / 8) fun _ => ~~~mask
  let s6_addr ← fill 0xff (List.range (prefix_len.toNat / 8)) s6_addr
  return { sin6_family := AF_INET6, sin6_port := 0, sin6_flowinfo := 0, s6_addr,
           sin6_scope_id := 0 }

end IPv6Address

/-! ## The mask -/

theorem shift_eq {bits : UInt32} (hw : w ≤ 32) (hbits : bits.toNat ≤ w) :
    (UInt64.ofNat w - bits.toUInt64).toNat = w - bits.toNat := by
  have hlt := bits.toNat_lt
  have hw' : (UInt64.ofNat w).toNat = w := by
    rw [UInt64.toNat_ofNat']
    omega
  have hle : bits.toUInt64 ≤ UInt64.ofNat w := by
    rw [UInt64.le_iff_toNat_le, hw', UInt32.toNat_toUInt64]
    exact hbits
  rw [UInt64.toNat_sub_of_le _ _ hle, hw', UInt32.toNat_toUInt64]

theorem getLsbD_low {s : Nat} (hs : s < 32) (hi : i < w) :
    (((1#32 <<< s) - 1#32).setWidth w).getLsbD i = decide (i < s) := by
  have hpos : 0 < 2 ^ s := Nat.two_pow_pos s
  have hlt : 2 ^ s < 2 ^ 32 := Nat.pow_lt_pow_right (by decide) hs
  have hone : (1#32 <<< s).toNat = 2 ^ s := by
    rw [BitVec.toNat_shiftLeft, Nat.shiftLeft_eq]
    show 1 * 2 ^ s % 2 ^ 32 = 2 ^ s
    rw [Nat.one_mul, Nat.mod_eq_of_lt hlt]
  have hsub : ((1#32 <<< s) - 1#32).toNat = 2 ^ s - 1 := by
    rw [BitVec.toNat_sub, hone, BitVec.toNat_ofNat]
    omega
  rw [BitVec.getLsbD_setWidth, decide_eq_true hi, Bool.true_and, ← BitVec.testBit_toNat, hsub,
    Nat.testBit_two_pow_sub_one]

/-- The mask of the bits behind a prefix, unless the shift is as wide as an `int`. -/
theorem CreateMask_eq {bits : UInt32} (hw : w ≤ 32) (hbits : bits.toNat ≤ w) : CreateMask w bits
      = if w - bits.toNat < 32 then .ok (~~~leading w bits.toNat) else .error .shiftWidth := by
  rw [CreateMask, shift_eq hw hbits]
  refine ite_congr rfl (fun hs => ?_) fun _ => rfl
  refine congrArg Except.ok (BitVec.eq_of_getLsbD_eq fun i hi => ?_)
  rw [getLsbD_low hs hi, BitVec.getLsbD_not, getLsbD_leading hi, decide_eq_true hi,
    Bool.true_and, Bool.not_not]

/-! ## IPv4 -/

/-- The address as a number, its first byte in front. -/
def sockaddr_in.value (a : sockaddr_in) : BitVec 32 := byteswap 4 a.s_addr

/-- Another address, with family and port kept. -/
def sockaddr_in.withValue (a : sockaddr_in) (v : BitVec 32) : sockaddr_in :=
  { a with s_addr := byteswap 4 v }

@[simp] theorem value_withValue (a : sockaddr_in) (v : BitVec 32) :
    (a.withValue v).value = v := byteswap_byteswap 4 v

@[simp] theorem withValue_withValue (a : sockaddr_in) (v w : BitVec 32) :
    (a.withValue v).withValue w = a.withValue w := rfl

theorem withValue_inj {a : sockaddr_in} {v w : BitVec 32} :
    a.withValue v = a.withValue w ↔ v = w := by
  constructor
  · intro h
    have hvalue := congrArg sockaddr_in.value h
    rwa [value_withValue, value_withValue] at hvalue
  · rintro rfl
    rfl

/-- `subnetMask(p)` has exactly the `p` leading bits set. -/
def MaskRight (prefix_len : UInt32) : Prop :=
  ∃ m, IPv4Address.subnetMask prefix_len = .ok m ∧ m.sin_family = AF_INET
    ∧ ∀ i < 32, m.value.getMsbD i = decide (i < prefix_len.toNat)

/-- `networkAddress(p)` is the address under the mask. -/
def NetworkRight (a : sockaddr_in) (prefix_len : UInt32) : Prop :=
  IPv4Address.networkAddress a prefix_len
    = .ok (some (a.withValue (a.value &&& leading 32 prefix_len.toNat)))

/-- `broadcastAddress(p)` is the address with the complement of the mask set. -/
def BroadcastRight (a : sockaddr_in) (prefix_len : UInt32) : Prop :=
  IPv4Address.broadcastAddress a prefix_len
    = .ok (some (a.withValue (a.value ||| ~~~leading 32 prefix_len.toNat)))

/-- A second application changes nothing. -/
def Idempotent (f : sockaddr_in → UInt32 → Except Fault (Option sockaddr_in))
    (a : sockaddr_in) (prefix_len : UInt32) : Prop :=
  ∃ n, f a prefix_len = .ok (some n) ∧ f n prefix_len = .ok (some n)

/-- The first `p` bits of two addresses agree. -/
def AgreeInside (a b : sockaddr_in) (p : Nat) : Prop :=
  ∀ i < 32, i < p → a.value.getMsbD i = b.value.getMsbD i

/-- The bits behind the first `p` agree. -/
def AgreeBehind (a b : sockaddr_in) (p : Nat) : Prop :=
  ∀ i < 32, p ≤ i → a.value.getMsbD i = b.value.getMsbD i

/-- Two addresses are in the same network exactly when their first `p` bits agree. -/
def SameNetwork (a b : sockaddr_in) (prefix_len : UInt32) : Prop :=
  ∃ m n, IPv4Address.networkAddress a prefix_len = .ok (some m)
    ∧ IPv4Address.networkAddress b prefix_len = .ok (some n)
    ∧ (m.value = n.value ↔ AgreeInside a b prefix_len.toNat)

section IPv4

variable {prefix_len : UInt32} (hp : prefix_len.toNat ≤ 32)
include hp

private theorem not_gt : ¬ prefix_len > 32 := by
  rw [gt_iff_lt, UInt32.lt_iff_toNat_lt]
  exact Nat.not_lt.mpr hp

theorem mask32 : CreateMask 32 prefix_len
      = if prefix_len = 0 then .error .shiftWidth else .ok (~~~leading 32 prefix_len.toNat) := by
  have hzero : prefix_len = 0 ↔ prefix_len.toNat = 0 := UInt32.toNat_inj.symm
  rw [CreateMask_eq (Nat.le_refl 32) hp]
  by_cases h0 : prefix_len = 0
  · rw [if_pos h0, if_neg (by rw [hzero.mp h0]; decide)]
  · rw [if_neg h0, if_pos (by have := mt hzero.mpr h0; omega)]

theorem combine_eq {op : BitVec 32 → BitVec 32 → BitVec 32}
    (hop : ∀ u v, byteswap 4 (op u v) = op (byteswap 4 u) (byteswap 4 v)) (a : sockaddr_in) :
    IPv4Address.combine op a prefix_len = if prefix_len = 0 then .error .shiftWidth
        else .ok (some (a.withValue (op a.value (~~~leading 32 prefix_len.toNat)))) := by
  rw [IPv4Address.combine, if_neg (not_gt hp), mask32 hp]
  split
  · rfl
  · show Except.ok (some _) = _
    rw [sockaddr_in.withValue, hop, sockaddr_in.value, byteswap_byteswap]
    rfl

private theorem broadcastAddress_eq (a : sockaddr_in) : IPv4Address.broadcastAddress a prefix_len
      = if prefix_len = 0 then .error .shiftWidth
        else .ok (some (a.withValue (a.value ||| ~~~leading 32 prefix_len.toNat))) :=
  combine_eq hp (byteswap_or 4) a

private theorem networkAddress_eq (a : sockaddr_in) : IPv4Address.networkAddress a prefix_len
      = if prefix_len = 0 then .error .shiftWidth
        else .ok (some (a.withValue (a.value &&& ~~~leading 32 prefix_len.toNat))) :=
  combine_eq hp (byteswap_and 4) a

theorem subnetMask_eq : IPv4Address.subnetMask prefix_len
      = if prefix_len = 0 then .error .shiftWidth
        else .ok (sockaddr_in.withValue ⟨AF_INET, 0, 0⟩ (leading 32 prefix_len.toNat)) := by
  rw [IPv4Address.subnetMask, mask32 hp]
  split
  · rfl
  · show Except.ok _ = _
    rw [sockaddr_in.withValue, ← BitVec.not_not (b := leading 32 prefix_len.toNat), byteswap_not,
      BitVec.not_not]
    rfl

theorem maskRight_iff : MaskRight prefix_len ↔ prefix_len ≠ 0 := by
  rw [MaskRight, subnetMask_eq hp]
  by_cases h0 : prefix_len = 0
  · simp [h0]
  · simp only [h0, if_false, ne_eq, not_false_iff, iff_true]
    refine ⟨_, rfl, rfl, fun i hi => ?_⟩
    rw [value_withValue, getMsbD_leading hp hi]

theorem networkRight_iff (a : sockaddr_in) :
    NetworkRight a prefix_len ↔ prefix_len ≠ 0 ∧ a.value = 0 := by
  rw [NetworkRight, networkAddress_eq hp]
  by_cases h0 : prefix_len = 0
  · simp [h0]
  · simp only [h0, if_false, Except.ok.injEq, Option.some.injEq, withValue_inj, and_leading_eq_iff,
      ne_eq, not_false_iff, true_and]

theorem broadcastRight_iff (a : sockaddr_in) : BroadcastRight a prefix_len ↔ prefix_len ≠ 0 := by
  rw [BroadcastRight, broadcastAddress_eq hp]
  by_cases h0 : prefix_len = 0
  · simp [h0]
  · simp [h0]

theorem networkAddress_idempotent_iff (a : sockaddr_in) :
    Idempotent IPv4Address.networkAddress a prefix_len ↔ prefix_len ≠ 0 := by
  simp only [Idempotent, networkAddress_eq hp]
  by_cases h0 : prefix_len = 0
  · simp [h0]
  · simp only [h0, if_false, ne_eq, not_false_iff, iff_true]
    refine ⟨_, rfl, ?_⟩
    rw [value_withValue, withValue_withValue, BitVec.and_assoc, BitVec.and_self]

theorem broadcastAddress_idempotent_iff (a : sockaddr_in) :
    Idempotent IPv4Address.broadcastAddress a prefix_len ↔ prefix_len ≠ 0 := by
  simp only [Idempotent, broadcastAddress_eq hp]
  by_cases h0 : prefix_len = 0
  · simp [h0]
  · simp only [h0, if_false, ne_eq, not_false_iff, iff_true]
    refine ⟨_, rfl, ?_⟩
    rw [value_withValue, withValue_withValue, BitVec.or_assoc, BitVec.or_self]

/-- The network address keeps the bits behind the prefix, so these are what it compares. -/
theorem sameNetwork_iff (a b : sockaddr_in) : SameNetwork a b prefix_len ↔ prefix_len ≠ 0
        ∧ (AgreeBehind a b prefix_len.toNat ↔ AgreeInside a b prefix_len.toNat) := by
  simp only [SameNetwork, networkAddress_eq hp]
  by_cases h0 : prefix_len = 0
  · simp [h0]
  · simp only [h0, if_false, ne_eq, not_false_iff, true_and]
    constructor
    · rintro ⟨m, n, hm, hn, hiff⟩
      cases hm
      cases hn
      rw [value_withValue, value_withValue, and_not_leading_inj hp] at hiff
      exact hiff
    · intro hiff
      refine ⟨_, _, rfl, rfl, ?_⟩
      rw [value_withValue, value_withValue, and_not_leading_inj hp]
      exact hiff

/-- **The algebra of IPv4 prefixes.** Mask and broadcast address are right for every prefix but the
empty one; the network address for the address zero only. -/
theorem prefix_algebra_iff (a b : sockaddr_in) :
    (CreateMask 32 prefix_len ≠ .error .shiftWidth ↔ prefix_len ≠ 0)
      ∧ (MaskRight prefix_len ↔ prefix_len ≠ 0)
      ∧ (NetworkRight a prefix_len ↔ prefix_len ≠ 0 ∧ a.value = 0)
      ∧ (BroadcastRight a prefix_len ↔ prefix_len ≠ 0)
      ∧ (Idempotent IPv4Address.networkAddress a prefix_len ↔ prefix_len ≠ 0)
      ∧ (Idempotent IPv4Address.broadcastAddress a prefix_len ↔ prefix_len ≠ 0)
      ∧ (SameNetwork a b prefix_len ↔ prefix_len ≠ 0
            ∧ (AgreeBehind a b prefix_len.toNat ↔ AgreeInside a b prefix_len.toNat)) := by
  refine ⟨?_, maskRight_iff hp, networkRight_iff hp a, broadcastRight_iff hp a,
    networkAddress_idempotent_iff hp a, broadcastAddress_idempotent_iff hp a,
    sameNetwork_iff hp a b⟩
  rw [mask32 hp]
  by_cases h0 : prefix_len = 0
  · simp [h0]
  · simp [h0]

end IPv4

/-- 192.168.1.77, as it stands in memory. -/
def office : sockaddr_in := ⟨AF_INET, 0x5000, 0x4d01a8c0⟩

theorem prefix_algebra_iff_office :
    MaskRight 24 ∧ BroadcastRight office 24 ∧ ¬ NetworkRight office 24 := by
  have h := prefix_algebra_iff (show (24 : UInt32).toNat ≤ 32 by decide) office office
  refine ⟨h.2.1.mpr (by decide), h.2.2.2.1.mpr (by decide), fun hright => ?_⟩
  exact absurd (h.2.2.1.mp hright).2 (by decide)

/-- **`networkAddress` returns the host part**: 0.0.0.77 for 192.168.1.77/24; and a prefix of 0 bits
shifts by 32. -/
theorem network_is_host_part : office.value = 0xc0a8014d
      ∧ IPv4Address.networkAddress office 24 = .ok (some (office.withValue 0x0000004d))
      ∧ office.withValue 0x0000004d ≠ office.withValue 0xc0a80100
      ∧ IPv4Address.networkAddress office 0 = .error .shiftWidth
      ∧ IPv4Address.broadcastAddress office 0 = .error .shiftWidth
      ∧ IPv4Address.subnetMask 0 = .error .shiftWidth := by
  decide +kernel

/-! ## IPv6 -/

/-- Byte `j` of the address. -/
def sockaddr_in6.byte (a : sockaddr_in6) (j : Nat) : BitVec 8 := a.s6_addr[j]?.getD 0

/-- Bit `i` of the address, counted from the front. -/
def sockaddr_in6.bit (a : sockaddr_in6) (i : Nat) : Bool := (a.byte (i / 8)).getMsbD (i % 8)

theorem fill_spec {is : List Nat} (his : ∀ i ∈ is, i < 16) (s : Vector (BitVec 8) 16) :
    ∃ s', fill v is s = .ok s' ∧ ∀ j : Nat, s'[j]? = if j ∈ is then some v else s[j]? := by
  induction is generalizing s with
  | nil =>
    refine ⟨s, rfl, fun j => ?_⟩
    simp
  | cons i is ih =>
    have hi : i < 16 := his i List.mem_cons_self
    obtain ⟨s', hfill, hs'⟩ := ih (fun k hk => his k (List.mem_cons_of_mem _ hk)) (s.set i v)
    refine ⟨s', ?_, fun j => ?_⟩
    · rw [fill, List.foldlM_cons, update, dif_pos hi]
      exact hfill
    · rw [hs' j, Vector.getElem?_set]
      by_cases hj : j ∈ is
      · simp [hj]
      · by_cases hij : i = j
        · simp [hij]
        · simp [hj, hij, Ne.symm hij]

private theorem mask8 (prefix_len : UInt32) :
    CreateMask 8 (prefix_len % 8) = .ok (~~~leading 8 (prefix_len.toNat % 8)) := by
  have hmod : (prefix_len % 8).toNat = prefix_len.toNat % 8 := UInt32.toNat_mod ..
  rw [CreateMask_eq (by decide) (by omega), hmod, if_pos (by omega)]

private theorem ones8 : ∀ r < 8, (0xff : BitVec 8).getMsbD r = true := by decide

private theorem zeros8 : ∀ r < 8, (0x00 : BitVec 8).getMsbD r = false := by decide

/-- `subnetMask(p)` has exactly the `p` leading bits set. -/
def MaskRight6 (prefix_len : UInt32) : Prop :=
  ∃ m, IPv6Address.subnetMask prefix_len = .ok m
    ∧ ∀ i < 128, m.bit i = decide (i < prefix_len.toNat)

/-- `networkAddress(p)` keeps the first `p` bits and clears the rest. -/
def NetworkRight6 (a : sockaddr_in6) (prefix_len : UInt32) : Prop :=
  ∃ n, IPv6Address.networkAddress a prefix_len = .ok n
    ∧ ∀ i < 128, n.bit i = (a.bit i && decide (i < prefix_len.toNat))

/-- `broadcastAddress(p)` keeps the first `p` bits and sets the rest. -/
def BroadcastRight6 (a : sockaddr_in6) (prefix_len : UInt32) : Prop :=
  ∃ n, IPv6Address.broadcastAddress a prefix_len = .ok n
    ∧ ∀ i < 128, n.bit i = (a.bit i || decide (prefix_len.toNat ≤ i))

section IPv6

variable {prefix_len : UInt32}

/-- The bytes in front of the boundary, at it, and behind it. -/
theorem combine_bytes (hp : prefix_len.toNat < 128) (a : sockaddr_in6) :
    ∃ n, IPv6Address.combine f v a prefix_len = .ok n ∧ ∀ j < 16, n.byte j
          = if j < prefix_len.toNat / 8 then a.byte j
            else if j = prefix_len.toNat / 8 then
              f (a.byte j) (~~~leading 8 (prefix_len.toNat % 8))
            else v := by
  have hk : prefix_len.toNat / 8 < 16 := by omega
  have hinside : ∀ i ∈ List.range' (prefix_len.toNat / 8 + 1) (16 - (prefix_len.toNat / 8 + 1)),
      i < 16 := by
    intro i hi
    rw [List.mem_range'_1] at hi
    omega
  obtain ⟨s', hfill, hs'⟩ := fill_spec (v := v) hinside (a.s6_addr.set (prefix_len.toNat / 8)
      (f a.s6_addr[prefix_len.toNat / 8] (~~~leading 8 (prefix_len.toNat % 8))))
  refine ⟨{ a with s6_addr := s' }, ?_, fun j hj => ?_⟩
  · rw [IPv6Address.combine, mask8]
    simp only [bind, Except.bind, update, dif_pos hk, hfill]
    rfl
  · have hmem : j ∈ List.range' (prefix_len.toNat / 8 + 1) (16 - (prefix_len.toNat / 8 + 1))
        ↔ prefix_len.toNat / 8 < j := by
      rw [List.mem_range'_1]
      omega
    rw [sockaddr_in6.byte, hs' j, Vector.getElem?_set]
    rcases Nat.lt_trichotomy j (prefix_len.toNat / 8) with hlt | heq | hgt
    · rw [if_neg (mt hmem.mp (by omega)), if_neg (by omega), if_pos hlt]
      rfl
    · rw [if_neg (mt hmem.mp (by omega)), if_pos heq.symm, if_neg (by omega), if_pos heq]
      simp [sockaddr_in6.byte, heq, hk]
    · rw [if_pos (hmem.mpr hgt), if_neg (by omega), if_neg (by omega)]
      rfl

/-- The bits of the result, for an operation that works bit by bit. -/
theorem combine_bits {g : Bool → Bool → Bool}
    (hop : ∀ x y r, (f x y).getMsbD r = g (x.getMsbD r) (y.getMsbD r)) {b : Bool}
    (hv : ∀ r < 8, v.getMsbD r = b) (hp : prefix_len.toNat < 128) (a : sockaddr_in6) :
    ∃ n, IPv6Address.combine f v a prefix_len = .ok n ∧ ∀ i < 128, n.bit i
          = if i / 8 < prefix_len.toNat / 8 then a.bit i
            else if i / 8 = prefix_len.toNat / 8 then
              g (a.bit i) (decide (prefix_len.toNat ≤ i))
            else b := by
  obtain ⟨n, hn, hbytes⟩ := combine_bytes (f := f) (v := v) hp a
  refine ⟨n, hn, fun i hi => ?_⟩
  have hr : i % 8 < 8 := Nat.mod_lt i (by decide)
  rw [sockaddr_in6.bit, hbytes (i / 8) (by omega), sockaddr_in6.bit]
  split_ifs with hlt heq
  · rfl
  · have hiff : (¬ i % 8 < prefix_len.toNat % 8) ↔ prefix_len.toNat ≤ i := by omega
    rw [hop, BitVec.getMsbD_not, decide_eq_true hr, Bool.true_and,
      getMsbD_leading (by omega) hr, ← decide_not, decide_eq_decide.mpr hiff]
  · exact hv _ hr

theorem subnetMask6_bits (hp : prefix_len.toNat < 128) :
    ∃ m, IPv6Address.subnetMask prefix_len = .ok m
      ∧ ∀ i < 128, m.bit i = decide (i < prefix_len.toNat) := by
  have hk : prefix_len.toNat / 8 < 16 := by omega
  have hinside : ∀ i ∈ List.range (prefix_len.toNat / 8), i < 16 := by
    intro i hi
    rw [List.mem_range] at hi
    omega
  obtain ⟨s', hfill, hs'⟩ := fill_spec (v := 0xff) hinside
    ((Vector.replicate 16 0).set (prefix_len.toNat / 8) (~~~(~~~leading 8 (prefix_len.toNat % 8))))
  refine ⟨⟨AF_INET6, 0, 0, s', 0⟩, ?_, fun i hi => ?_⟩
  · rw [IPv6Address.subnetMask, mask8]
    simp only [bind, Except.bind, update, dif_pos hk, hfill]
    rfl
  · have hr : i % 8 < 8 := Nat.mod_lt i (by decide)
    rw [sockaddr_in6.bit, sockaddr_in6.byte, hs' (i / 8), Vector.getElem?_set, BitVec.not_not]
    rcases Nat.lt_trichotomy (i / 8) (prefix_len.toNat / 8) with hlt | heq | hgt
    · rw [if_pos (List.mem_range.mpr hlt), decide_eq_true (show i < prefix_len.toNat by omega)]
      exact ones8 _ hr
    · have hiff : i % 8 < prefix_len.toNat % 8 ↔ i < prefix_len.toNat := by omega
      rw [if_neg (mt List.mem_range.mp (by omega)), if_pos heq.symm, Option.getD_some,
        getMsbD_leading (by omega) hr, decide_eq_decide.mpr hiff]
    · have hzero : (Vector.replicate 16 (0 : BitVec 8))[i / 8]? = some 0 := by
        rw [Vector.getElem?_replicate, if_pos (by omega)]
      rw [if_neg (mt List.mem_range.mp (by omega)), if_neg (by omega), hzero,
        decide_eq_false (show ¬ i < prefix_len.toNat by omega)]
      exact BitVec.getMsbD_zero

/-- A prefix of 128 bits has its boundary behind the last byte. -/
theorem update_behind (s : Vector (BitVec 8) 16) (f : BitVec 8 → BitVec 8)
    (hp : ¬ prefix_len.toNat < 128) :
    update s (prefix_len.toNat / 8) f = .error .outOfBounds := by
  rw [update, dif_neg (by omega)]

theorem maskRight6_iff : MaskRight6 prefix_len ↔ prefix_len.toNat < 128 := by
  constructor
  · rintro ⟨m, hm, -⟩
    by_contra hp
    rw [IPv6Address.subnetMask, mask8] at hm
    simp only [bind, Except.bind, update_behind _ _ hp] at hm
    cases hm
  · exact subnetMask6_bits

theorem combine_behind {a n : sockaddr_in6}
    (h : IPv6Address.combine f v a prefix_len = .ok n) : prefix_len.toNat < 128 := by
  by_contra hp
  rw [IPv6Address.combine, mask8] at h
  simp only [bind, Except.bind, update_behind _ _ hp] at h
  cases h

theorem broadcastRight6_iff (a : sockaddr_in6) :
    BroadcastRight6 a prefix_len ↔ prefix_len.toNat < 128 := by
  constructor
  · rintro ⟨n, hn, -⟩
    exact combine_behind hn
  · intro hp
    obtain ⟨n, hn, hbits⟩ := combine_bits (fun _ _ _ => BitVec.getMsbD_or) ones8 hp a
    refine ⟨n, hn, fun i hi => ?_⟩
    rw [hbits i hi]
    split_ifs with hlt heq
    · simp [show ¬ prefix_len.toNat ≤ i by omega]
    · rfl
    · simp [show prefix_len.toNat ≤ i by omega]

/-- The byte of the boundary is the one that comes out wrong. -/
theorem networkRight6_iff (a : sockaddr_in6) : NetworkRight6 a prefix_len
      ↔ prefix_len.toNat < 128 ∧ a.byte (prefix_len.toNat / 8) = 0#8 := by
  constructor
  · rintro ⟨n, hn, hright⟩
    have hp := combine_behind hn
    obtain ⟨n', hn', hbits⟩ := combine_bits (fun _ _ _ => BitVec.getMsbD_and) zeros8 hp a
    obtain rfl : n = n' := Except.ok.inj (hn.symm.trans hn')
    refine ⟨hp, BitVec.eq_of_getMsbD_eq fun r hr => ?_⟩
    -- the bit at `r` of the boundary byte is kept by one side and cleared by the other
    have hi : 8 * (prefix_len.toNat / 8) + r < 128 := by omega
    have hdiv : (8 * (prefix_len.toNat / 8) + r) / 8 = prefix_len.toNat / 8 := by omega
    have hmod : (8 * (prefix_len.toNat / 8) + r) % 8 = r := by omega
    have hbit := (hbits _ hi).symm.trans (hright _ hi)
    rw [if_neg (by omega), if_pos hdiv, sockaddr_in6.bit, hdiv, hmod] at hbit
    rw [BitVec.getMsbD_zero]
    by_cases hle : prefix_len.toNat ≤ 8 * (prefix_len.toNat / 8) + r
    · rwa [decide_eq_true hle, decide_eq_false (Nat.not_lt.mpr hle), Bool.and_true,
        Bool.and_false] at hbit
    · rw [decide_eq_false hle, decide_eq_true (Nat.not_le.mp hle), Bool.and_true,
        Bool.and_false] at hbit
      exact hbit.symm
  · rintro ⟨hp, hzero⟩
    obtain ⟨n, hn, hbits⟩ := combine_bits (fun _ _ _ => BitVec.getMsbD_and) zeros8 hp a
    refine ⟨n, hn, fun i hi => ?_⟩
    rw [hbits i hi]
    split_ifs with hlt heq
    · simp [show i < prefix_len.toNat by omega]
    · have hbit : a.bit i = false := by
        rw [sockaddr_in6.bit, heq, hzero, BitVec.getMsbD_zero]
      rw [hbit, Bool.false_and, Bool.false_and]
    · simp [show ¬ i < prefix_len.toNat by omega]

/-- **The algebra of IPv6 prefixes.** Mask and broadcast address are right if the boundary lies
inside the address; the network address only if, besides, the boundary byte is zero. -/
theorem prefix_algebra6_iff (a : sockaddr_in6) (prefix_len : UInt32) :
    (MaskRight6 prefix_len ↔ prefix_len.toNat < 128) ∧ (NetworkRight6 a prefix_len
          ↔ prefix_len.toNat < 128 ∧ a.byte (prefix_len.toNat / 8) = 0#8)
      ∧ (BroadcastRight6 a prefix_len ↔ prefix_len.toNat < 128) :=
  ⟨maskRight6_iff, networkRight6_iff a, broadcastRight6_iff a⟩

end IPv6

/-- 2001:db8:1234:5678::1, as it stands in memory. -/
def documented : sockaddr_in6 :=
  ⟨AF_INET6, 0x5000, 0, #v[0x20, 0x01, 0x0d, 0xb8, 0x12, 0x34, 0x56, 0x78,
    0, 0, 0, 0, 0, 0, 0, 1], 0⟩

/-- **The network of 2001:db8:1234:5678::1/52** keeps the bits of 0x56 behind the prefix and drops
those in front; and a prefix of 128 bits leaves the array. -/
theorem network6_keeps_host_bits :
    (∃ n, IPv6Address.networkAddress documented 52 = .ok n ∧ n.byte 6 = 0x06)
      ∧ documented.byte 6 = 0x56
      ∧ IPv6Address.networkAddress documented 128 = .error .outOfBounds
      ∧ IPv6Address.broadcastAddress documented 128 = .error .outOfBounds
      ∧ IPv6Address.subnetMask 128 = .error .outOfBounds := by
  refine ⟨⟨_, rfl, by decide⟩, by decide, by decide, by decide, by decide⟩

end SylarAddress
