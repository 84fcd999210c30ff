import Mathlib.Data.List.Lex

/-! # The order of addresses (`address.cc`)

`Address::operator<` compares the common length with `memcmp` and then the lengths:
this is the lexicographic order of the raw bytes, whatever the kinds of the addresses.

* **`operatorLess_iff`**, **`operatorEq_iff`** — the operators on the raw bytes.
* **`address_order`** — `<` is a strict order, total up to `==`. -/

namespace SylarAddressOrder

/-! ## The code -/

/-- The kinds of addresses, each with the bytes of its `m_addr`. -/
inductive Address where
  | IPv4 (m_addr : Vector UInt8 16)
  | IPv6 (m_addr : Vector UInt8 28)
  | Unix (m_addr : Vector UInt8 110) (m_length : Fin 111)
  | Unknown (m_addr : Vector UInt8 16)
  deriving DecidableEq

/-- `getAddr()`, as bytes. -/
def Address.getAddr : Address → List UInt8
  | .IPv4 m_addr => m_addr.toList
  | .IPv6 m_addr => m_addr.toList
  | .Unix m_addr _ => m_addr.toList
  | .Unknown m_addr => m_addr.toList

def Address.getAddrLen : Address → Nat
  | .IPv4 _ => 16
  | .IPv6 _ => 28
  | .Unix _ m_length => m_length
  | .Unknown _ => 16

/-- `memcmp`: the difference of the first bytes that differ. -/
def memcmp : List UInt8 → List UInt8 → Nat → Int
  | a :: as, b :: bs, n + 1 => if a = b then memcmp as bs n else (a.toNat : Int) - b.toNat
  | _, _, _ => 0

/-- `Address::operator<`. -/
def operatorLess (lhs rhs : Address) : Bool :=
  let minlen := min lhs.getAddrLen rhs.getAddrLen
  let result := memcmp lhs.getAddr rhs.getAddr minlen
  if result < 0 then true
  else if result > 0 then false
  else if lhs.getAddrLen < rhs.getAddrLen then true
  else false

/-- `Address::operator==`. -/
def operatorEq (lhs rhs : Address) : Bool :=
  lhs.getAddrLen == rhs.getAddrLen && memcmp lhs.getAddr rhs.getAddr lhs.getAddrLen == 0

/-- `Address::operator!=`. -/
def operatorNe (lhs rhs : Address) : Bool := !operatorEq lhs rhs

/-! ## The raw bytes -/

/-- The bytes up to the length, as numbers. -/
def Address.raw (a : Address) : List Nat := (a.getAddr.take a.getAddrLen).map UInt8.toNat

theorem Address.getAddrLen_le (a : Address) : a.getAddrLen ≤ a.getAddr.length := by
  cases a with
  | Unix m_addr m_length => simpa [getAddr, getAddrLen] using Nat.le_of_lt_succ m_length.2
  | _ => simp [getAddr, getAddrLen]

theorem Address.length_raw (a : Address) : a.raw.length = a.getAddrLen := by
  simp [raw, a.getAddrLen_le]

/-- The sign of `memcmp`, and then the lengths, compare lexicographically. -/
theorem memcmp_less_iff {xs ys : List UInt8} {k l : Nat} (hk : k ≤ xs.length)
    (hl : l ≤ ys.length) :
    memcmp xs ys (min k l) < 0 ∨ memcmp xs ys (min k l) = 0 ∧ k < l
      ↔ (xs.take k).map UInt8.toNat < (ys.take l).map UInt8.toNat := by
  induction k generalizing xs ys l with
  | zero =>
    cases l with
    | zero => simp [memcmp]
    | succ l =>
      obtain ⟨y, ys, rfl⟩ := List.exists_cons_of_length_pos (Nat.zero_lt_of_lt hl)
      simp [memcmp]
  | succ k ih =>
    obtain ⟨x, xs, rfl⟩ := List.exists_cons_of_length_pos (Nat.zero_lt_of_lt hk)
    cases l with
    | zero => simp [memcmp]
    | succ l =>
      obtain ⟨y, ys, rfl⟩ := List.exists_cons_of_length_pos (Nat.zero_lt_of_lt hl)
      rw [Nat.succ_min_succ, memcmp, List.take_succ_cons, List.take_succ_cons, List.map_cons,
        List.map_cons, List.cons_lt_cons_iff]
      by_cases hxy : x = y
      · -- equal bytes: the rest decides
        simpa [hxy] using ih (Nat.le_of_succ_le_succ hk) (Nat.le_of_succ_le_succ hl)
      · have hne : x.toNat ≠ y.toNat := fun h => hxy (UInt8.toNat_inj.mp h)
        simp only [if_neg hxy, hne, false_and, or_false]
        omega

theorem memcmp_eq_zero_iff {xs ys : List UInt8} {k : Nat} (hx : k ≤ xs.length)
    (hy : k ≤ ys.length) :
    memcmp xs ys k = 0 ↔ (xs.take k).map UInt8.toNat = (ys.take k).map UInt8.toNat := by
  induction k generalizing xs ys with
  | zero => simp [memcmp]
  | succ k ih =>
    obtain ⟨x, xs, rfl⟩ := List.exists_cons_of_length_pos (Nat.zero_lt_of_lt hx)
    obtain ⟨y, ys, rfl⟩ := List.exists_cons_of_length_pos (Nat.zero_lt_of_lt hy)
    rw [memcmp, List.take_succ_cons, List.take_succ_cons, List.map_cons, List.map_cons,
      List.cons.injEq]
    by_cases hxy : x = y
    · simpa [hxy] using ih (Nat.le_of_succ_le_succ hx) (Nat.le_of_succ_le_succ hy)
    · have hne : x.toNat ≠ y.toNat := fun h => hxy (UInt8.toNat_inj.mp h)
      simp only [if_neg hxy, hne, false_and, iff_false]
      omega

/-- **`<` is the lexicographic order of the raw bytes.** -/
theorem operatorLess_iff (a b : Address) : operatorLess a b = true ↔ a.raw < b.raw := by
  rw [Address.raw, Address.raw, ← memcmp_less_iff a.getAddrLen_le b.getAddrLen_le, operatorLess]
  split_ifs <;> simp <;> omega

/-- **`==` is the equality of the raw bytes.** -/
theorem operatorEq_iff (a b : Address) : operatorEq a b = true ↔ a.raw = b.raw := by
  rw [operatorEq, Bool.and_eq_true, beq_iff_eq, beq_iff_eq]
  constructor
  · rintro ⟨hlen, hcmp⟩
    rw [memcmp_eq_zero_iff a.getAddrLen_le (hlen ▸ b.getAddrLen_le)] at hcmp
    rw [Address.raw, hcmp, hlen, Address.raw]
  · intro h
    have hlen : a.getAddrLen = b.getAddrLen := by rw [← a.length_raw, h, b.length_raw]
    refine ⟨hlen, (memcmp_eq_zero_iff a.getAddrLen_le (hlen ▸ b.getAddrLen_le)).mpr ?_⟩
    rw [Address.raw, Address.raw, ← hlen] at h
    exact h

/-- **Addresses are ordered**: `<` is irreflexive and transitive, and of `a < b`, `b < a` and
`a == b` exactly one holds. -/
theorem address_order (a b c : Address) :
    operatorLess a a = false
      ∧ (operatorLess a b = true → operatorLess b c = true → operatorLess a c = true)
      ∧ ((operatorLess a b = true ∧ operatorLess b a = false ∧ operatorNe a b = true)
        ∨ (operatorLess a b = false ∧ operatorLess b a = true ∧ operatorNe a b = true)
        ∨ (operatorLess a b = false ∧ operatorLess b a = false ∧ operatorEq a b = true)) := by
  simp only [operatorNe, Bool.not_eq_true', ← Bool.not_eq_true, operatorLess_iff, operatorEq_iff]
  refine ⟨lt_irrefl _, lt_trans, ?_⟩
  rcases lt_trichotomy a.raw b.raw with h | h | h
  · exact Or.inl ⟨h, h.not_gt, h.ne⟩
  · exact Or.inr (Or.inr ⟨h.not_lt, h.not_gt, h⟩)
  · exact Or.inr (Or.inl ⟨h.not_gt, h, h.ne'⟩)

end SylarAddressOrder
