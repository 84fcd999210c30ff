import Sylar.AddressPrefixProofs

/-! # The text form of an IPv6 address (`address.cc`)

`IPv6Address::insert` writes the eight groups of an address in hexadecimal and
the first run of zero groups as `::`, decided in one pass with a flag and a look
at the group before.

* **`text_form_reads_back`** — what stands between the brackets is read back as the eight groups. -/

namespace SylarAddress

open ByteCode List

/-! ## The text form (RFC 4291, section 2.2) -/

/-- The value of a hexadecimal digit. -/
def hexValue (c : Char) : Option Nat :=
  if '0' ≤ c ∧ c ≤ '9' then some (c.toNat - 48)
  else if 'a' ≤ c ∧ c ≤ 'f' then some (c.toNat - 87)
  else if 'A' ≤ c ∧ c ≤ 'F' then some (c.toNat - 55)
  else none

/-- A group: one to four hexadecimal digits. -/
def readGroup (s : List Char) : Option Nat :=
  if s = [] ∨ 4 < s.length then none
  else s.foldlM (fun n c => (hexValue c).map (16 * n + ·)) 0

/-- Groups with a colon between them. -/
def readGroups (s : List Char) : Option (List Nat) :=
  if s = [] then some [] else (s.splitOn ':').mapM readGroup

/-- The text in front of the first `::` and the text behind it. -/
def breakDouble : List Char → Option (List Char × List Char)
  | [] => none
  | c :: rest =>
    if c = ':' ∧ rest.head? = some ':' then some ([], rest.tail)
    else (breakDouble rest).map fun lr => (c :: lr.1, lr.2)

/-- The eight groups of a text form; `::` stands for one or more groups of zeros. -/
def readText (s : List Char) : Option (List Nat) :=
  match breakDouble s with
  | none => (readGroups s).filter fun gs => gs.length = 8
  | some (l, r) => do
    let gl ← readGroups l
    let gr ← readGroups r
    if gl.length + gr.length < 8 then
      some (gl ++ List.replicate (8 - (gl.length + gr.length)) 0 ++ gr)
    else none

/-- The number of places with two colons. -/
def doubles : List Char → Nat
  | [] => 0
  | c :: rest => (if c = ':' ∧ rest.head? = some ':' then 1 else 0) + doubles rest

/-! ## The source's function -/

/-- `addr[i]` of the array of `uint16_t` that starts at `s6_addr`. -/
def sockaddr_in6.word (a : sockaddr_in6) (i : Nat) : BitVec 16 :=
  ofMem 2 [⟨a.byte (2 * i)⟩, ⟨a.byte (2 * i + 1)⟩]

/-- A number after `std::hex`. -/
def hex (n : Nat) : List Char := Nat.toDigits 16 n

def decimal (n : Nat) : List Char := Nat.toDigits 10 n

/-- The body of the loop; the state is what has been written, and `used_zeros`. -/
def insertStep (addr : Nat → BitVec 16) (st : List Char × Bool) (i : Nat) : List Char × Bool :=
  if addr i = 0 ∧ st.2 = false then st
  else
    let st := if i ≠ 0 ∧ addr (i - 1) = 0 ∧ st.2 = false then (st.1 ++ [':'], true) else st
    let os := if i ≠ 0 then st.1 ++ [':'] else st.1
    (os ++ hex (byteswapOnLittleEndian 2 (addr i)).toNat, st.2)

/-- `IPv6Address::insert`. -/
def IPv6Address.insert (m_addr : sockaddr_in6) : List Char :=
  let st := (List.range 8).foldl (insertStep m_addr.word) (['['], false)
  let os := if st.2 = false ∧ m_addr.word 7 = 0 then st.1 ++ [':', ':'] else st.1
  os ++ [']', ':'] ++ decimal (byteswapOnLittleEndian 2 m_addr.sin6_port).toNat

/-! ## Groups -/

/-- Group `i` of the address, its first byte in front. -/
def sockaddr_in6.group (a : sockaddr_in6) (i : Nat) : Nat :=
  256 * (a.byte (2 * i)).toNat + (a.byte (2 * i + 1)).toNat

def sockaddr_in6.groups (a : sockaddr_in6) : List Nat := (List.range 8).map a.group

theorem group_lt (a : sockaddr_in6) (i : Nat) : a.group i < 16 ^ 4 := by
  have h0 := (a.byte (2 * i)).isLt
  have h1 := (a.byte (2 * i + 1)).isLt
  rw [sockaddr_in6.group]
  omega

theorem toNat_word_swapped (a : sockaddr_in6) (i : Nat) :
    (byteswapOnLittleEndian 2 (a.word i)).toNat = a.group i := by
  rw [byteswapOnLittleEndian, sockaddr_in6.word, byteswap_ofMem (k := 2) rfl,
    toNat_ofMem (k := 2) rfl]
  show (a.byte (2 * i + 1)).toNat + 256 * ((a.byte (2 * i)).toNat + 256 * 0) = _
  rw [sockaddr_in6.group]
  omega

theorem word_eq_zero_iff (a : sockaddr_in6) (i : Nat) : a.word i = 0 ↔ a.group i = 0 := by
  have hword : (a.word i).toNat = (a.byte (2 * i)).toNat + 256 * (a.byte (2 * i + 1)).toNat := by
    rw [sockaddr_in6.word, toNat_ofMem (k := 2) rfl]
    show (a.byte (2 * i)).toNat + 256 * ((a.byte (2 * i + 1)).toNat + 256 * 0) = _
    omega
  rw [← BitVec.toNat_inj, hword, sockaddr_in6.group]
  show _ = 0 ↔ _
  omega

variable {a b : sockaddr_in6} {n z : Nat} {gs post pre : List Nat} {s : List Char}

/-- The groups of an address determine it. -/
theorem groups_inj (h : a.groups = b.groups) : a.s6_addr = b.s6_addr := by
  have hgroup : ∀ i < 8, a.group i = b.group i := by
    intro i hi
    exact map_inj_left.mp h i (mem_range.mpr hi)
  have hbyte : ∀ j < 16, a.byte j = b.byte j := by
    intro j hj
    have hg := hgroup (j / 2) (by omega)
    have ha := (a.byte (2 * (j / 2) + 1)).isLt
    have hb := (b.byte (2 * (j / 2) + 1)).isLt
    rw [sockaddr_in6.group, sockaddr_in6.group] at hg
    refine BitVec.eq_of_toNat_eq ?_
    rcases Nat.mod_two_eq_zero_or_one j with h0 | h1
    · rw [show j = 2 * (j / 2) by omega]
      omega
    · rw [show j = 2 * (j / 2) + 1 by omega]
      omega
  refine Vector.ext fun j hj => ?_
  have hj' := hbyte j hj
  simpa only [sockaddr_in6.byte, Vector.getElem?_eq_getElem hj, Option.getD_some] using hj'

/-! ## Hexadecimal digits -/

private theorem digitChar_hex :
    ∀ d < 16, hexValue d.digitChar = some d ∧ d.digitChar ≠ ':' ∧ d.digitChar ≠ ']' := by
  decide

theorem mem_hex {c : Char} (hc : c ∈ hex n) : c ≠ ':' ∧ c ≠ ']' := by
  induction n using Nat.strong_induction_on with
  | _ n ih =>
    rw [hex, Nat.toDigits_eq_if (by decide)] at hc
    split_ifs at hc with hlt
    · obtain rfl := mem_singleton.mp hc
      exact (digitChar_hex n hlt).2
    · rcases mem_append.mp hc with hc | hc
      · exact ih (n / 16) (by omega) hc
      · obtain rfl := mem_singleton.mp hc
        exact (digitChar_hex (n % 16) (Nat.mod_lt n (by decide))).2

theorem fold_hex (n : Nat) :
    (hex n).foldlM (fun n c => (hexValue c).map (16 * n + ·)) 0 = some n := by
  induction n using Nat.strong_induction_on with
  | _ n ih =>
    rw [hex, Nat.toDigits_eq_if (by decide)]
    split_ifs with hlt
    · simp [(digitChar_hex n hlt).1]
    · have hmod := (digitChar_hex (n % 16) (Nat.mod_lt n (by decide))).1
      have hrest := ih (n / 16) (by omega)
      rw [hex] at hrest
      rw [foldlM_append, hrest]
      simp only [bind, Option.bind, foldlM_cons, hmod, Option.map_some, foldlM_nil]
      exact congrArg some (Nat.div_add_mod n 16)

theorem readGroup_hex (hn : n < 16 ^ 4) : readGroup (hex n) = some n := by
  have hlen : (hex n).length ≤ 4 := (Nat.length_toDigits_le_iff (by decide) (by decide)).mpr hn
  rw [readGroup, if_neg, fold_hex]
  rintro (hnil | hlong)
  · exact Nat.toDigits_ne_nil hnil
  · omega

/-! ## Groups with colons between them -/

def join (gs : List Nat) : List Char := [':'].intercalate (gs.map hex)

private theorem join_cons_cons (g g' : Nat) (gs : List Nat) :
    join (g :: g' :: gs) = hex g ++ ':' :: join (g' :: gs) := by
  simp [join]

theorem join_concat (h : gs ≠ []) (g : Nat) :
    join (gs ++ [g]) = join gs ++ ':' :: hex g := by
  induction gs with
  | nil => exact absurd rfl h
  | cons x gs ih =>
    cases gs with
    | nil => simp [join]
    | cons y gs =>
      show join (x :: y :: (gs ++ [g])) = _
      rw [join_cons_cons, join_cons_cons]
      have hrest := ih (cons_ne_nil y gs)
      rw [cons_append] at hrest
      rw [hrest, append_assoc, cons_append]

theorem join_eq_nil_iff : join gs = [] ↔ gs = [] := by
  constructor
  · intro h
    match gs, h with
    | [], _ => rfl
    | [g], h => exact absurd (show hex g = [] by simpa [join] using h) Nat.toDigits_ne_nil
    | g :: g' :: gs, h =>
      rw [join_cons_cons] at h
      simp at h
  · rintro rfl
    rfl

theorem readGroups_join (h : ∀ g ∈ gs, g < 16 ^ 4) :
    readGroups (join gs) = some gs := by
  by_cases hnil : gs = []
  · rw [hnil]
    rfl
  · have hcolon : ∀ l ∈ gs.map hex, ':' ∉ l := by
      intro l hl hmem
      obtain ⟨g, -, rfl⟩ := mem_map.mp hl
      exact (mem_hex hmem).1 rfl
    have hne : gs.map hex ≠ [] := fun hmap => hnil (map_eq_nil_iff.mp hmap)
    rw [readGroups, if_neg (mt join_eq_nil_iff.mp hnil), join, splitOn_intercalate _ hcolon hne]
    clear hnil hcolon hne
    induction gs with
    | nil => rfl
    | cons g gs ih =>
      rw [map_cons, mapM_cons, readGroup_hex (h g mem_cons_self),
        ih fun x hx => h x (mem_cons_of_mem _ hx)]
      rfl

/-- A text that begins with a digit does not begin with a colon. -/
theorem head_hex (n : Nat) (s : List Char) : (hex n ++ s).head? ≠ some ':' := by
  cases hd : hex n with
  | nil => exact absurd hd Nat.toDigits_ne_nil
  | cons c ds =>
    have hc : c ∈ hex n := by rw [hd]; exact mem_cons_self
    intro h
    exact (mem_hex hc).1 (Option.some.inj h)

theorem head_join (h : gs ≠ []) (s : List Char) :
    (join gs ++ s).head? ≠ some ':' := by
  match gs, h with
  | [g], _ => simpa [join] using head_hex g s
  | g :: g' :: gs, _ =>
    rw [join_cons_cons, append_assoc]
    exact head_hex g _

section Doubles

variable {ds : List Char} (hds : ∀ c ∈ ds, c ≠ ':')
include hds

theorem doubles_plain (s : List Char) : doubles (ds ++ s) = doubles s := by
  induction ds with
  | nil => rfl
  | cons c ds ih =>
    have hc := hds c mem_cons_self
    rw [cons_append, doubles, if_neg fun h => hc h.1, Nat.zero_add]
    exact ih fun x hx => hds x (mem_cons_of_mem _ hx)

theorem breakDouble_plain (s : List Char) :
    breakDouble (ds ++ s) = (breakDouble s).map fun lr => (ds ++ lr.1, lr.2) := by
  induction ds with
  | nil => simp
  | cons c ds ih =>
    have hc := hds c mem_cons_self
    rw [cons_append, breakDouble, if_neg fun h => hc h.1,
      ih fun x hx => hds x (mem_cons_of_mem _ hx), Option.map_map]
    rfl

end Doubles

/-- A single colon changes nothing in front of a text that has none at its head. -/
theorem doubles_colon (h : s.head? ≠ some ':') :
    doubles (':' :: s) = doubles s := by
  rw [doubles, if_neg fun hs => h hs.2, Nat.zero_add]

private theorem breakDouble_colon (h : s.head? ≠ some ':') :
    breakDouble (':' :: s) = (breakDouble s).map fun lr => (':' :: lr.1, lr.2) := by
  rw [breakDouble, if_neg fun hs => h hs.2]

theorem doubles_join (gs : List Nat) (s : List Char) : doubles (join gs ++ s) = doubles s := by
  match gs with
  | [] => rfl
  | [g] =>
    have h := doubles_plain (fun c hc => (mem_hex (n := g) hc).1) s
    simpa [join] using h
  | g :: g' :: gs =>
    rw [join_cons_cons, append_assoc, doubles_plain fun c hc => (mem_hex hc).1, cons_append,
      doubles_colon (head_join (cons_ne_nil g' gs) s), doubles_join (g' :: gs) s]

theorem breakDouble_join (gs : List Nat) (s : List Char) :
    breakDouble (join gs ++ s) = (breakDouble s).map fun lr => (join gs ++ lr.1, lr.2) := by
  match gs with
  | [] =>
    show breakDouble s = (breakDouble s).map id
    rw [Option.map_id, id]
  | [g] =>
    have h := breakDouble_plain (fun c hc => (mem_hex (n := g) hc).1) s
    simpa [join] using h
  | g :: g' :: gs =>
    rw [join_cons_cons, append_assoc, breakDouble_plain fun c hc => (mem_hex hc).1,
      cons_append, breakDouble_colon (head_join (cons_ne_nil g' gs) s),
      breakDouble_join (g' :: gs) s, Option.map_map, Option.map_map]
    simp only [Function.comp_def, append_assoc, cons_append]

theorem mem_join {gs : List Nat} {c : Char} (hc : c ∈ join gs) : c ≠ ']' := by
  match gs, hc with
  | [g], hc => exact (mem_hex (by simpa [join] using hc : c ∈ hex g)).2
  | g :: g' :: gs, hc =>
    rw [join_cons_cons, mem_append, mem_cons] at hc
    rcases hc with hc | rfl | hc
    · exact (mem_hex hc).2
    · decide
    · exact mem_join hc

/-! ## The loop -/

/-- The groups read so far (before the first zero, a run of zeros, the rest) and what has been
written of them. -/
structure Printed (gs : List Nat) (st : List Char × Bool) (pre : List Nat) (z : Nat)
    (post : List Nat) : Prop where
  groups : gs = pre ++ List.replicate z 0 ++ post
  pre_ne : ∀ g ∈ pre, g ≠ 0
  zeros : post ≠ [] → z ≠ 0
  unused : post = [] → st = (['['] ++ join pre, false)
  used : post ≠ [] → st = (['['] ++ join pre ++ [':', ':'] ++ join post, true)

/-- `insertStep` on the groups as numbers. -/
theorem insertStep_eq (a : sockaddr_in6) (st : List Char × Bool) (i : Nat) : insertStep a.word st i
      = if a.group i = 0 ∧ st.2 = false then st else
          let st := if i ≠ 0 ∧ a.group (i - 1) = 0 ∧ st.2 = false then (st.1 ++ [':'], true)
            else st
          let os := if i ≠ 0 then st.1 ++ [':'] else st.1
          (os ++ hex (a.group i), st.2) := by
  simp only [insertStep, word_eq_zero_iff, toNat_word_swapped]

private theorem range_map_succ (f : Nat → Nat) (n : Nat) :
    (range (n + 1)).map f = (range n).map f ++ [f n] := by
  rw [range_succ, map_append, map_singleton]

/-- **One round of the loop.** -/
theorem Printed.step {st : List Char × Bool} (h : Printed ((range n).map a.group) st pre z post) :
    ∃ pre' z' post', Printed ((range (n + 1)).map a.group) (insertStep a.word st n)
      pre' z' post' := by
  rw [range_map_succ, insertStep_eq]
  by_cases hpost : post = []
  · obtain rfl := h.unused hpost
    subst hpost
    have hgroups := h.groups
    rw [append_nil] at hgroups
    by_cases hg : a.group n = 0
    · -- one more group of the run of zeros
      refine ⟨pre, z + 1, [], ?_, h.pre_ne, fun hne => absurd rfl hne, fun _ => ?_,
        fun hne => absurd rfl hne⟩
      · rw [hgroups, hg, append_nil, replicate_succ', append_assoc]
      · rw [if_pos ⟨hg, rfl⟩]
    · rw [if_neg fun hboth => hg hboth.1]
      rcases Nat.eq_zero_or_pos z with rfl | hz
      · -- still no zero
        rw [replicate_zero, append_nil] at hgroups
        have hprev : ¬ (n ≠ 0 ∧ a.group (n - 1) = 0 ∧ false = false) := by
          rintro ⟨hn, hzero, -⟩
          refine h.pre_ne (a.group (n - 1)) ?_ hzero
          rw [← hgroups]
          exact mem_map.mpr ⟨n - 1, mem_range.mpr (by omega), rfl⟩
        refine ⟨pre ++ [a.group n], 0, [], ?_, ?_, fun hne => absurd rfl hne, fun _ => ?_,
          fun hne => absurd rfl hne⟩
        · rw [hgroups, replicate_zero, append_nil, append_nil]
        · intro g hmem
          rcases mem_append.mp hmem with hmem | hmem
          · exact h.pre_ne g hmem
          · rw [mem_singleton.mp hmem]
            exact hg
        · have hlen : pre.length = n := by rw [← hgroups, length_map, length_range]
          rw [if_neg hprev]
          by_cases hn : n = 0
          · rw [hn] at hlen
            rw [eq_nil_of_length_eq_zero hlen]
            simp [hn, join]
          · have hne : pre ≠ [] := by
              rintro rfl
              exact hn hlen.symm
            rw [join_concat hne]
            simp [hn]
      · -- the first group behind the run of zeros
        obtain ⟨m, rfl⟩ : ∃ m, n = m + 1 := by
          refine ⟨n - 1, ?_⟩
          have hlen := congrArg length hgroups
          simp only [length_map, length_range, length_append, length_replicate] at hlen
          omega
        have hprev : a.group m = 0 := by
          obtain ⟨k, rfl⟩ : ∃ k, z = k + 1 := ⟨z - 1, by omega⟩
          rw [range_map_succ, replicate_succ', ← append_assoc] at hgroups
          exact singleton_inj.mp (append_inj' hgroups rfl).2
        refine ⟨pre, z, [a.group (m + 1)], ?_, h.pre_ne, fun _ => Nat.pos_iff_ne_zero.mp hz,
          fun hnil => absurd hnil (cons_ne_nil _ _), fun _ => ?_⟩
        · rw [hgroups]
        · rw [if_pos ⟨Nat.succ_ne_zero m, hprev, rfl⟩]
          simp [join]
  · -- the run of zeros is used: every group is written
    obtain rfl := h.used hpost
    have hn : n ≠ 0 := by
      rintro rfl
      have hnil := h.groups.symm
      rw [range_zero, map_nil, append_eq_nil_iff] at hnil
      exact hpost hnil.2
    refine ⟨pre, z, post ++ [a.group n], ?_, h.pre_ne, fun _ => h.zeros hpost, fun hnil => absurd
      hnil (append_ne_nil_of_right_ne_nil _ (cons_ne_nil _ _)), fun _ => ?_⟩
    · rw [h.groups, append_assoc _ post]
    · rw [if_neg fun hboth => Bool.noConfusion hboth.2,
        if_neg fun hboth => Bool.noConfusion hboth.2.2, join_concat hpost]
      simp [hn]

/-- **The whole loop.** -/
theorem printed (a : sockaddr_in6) (n : Nat) : ∃ pre z post, Printed ((range n).map a.group)
      ((range n).foldl (insertStep a.word) (['['], false)) pre z post := by
  induction n with
  | zero =>
    exact ⟨[], 0, [], rfl, nofun, fun hne => absurd rfl hne, fun _ => rfl,
      fun hne => absurd rfl hne⟩
  | succ n ih =>
    obtain ⟨pre, z, post, h⟩ := ih
    rw [range_succ, foldl_append, foldl_cons, foldl_nil, ← range_succ]
    exact h.step

/-! ## The text -/

/-- The groups before the first zero, and those behind its run of zeros. -/
theorem insert_eq (a : sockaddr_in6) :
    ∃ pre z post, a.groups = pre ++ replicate z 0 ++ post ∧ (z = 0 → post = [])
      ∧ IPv6Address.insert a = ['['] ++ (join pre ++ if z = 0 then [] else [':', ':'] ++ join post)
            ++ [']', ':'] ++ decimal (byteswap 2 a.sin6_port).toNat := by
  obtain ⟨pre, z, post, h⟩ := printed a 8
  refine ⟨pre, z, post, h.groups, fun hz => ?_, ?_⟩
  · by_contra hpost
    exact h.zeros hpost hz
  · rw [IPv6Address.insert]
    by_cases hpost : post = []
    · have hst := h.unused hpost
      subst hpost
      have hgroups := h.groups
      rw [range_map_succ, append_nil] at hgroups
      by_cases hz : z = 0
      · -- the last group is not zero
        have hlast : ¬ a.word 7 = 0#16 := by
          refine mt (word_eq_zero_iff a 7).mp (h.pre_ne _ ?_)
          rw [hz, replicate_zero, append_nil] at hgroups
          rw [← hgroups]
          exact mem_append_right _ mem_cons_self
        simp [hst, hz, hlast, byteswapOnLittleEndian]
      · have hlast : a.word 7 = 0 := by
          obtain ⟨k, rfl⟩ : ∃ k, z = k + 1 := ⟨z - 1, by omega⟩
          rw [replicate_succ', ← append_assoc] at hgroups
          rw [word_eq_zero_iff]
          exact singleton_inj.mp (append_inj' hgroups rfl).2
        simp [hst, hz, hlast, byteswapOnLittleEndian, join]
    · simp [h.used hpost, h.zeros hpost, byteswapOnLittleEndian]

/-- Reading the text back. -/
theorem readText_join (hlen : gs.length = 8) (hlt : ∀ g ∈ gs, g < 16 ^ 4)
    (hgs : gs = pre ++ replicate z 0 ++ post) (hz : z = 0 → post = []) :
    readText (join pre ++ if z = 0 then [] else [':', ':'] ++ join post) = some gs := by
  have hpre : ∀ g ∈ pre, g < 16 ^ 4 := by
    intro g hg
    refine hlt g ?_
    rw [hgs, append_assoc]
    exact mem_append_left _ hg
  have hpost : ∀ g ∈ post, g < 16 ^ 4 := by
    intro g hg
    refine hlt g ?_
    rw [hgs]
    exact mem_append_right _ hg
  by_cases hz0 : z = 0
  · have hall : gs = pre := by
      rw [hgs, hz hz0, hz0, replicate_zero, append_nil, append_nil]
    rw [if_pos hz0, readText, breakDouble_join, append_nil, readGroups_join hpre, hall]
    simp [breakDouble, ← hall, hlen]
  · have hcount : pre.length + z + post.length = 8 := by
      rw [← hlen, hgs]
      simp [Nat.add_assoc]
    have hbreak : breakDouble ([':', ':'] ++ join post) = some ([], join post) := rfl
    rw [if_neg hz0, readText, breakDouble_join, hbreak]
    simp only [Option.map_some, append_nil, readGroups_join hpre, readGroups_join hpost,
      bind, Option.bind]
    rw [if_pos (by omega), show 8 - (pre.length + post.length) = z by omega, hgs]

theorem doubles_text (pre post : List Nat) (z : Nat) :
    doubles (join pre ++ if z = 0 then [] else [':', ':'] ++ join post) ≤ 1 := by
  rw [doubles_join]
  split_ifs
  · exact Nat.zero_le 1
  · have hpost := doubles_join post []
    rw [append_nil] at hpost
    have hhead : ((':' :: join post).head? = some ':') := rfl
    show doubles (':' :: ':' :: join post) ≤ 1
    rw [doubles, if_pos ⟨rfl, hhead⟩]
    by_cases hnil : post = []
    · rw [hnil]
      decide
    · have hjoin := head_join hnil []
      rw [append_nil] at hjoin
      rw [doubles_colon hjoin, hpost]
      decide

private theorem decimal_inj {m : Nat} (h : decimal m = decimal n) : m = n := by
  rw [← Nat.ofDigitChars_ten_toDigits (n := m), ← Nat.ofDigitChars_ten_toDigits (n := n)]
  exact congrArg (Nat.ofDigitChars 10 · 0) h

/-- The first closing bracket ends the text form. -/
theorem bracketed_inj {t u r r' : List Char} (ht : ∀ x ∈ t, x ≠ ']')
    (hu : ∀ x ∈ u, x ≠ ']') (h : t ++ ']' :: r = u ++ ']' :: r') : t = u ∧ r = r' := by
  have hfront : ∀ {v s : List Char}, (∀ x ∈ v, x ≠ ']') →
      (v ++ ']' :: s).takeWhile (· ≠ ']') = v := by
    intro v s hv
    rw [takeWhile_append_of_pos fun x hx => decide_eq_true (hv x hx)]
    simp
  have htu : t = u := by
    rw [← hfront (s := r) ht, h, hfront hu]
  subst htu
  exact ⟨rfl, (cons.inj (append_cancel_left h)).2⟩

/-- What is written, with the text form free of brackets. -/
theorem insert_form (a : sockaddr_in6) : ∃ t, IPv6Address.insert a
        = ['['] ++ t ++ [']', ':'] ++ decimal (byteswapOnLittleEndian 2 a.sin6_port).toNat
      ∧ doubles t ≤ 1 ∧ readText t = some a.groups ∧ ∀ x ∈ t, x ≠ ']' := by
  obtain ⟨pre, z, post, hgroups, hz, htext⟩ := insert_eq a
  refine ⟨_, htext, doubles_text pre post z, readText_join ?_ ?_ hgroups hz, ?_⟩
  · rw [sockaddr_in6.groups, length_map, length_range]
  · intro g hg
    obtain ⟨i, -, rfl⟩ := mem_map.mp hg
    exact group_lt a i
  · intro x hx
    rcases mem_append.mp hx with hx | hx
    · exact mem_join hx
    · split_ifs at hx
      · cases hx
      · rcases mem_append.mp hx with hx | hx
        · rcases mem_pair.mp hx with rfl | rfl <;> decide
        · exact mem_join hx

theorem insert_congr (haddr : a.s6_addr = b.s6_addr) (hport : a.sin6_port = b.sin6_port) :
    IPv6Address.insert a = IPv6Address.insert b := by
  have hword : a.word = b.word := by
    funext i
    simp only [sockaddr_in6.word, sockaddr_in6.byte, haddr]
  rw [IPv6Address.insert, IPv6Address.insert, hword, hport]

/-- **The text form of an IPv6 address**, with at most one `::`, is read back as the eight groups;
so different addresses or ports print differently. -/
theorem text_form_reads_back (a : sockaddr_in6) : (∃ t, IPv6Address.insert a
        = ['['] ++ t ++ [']', ':'] ++ decimal (byteswapOnLittleEndian 2 a.sin6_port).toNat
      ∧ doubles t ≤ 1 ∧ readText t = some a.groups)
    ∧ ∀ b, IPv6Address.insert a = IPv6Address.insert b
        ↔ a.s6_addr = b.s6_addr ∧ a.sin6_port = b.sin6_port := by
  obtain ⟨t, hinsert, hdoubles, hread, hclean⟩ := insert_form a
  refine ⟨⟨t, hinsert, hdoubles, hread⟩, fun b => ?_⟩
  constructor
  · intro hab
    obtain ⟨u, hinsert', -, hread', hclean'⟩ := insert_form b
    rw [hinsert, hinsert', append_assoc, append_assoc, append_assoc, append_assoc] at hab
    obtain ⟨rfl, hport⟩ := bracketed_inj hclean hclean' (cons.inj hab).2
    have hgroups := Option.some.inj (hread.symm.trans hread')
    have hswap := congrArg (byteswap 2) (BitVec.eq_of_toNat_eq (decimal_inj (cons.inj hport).2))
    rw [byteswapOnLittleEndian, byteswapOnLittleEndian, byteswap_byteswap, byteswap_byteswap]
      at hswap
    exact ⟨groups_inj hgroups, hswap⟩
  · rintro ⟨haddr, hport⟩
    exact insert_congr haddr hport

end SylarAddress
