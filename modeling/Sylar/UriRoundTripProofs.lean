import Sylar.UriProofs

/-! # Printing a URI and parsing it again (`uri.rl`)

`Uri::dump` leaves out empty parts and the default port, and prints a slash for an empty
path.  What it prints for a URI that was parsed is parsed again, and what comes of it is
the same URI up to what `getPort` and `getPath` hide.

* **`create_toString`** — what is printed is read back in its normal form.
* **`uri_round_trip`** — parsing, printing and parsing again. -/

namespace SylarUri

open SylarHttp (byte digit bytes printed)
open UriSyntax

/-- The default port is not kept, and the path is not empty. -/
def Uri.normal (u : Uri) : Uri :=
  { u with m_port := if u.isDefaultPort then 0 else u.m_port, m_path := u.getPath }

/-- A part that is left out when it is empty. -/
def present (s : List UInt8) : Option (List UInt8) := if s = [] then none else some s

/-- What `dump` prints, as components. -/
def Uri.components (u : Uri) : Components where
  scheme := some u.m_scheme
  authority := some ⟨present u.m_userinfo, u.m_host,
    if u.isDefaultPort then none else some (to_string u.m_port)⟩
  path := u.getPath
  query := present u.m_query
  fragment := present u.m_fragment

theorem toString_eq (u : Uri) : u.toString = u.components.text := by
  have hbefore : u.m_userinfo ++ (if u.m_userinfo = [] then [] else bytes "@")
      = before atSign (present u.m_userinfo) := by
    rw [present]
    split_ifs with h
    · rw [h]
      rfl
    · rfl
  have hbehind : ∀ (d : UInt8) (s : List UInt8),
      (if s = [] then [] else [d]) ++ s = behind d (present s) := by
    intro d s
    rw [present]
    split_ifs with h
    · rw [h]
      rfl
    · rfl
  have hport : (if u.isDefaultPort then [] else bytes ":" ++ to_string u.m_port)
      = behind colon (if u.isDefaultPort then none else some (to_string u.m_port)) := by
    split_ifs <;> rfl
  have hquery := hbehind question u.m_query
  have hfragment := hbehind hash u.m_fragment
  show u.m_scheme ++ bytes "://" ++ u.m_userinfo ++ _ ++ u.m_host ++ _ ++ u.getPath
    ++ (if u.m_query = [] then [] else [question]) ++ u.m_query
    ++ (if u.m_fragment = [] then [] else [hash]) ++ u.m_fragment = _
  rw [hport, List.append_assoc _ _ u.m_fragment, hfragment, List.append_assoc _ _ u.m_query,
    hquery, List.append_assoc _ u.m_userinfo, hbefore]
  simp only [Components.text, Uri.components, before, authorityText, Authority.text,
    List.append_assoc, List.cons_append, List.nil_append]
  rfl

/-- A URI that is printed so that it can be read back. -/
structure Printable (u : Uri) : Prop where
  scheme : SchemeText u.m_scheme
  userinfo : Text userinfoChar u.m_userinfo ∧ byte ':' ∉ u.m_userinfo
  host : HostText u.m_host
  port : 0 ≤ u.m_port ∧ u.m_port ≤ 65535
  path : PathAbempty u.m_path
  query : Text queryChar u.m_query
  fragment : Text queryChar u.m_fragment

variable {s : List UInt8} {u : Uri}

theorem present_text {ok : UInt8 → Bool} (h : Text ok s) : ∀ t, present s = some t → Text ok t := by
  intro t ht
  rw [present] at ht
  split_ifs at ht
  exact Option.some.inj ht ▸ h

theorem present_getD (s : List UInt8) : (present s).getD [] = s := by
  rw [present]
  split_ifs with h
  · exact h.symm
  · rfl

/-- The port that is printed is read back. -/
theorem Printable.port_text (h : Printable u) :
    (∀ c ∈ to_string u.m_port, digit c = true) ∧ to_string u.m_port ≠ []
      ∧ atoi (to_string u.m_port) = u.m_port := by
  have hbounds := h.port
  have hprinted : to_string u.m_port = printed u.m_port.natAbs := if_neg (by omega)
  rw [hprinted]
  refine ⟨SylarHttp.printed_digits _, SylarHttp.printed_ne_nil _, ?_⟩
  rw [atoi_port (SylarHttp.printed_digits _) (by rw [SylarHttpClient.decDigits_printed]; omega),
    SylarHttpClient.decDigits_printed]
  omega

theorem getPath_abempty (h : PathAbempty u.m_path) : PathAbempty u.getPath := by
  rw [Uri.getPath]
  split_ifs
  · exact ⟨Text.of_all (List.all_eq_true.mp (by decide)), Or.inr rfl⟩
  · exact h

/-- **What is printed is read back in its normal form.** -/
theorem create_toString (h : Printable u) : Create u.toString = .ok (some u.normal) := by
  obtain ⟨hdigits, hne, hvalue⟩ := h.port_text
  have hauthority : AuthorityText ⟨present u.m_userinfo, u.m_host,
      if u.isDefaultPort then none else some (to_string u.m_port)⟩ := by
    refine ⟨present_text h.userinfo.1, h.host, fun p hp => ?_⟩
    dsimp only at hp
    split_ifs at hp
    exact Option.some.inj hp ▸ hdigits
  have hmark : (if u.isDefaultPort then none else some (to_string u.m_port)) ≠ some [] := by
    split_ifs
    · exact nofun
    · exact fun hnil => hne (Option.some.inj hnil)
  have hread := readUri_complete h.scheme hauthority hmark (getPath_abempty h.path)
    ⟨present_text h.query, present_text h.fragment⟩
  have hstored : stored u.components = u.normal := by
    have huser : savedUserinfo ((present u.m_userinfo).getD []) = u.m_userinfo := by
      rw [present_getD, savedUserinfo_plain h.userinfo.2]
    have hport : atoi ((if u.isDefaultPort then none else some (to_string u.m_port)).getD [])
        = if u.isDefaultPort then 0 else u.m_port := by
      split_ifs
      · rfl
      · exact hvalue
    show (⟨u.m_scheme, savedUserinfo ((present u.m_userinfo).getD []), u.m_host,
      atoi ((if u.isDefaultPort then none else some (to_string u.m_port)).getD []), u.getPath,
      (present u.m_query).getD [], (present u.m_fragment).getD []⟩ : Uri) = _
    rw [huser, hport, present_getD, present_getD]
    rfl
  rw [create_eq_read, toString_eq, ← hstored]
  exact hread

/-- The normal form is the same URI for those who ask. -/
theorem normal_same (u : Uri) : u.normal.getPort = u.getPort ∧ u.normal.getPath = u.getPath
      ∧ u.normal.toString = u.toString := by
  have hpath : u.normal.getPath = u.getPath := by
    have hne : u.getPath ≠ [] := by
      rw [Uri.getPath]
      split_ifs with h
      · exact List.cons_ne_nil _ _
      · exact h
    exact if_neg hne
  by_cases hdefault : u.isDefaultPort = true
  · have hzero : u.normal.m_port = 0 := if_pos hdefault
    have hsame : u.normal.isDefaultPort = true := by
      rw [Uri.isDefaultPort, hzero]
      rfl
    refine ⟨?_, hpath, ?_⟩
    · rw [Uri.isDefaultPort] at hdefault
      rw [Uri.getPort, Uri.getPort, hzero, show u.normal.m_scheme = u.m_scheme from rfl]
      split_ifs at hdefault ⊢ <;> simp_all
    · rw [Uri.toString, hsame, hpath, Uri.toString, hdefault]
      rfl
  · have hkeep : u.normal.m_port = u.m_port := if_neg hdefault
    have hsame : u.normal.isDefaultPort = u.isDefaultPort := by
      rw [Uri.isDefaultPort, hkeep, Uri.isDefaultPort]
      rfl
    refine ⟨?_, hpath, ?_⟩
    · rw [Uri.getPort, hkeep, Uri.getPort]
      rfl
    · rw [Uri.toString, hsame, hpath, hkeep, Uri.toString]
      rfl

theorem printable_of_create {a : Authority} (h : Create s = .ok (some u))
    (hscheme : (decompose s).scheme.isSome = true) (hauthority : (decompose s).authority = some a)
    (huser : ∀ i, a.userinfo = some i → colon ∉ i)
    (hport : ∀ p, a.port = some p → SylarHttpClient.decDigits p ≤ 65535) : Printable u := by
  rw [create_eq_read] at h
  obtain ⟨c, hc, rfl, rfl⟩ := readUri_sound h
  rw [decompose_text hc.wellFormed] at hscheme hauthority
  obtain ⟨scheme, authority, path, query, fragment⟩ := c
  obtain ⟨t, rfl⟩ := Option.isSome_iff_exists.mp hscheme
  obtain rfl : authority = some a := hauthority
  have ha := hc.authority a rfl
  have htext : ∀ o : Option (List UInt8), (∀ q, o = some q → Text queryChar q) →
      Text queryChar (o.getD []) := by
    rintro (- | q) hq
    · exact Text.nil _
    · exact hq q rfl
  have hvalue : SylarHttpClient.decDigits (a.port.getD []) ≤ 65535 := by
    rcases hp : a.port with - | p
    · exact Nat.zero_le _
    · exact hport p hp
  have huserinfo : byte ':' ∉ a.userinfo.getD [] ∧ Text userinfoChar (a.userinfo.getD []) := by
    rcases hi : a.userinfo with - | i
    · exact ⟨List.not_mem_nil, Text.nil _⟩
    · exact ⟨huser i hi, ha.userinfo i hi⟩
  have hport : (stored ⟨some t, some a, path, query, fragment⟩).m_port
      = SylarHttpClient.decDigits (a.port.getD []) := atoi_port hc.port hvalue
  have hsaved : (stored ⟨some t, some a, path, query, fragment⟩).m_userinfo
      = a.userinfo.getD [] := savedUserinfo_plain huserinfo.1
  refine ⟨hc.scheme t rfl, ?_, ha.host, ?_, ⟨hc.path, hc.shape⟩, htext _ hc.query,
    htext _ hc.fragment⟩
  · rw [hsaved]
    exact huserinfo.symm
  · rw [hport]
    omega

/-- **Parsing, printing and parsing again.** -/
theorem uri_round_trip {a : Authority} (h : Create s = .ok (some u))
    (hscheme : (decompose s).scheme.isSome = true) (hauthority : (decompose s).authority = some a)
    (huser : ∀ i, a.userinfo = some i → colon ∉ i)
    (hrange : ∀ p, a.port = some p → SylarHttpClient.decDigits p ≤ 65535) :
    ∃ v, Create u.toString = .ok (some v) ∧ v.m_scheme = u.m_scheme
      ∧ v.m_userinfo = u.m_userinfo ∧ v.m_host = u.m_host ∧ v.getPort = u.getPort
      ∧ v.getPath = u.getPath ∧ v.m_query = u.m_query ∧ v.m_fragment = u.m_fragment
      ∧ v.toString = u.toString := by
  obtain ⟨hport, hpath, htext⟩ := normal_same u
  exact ⟨u.normal, create_toString (printable_of_create h hscheme hauthority huser hrange), rfl,
    rfl, rfl, hport, hpath, rfl, rfl, htext⟩

/-- With a default port and empty parts. -/
theorem uri_round_trip_default : ∃ u v, Create (bytes "http://u@h:0080?#") = .ok (some u)
      ∧ Create u.toString = .ok (some v) ∧ v.m_userinfo = u.m_userinfo
      ∧ v.getPort = u.getPort ∧ v.toString = u.toString := by
  have hread : Create (bytes "http://u@h:0080?#")
      = .ok (some ⟨bytes "http", bytes "u", bytes "h", 80, [], [], []⟩) := by decide +kernel
  obtain ⟨v, hv, -, huser, -, hport, -, -, -, htext⟩ := uri_round_trip (a := ⟨some (bytes "u"),
    bytes "h", some (bytes "0080")⟩) hread (by decide) (by decide)
    (fun _ h => Option.some.inj h ▸ by decide) (fun _ h => Option.some.inj h ▸ by decide)
  exact ⟨_, v, hread, hv, huser, hport, htext⟩

end SylarUri
