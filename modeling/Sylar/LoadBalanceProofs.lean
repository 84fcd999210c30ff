import Mathlib.Data.List.AList
import Sylar.StepSystemProofs

/-! # Service discovery and the load balancer (`service_discovery.cc`, `load_balance.cc`)

`ZKServiceDiscovery::getChildren` puts the children of one service into `m_datas` and
calls `SDLoadBalance::onServiceChange` with the old and the new map.  That looks the
balancer up, or makes one, and updates it by the difference of the two; what is
deleted is closed.  Every section under a lock is a step, of any number of calls.

* **`update_perm`** — what an update takes out, and what it leaves.
* **`step_inv`** — one step of calls that keep the order.
* **`balancer_follows`** — when all calls are done, the balancer has the ids of `m_datas`. -/

namespace SylarLoadBalance

open StepSystem List

/-! ## The code -/

/-- `ServiceItemInfo`. -/
structure ServiceItemInfo where
  m_id : UInt64
  m_port : UInt16
  m_ip : List Char
  m_data : List Char
  deriving DecidableEq, Repr

/-- An item of the balancer; its stream is the one the callback has made for it. -/
structure LoadBalanceItem where
  id : UInt64
  stream : Nat
  deriving DecidableEq, Repr

/-- `std::unordered_map<uint64_t, ServiceItemInfo::ptr>`. -/
abbrev Infos := AList fun _ : UInt64 => ServiceItemInfo

/-- `LoadBalance::m_datas`. -/
abbrev LoadBalance := AList fun _ : UInt64 => LoadBalanceItem

/-- `ServiceItemInfo::Create`, over the library's `inet_addr` and `TypeUtil::Atoi`. -/
def Create (inet_addr : List Char → UInt32) (Atoi : List Char → UInt64)
    (ip_and_port data : List Char) : Option ServiceItemInfo :=
  match ip_and_port.span (· != ':') with
  | (_, []) => none
  | (ip, _ :: rest) =>
    let port := Atoi rest
    let ip_addr := inet_addr ip
    if ip_addr = 0 then none
    else some ⟨(ip_addr.toUInt64 <<< 32) ||| port, port.toUInt16, ip, data⟩

/-- The loop of `getChildren` over the children. -/
def infosOf (inet_addr : List Char → UInt32) (Atoi : List Char → UInt64)
    (vals : List (List Char)) : Infos :=
  vals.foldl (fun infos val =>
    match Create inet_addr Atoi val [] with
    | none => infos
    | some info => infos.insert info.m_id info) ∅

namespace LoadBalance

/-- The items of the map. -/
def items (lb : LoadBalance) : List LoadBalanceItem := lb.entries.map Sigma.snd

/-- The first loop of `update`: what is left, and what was found. -/
def eraseAll : LoadBalance → List UInt64 → LoadBalance × List LoadBalanceItem
  | lb, [] => (lb, [])
  | lb, id :: dels =>
    match lb.lookup id with
    | some item =>
        let (left, found) := eraseAll (lb.erase id) dels
        (left, item :: found)
    | none => eraseAll lb dels

/-- The second loop of `update`. -/
def insertAll (lb : LoadBalance) (adds : List LoadBalanceItem) : LoadBalance :=
  adds.foldl (fun lb item => lb.insert item.id item) lb

/-- `LoadBalance::update`. -/
def update (lb : LoadBalance) (adds : List LoadBalanceItem) (dels : List UInt64) :
    LoadBalance × List LoadBalanceItem :=
  let (left, found) := eraseAll lb dels
  (insertAll left adds, found)

end LoadBalance

/-- `del_infos`: the ids that are gone. -/
def delInfos (old new : Infos) : List UInt64 := old.keys.filter (· ∉ new)

/-- `add_infos`: an item, with a stream of its own, for each id that is new. -/
def addInfos (created : Nat) (old new : Infos) : List LoadBalanceItem :=
  ((new.keys.filter (· ∉ old)).zipIdx created).map fun (id, stream) => ⟨id, stream⟩

/-- Where `getChildren` stands: before its swap; in `SDLoadBalance::get`, at the look up and at the
store; before `update`; closing what it has taken out. `k` swaps were made before its own. -/
inductive Pc where
  | swap (infos : Infos)
  | get (k : Nat) (old new : Infos)
  | create (k : Nat) (old new : Infos)
  | update (k : Nat) (lb : Nat) (old new : Infos)
  | close (items : List LoadBalanceItem)
  | done
  deriving DecidableEq

/-- `m_datas`; the balancers made and the one registered; the calls.  `created` counts the streams,
`placed` and `closed` are the items put into a balancer and closed. -/
structure State where
  m_datas : Infos
  balancers : List LoadBalance
  registered : Option Nat
  threads : List Pc
  created : Nat
  placed : List LoadBalanceItem
  closed : List LoadBalanceItem
  swaps : Nat
  updates : Nat

def init : State := ⟨∅, [], none, [], 0, [], [], 0, 0⟩

namespace State

def balancer (s : State) (lb : Nat) : LoadBalance := (s.balancers[lb]?).getD ∅

/-- What is in the balancer of the service. -/
def current (s : State) : LoadBalance :=
  match s.registered with
  | none => ∅
  | some lb => s.balancer lb

end State

/-- The next section of a callback. -/
def advance (s : State) : Pc → Option (State × Pc)
  | .swap infos =>
    some ({ s with m_datas := infos, swaps := s.swaps + 1 }, .get s.swaps s.m_datas infos)
  | .get k old new =>
    match s.registered with
    | some lb => some (s, .update k lb old new)
    | none => some (s, .create k old new)
  | .create k old new =>
    let lb := s.balancers.length
    some ({ s with balancers := s.balancers ++ [∅], registered := some lb },
      .update k lb old new)
  | .update _ lb old new =>
    let adds := addInfos s.created old new
    let (datas, found) := (s.balancer lb).update adds (delInfos old new)
    some ({ s with
      balancers := s.balancers.set lb datas
      created := s.created + adds.length
      placed := s.placed ++ adds
      updates := s.updates + 1 }, .close found)
  | .close [] => some (s, .done)
  | .close (item :: items) => some ({ s with closed := s.closed ++ [item] }, .close items)
  | .done => none

/-- A call begins, with what `ZKClient::getChildren` has returned, or a call moves. -/
inductive Label where
  | getChildren (vals : List (List Char))
  | move (i : Nat)
  deriving DecidableEq, Repr

/-- A new callback, or the next section of one. -/
def step (inet_addr : List Char → UInt32) (Atoi : List Char → UInt64) (s : State) :
    Label → Option State
  | .getChildren vals =>
    some { s with threads := s.threads ++ [.swap (infosOf inet_addr Atoi vals)] }
  | .move i =>
    match s.threads[i]? with
    | none => none
    | some pc => (advance s pc).map fun (s, pc') => { s with threads := s.threads.set i pc' }

/-! ## What an update does -/

variable {adds : List LoadBalanceItem}

namespace LoadBalance

variable {lb : LoadBalance} {id : UInt64} {item : LoadBalanceItem}

theorem items_erase (h : lb.lookup id = some item) :
    lb.items.Perm (item :: items (lb.erase id)) := by
  have hmem : id ∈ lb.entries.keys := AList.lookup_isSome.mp (by rw [h]; rfl)
  obtain ⟨b, l₁, l₂, -, hsplit, herase⟩ := exists_of_kerase hmem
  have hb : lb.lookup id = some b := by
    refine AList.mem_lookup_iff.mpr ?_
    rw [hsplit]
    exact mem_append_right _ mem_cons_self
  obtain rfl : item = b := Option.some.inj (h.symm.trans hb)
  show (lb.entries.map Sigma.snd).Perm (item :: (kerase id lb.entries).map Sigma.snd)
  rw [herase, hsplit, map_append, map_append, map_cons]
  exact perm_middle

theorem mem_eraseAll (lb : LoadBalance) (dels : List UInt64) :
    id ∈ (eraseAll lb dels).1 ↔ id ∈ lb ∧ id ∉ dels := by
  induction dels generalizing lb with
  | nil => exact ⟨fun h => ⟨h, not_mem_nil⟩, fun h => h.1⟩
  | cons d dels ih =>
    cases hd : lb.lookup d with
    | some item =>
      rw [eraseAll, hd]
      show id ∈ (eraseAll (lb.erase d) dels).1 ↔ _
      rw [ih, AList.mem_erase, mem_cons, not_or]
      tauto
    | none =>
      rw [eraseAll, hd]
      show id ∈ (eraseAll lb dels).1 ↔ _
      have hnot := AList.lookup_eq_none.mp hd
      rw [ih, mem_cons, not_or]
      refine and_congr_right fun hid => ⟨fun h => ⟨?_, h⟩, fun h => h.2⟩
      rintro rfl
      exact hnot hid

theorem perm_eraseAll (lb : LoadBalance) (dels : List UInt64) :
    lb.items.Perm ((eraseAll lb dels).2 ++ (eraseAll lb dels).1.items) := by
  induction dels generalizing lb with
  | nil => exact List.Perm.refl _
  | cons d dels ih =>
    cases hd : lb.lookup d with
    | some item =>
      rw [eraseAll, hd]
      exact (items_erase hd).trans ((ih (lb.erase d)).cons item)
    | none =>
      rw [eraseAll, hd]
      exact ih lb

theorem mem_insertAll (lb : LoadBalance) (adds : List LoadBalanceItem) :
    id ∈ insertAll lb adds ↔ id ∈ adds.map LoadBalanceItem.id ∨ id ∈ lb := by
  induction adds generalizing lb with
  | nil => exact ⟨Or.inr, fun h => h.resolve_left not_mem_nil⟩
  | cons a adds ih =>
    rw [insertAll, foldl_cons]
    change id ∈ insertAll (lb.insert a.id a) adds ↔ _
    rw [ih, AList.mem_insert, map_cons, mem_cons]
    tauto

theorem perm_insertAll (lb : LoadBalance) (hnodup : (adds.map LoadBalanceItem.id).Nodup)
    (hfresh : ∀ item ∈ adds, item.id ∉ lb) : (insertAll lb adds).items.Perm (adds ++ lb.items) := by
  induction adds generalizing lb with
  | nil => exact List.Perm.refl _
  | cons a adds ih =>
    rw [map_cons, nodup_cons] at hnodup
    have hitems : items (lb.insert a.id a) = a :: lb.items := by
      show (AList.insert a.id a lb).entries.map Sigma.snd = _
      rw [AList.entries_insert_of_notMem (hfresh a mem_cons_self)]
      rfl
    have hrest : (insertAll (lb.insert a.id a) adds).items.Perm
        (adds ++ items (lb.insert a.id a)) := by
      refine ih (lb.insert a.id a) hnodup.2 fun item hitem hmem => ?_
      rcases (AList.mem_insert lb).mp hmem with heq | hmem
      · exact hnodup.1 (heq ▸ mem_map_of_mem hitem)
      · exact hfresh item (mem_cons_of_mem _ hitem) hmem
    rw [hitems] at hrest
    exact hrest.trans perm_middle

theorem mem_update {dels : List UInt64} : id ∈ (lb.update adds dels).1
      ↔ id ∈ adds.map LoadBalanceItem.id ∨ (id ∈ lb ∧ id ∉ dels) := by
  show id ∈ insertAll (eraseAll lb dels).1 adds ↔ _
  rw [mem_insertAll, mem_eraseAll]

/-- **What an update takes out and leaves**, if what it adds is new. -/
theorem update_perm {dels : List UInt64} (hnodup : (adds.map LoadBalanceItem.id).Nodup)
    (hfresh : ∀ item ∈ adds, item.id ∉ lb) :
    (adds ++ lb.items).Perm ((lb.update adds dels).2 ++ (lb.update adds dels).1.items) := by
  show (adds ++ lb.items).Perm ((eraseAll lb dels).2 ++ (insertAll (eraseAll lb dels).1 adds).items)
  have hleft := perm_insertAll (eraseAll lb dels).1 hnodup fun item hitem hmem =>
    hfresh item hitem ((mem_eraseAll lb dels).mp hmem).1
  refine ((perm_eraseAll lb dels).append_left adds).trans (List.Perm.trans ?_
    (hleft.symm.append_left _))
  rw [← append_assoc, ← append_assoc]
  exact perm_append_comm.append_right _

end LoadBalance

/-! ## What is added -/

section Adds

variable {created : Nat} {old new : Infos}

private theorem map_id_addInfos :
    (addInfos created old new).map LoadBalanceItem.id = new.keys.filter (· ∉ old) := by
  rw [addInfos, map_map]
  exact zipIdx_map_fst created _

private theorem nodup_addInfos : ((addInfos created old new).map LoadBalanceItem.id).Nodup := by
  rw [map_id_addInfos]
  exact new.keys_nodup.filter _

/-- The streams are new ones. -/
theorem stream_addInfos {item : LoadBalanceItem} (h : item ∈ addInfos created old new) :
    created ≤ item.stream ∧ item.stream < created + (addInfos created old new).length := by
  obtain ⟨⟨id, k⟩, hmem, rfl⟩ := List.mem_map.mp h
  have hlen : (addInfos created old new).length = (new.keys.filter (· ∉ old)).length := by
    rw [addInfos, length_map, length_zipIdx]
  rw [hlen]
  obtain ⟨hle, hlt, -⟩ := mem_zipIdx hmem
  exact ⟨hle, hlt⟩

end Adds

/-! ## Calls that keep the order -/

/-- The call has swapped and not updated. -/
def Pc.pending : Pc → Bool
  | .get .. | .create .. | .update .. => true
  | _ => false

/-- The call has found no balancer, and is about to store one. -/
def Pc.creates : Pc → Bool
  | .create .. => true
  | _ => false

/-- The call looks the balancer up while no other is about to store one, and updates it after every
call that swapped before. -/
def Pc.InOrder (s : State) : Pc → Prop
  | .get .. => ∀ pc ∈ s.threads, pc.creates = false
  | .update k .. => k = s.updates
  | _ => True

instance (s : State) : (pc : Pc) → Decidable (pc.InOrder s)
  | .get .. => inferInstanceAs (Decidable (∀ pc ∈ s.threads, pc.creates = false))
  | .update k .. => inferInstanceAs (Decidable (k = s.updates))
  | .swap .. | .create .. | .close .. | .done => isTrue trivial

def InOrder (s : State) : Label → Prop
  | .getChildren _ => True
  | .move i => ∀ pc ∈ s.threads[i]?, pc.InOrder s

instance (s : State) : (l : Label) → Decidable (InOrder s l)
  | .getChildren _ => isTrue trivial
  | .move i => inferInstanceAs (Decidable (∀ pc ∈ s.threads[i]?, pc.InOrder s))

/-- What a call still has to close. -/
def Pc.toClose : Pc → List LoadBalanceItem
  | .close items => items
  | _ => []

/-- How often an item stands in what calls still have to close. -/
def State.toClose (s : State) (item : LoadBalanceItem) : Nat :=
  (s.threads.map fun pc => pc.toClose.count item).sum

/-- What a call knows of the values `m_datas` has had, and of the balancer. -/
def Pc.Sound (history : List Infos) (registered : Option Nat) : Pc → Prop
  | .get k old new => history[k]? = some old ∧ history[k + 1]? = some new
  | .create k old new =>
    history[k]? = some old ∧ history[k + 1]? = some new ∧ registered = none
  | .update k lb old new =>
    history[k]? = some old ∧ history[k + 1]? = some new ∧ registered = some lb
  | _ => True

/-- The invariant over a history of tables. -/
structure Inv (history : List Infos) (s : State) : Prop where
  length : history.length = s.swaps + 1
  m_datas : history[s.swaps]? = some s.m_datas
  threads : ∀ pc ∈ s.threads, pc.Sound history s.registered
  pending : s.updates + s.threads.countP Pc.pending = s.swaps
  creators : s.threads.countP Pc.creates ≤ 1
  registered : ∀ lb ∈ s.registered, lb < s.balancers.length
  /-- The balancer has the ids that `m_datas` had after as many swaps. -/
  ids : ∃ datas, history[s.updates]? = some datas ∧ ∀ id, id ∈ s.current ↔ id ∈ datas
  /-- An item is in the balancer, or has to be closed, or was closed. -/
  tokens : ∀ item, s.placed.count item
    = s.current.items.count item + s.toClose item + s.closed.count item
  nodup : s.placed.Nodup
  created : ∀ item ∈ s.placed, item.stream < s.created

theorem init_inv : Inv [∅] init where
  length := rfl
  m_datas := rfl
  threads _ h := absurd h not_mem_nil
  pending := rfl
  creators := Nat.zero_le 1
  registered _ h := nomatch h
  ids := ⟨∅, rfl, fun _ => Iff.rfl⟩
  tokens _ := rfl
  nodup := nodup_nil
  created _ h := absurd h not_mem_nil

section Step

variable {history : List Infos} {s u : State} {i : Nat} {pc pc' : Pc}

theorem Pc.Sound.append {registered : Option Nat} (h : pc.Sound history registered)
    (infos : Infos) : pc.Sound (history ++ [infos]) registered := by
  have hget : ∀ {k : Nat} {x : Infos}, history[k]? = some x →
      (history ++ [infos])[k]? = some x := fun hk =>
    (List.getElem?_append_left (List.getElem?_eq_some_iff.mp hk).1).trans hk
  cases pc with
  | get k old new => exact ⟨hget h.1, hget h.2⟩
  | create k old new => exact ⟨hget h.1, hget h.2.1, h.2.2⟩
  | update k lb old new => exact ⟨hget h.1, hget h.2.1, h.2.2⟩
  | _ => trivial

private theorem toClose_moved (hi : s.threads[i]? = some pc) (pc' : Pc) (item : LoadBalanceItem) :
    ((s.threads.set i pc').map fun pc => pc.toClose.count item).sum + pc.toClose.count item
      = s.toClose item + pc'.toClose.count item :=
  sum_moved hi

private theorem pending_moved (hi : s.threads[i]? = some pc) (pc' : Pc) :
    (s.threads.set i pc').countP Pc.pending + pc.pending.toNat
      = s.threads.countP Pc.pending + pc'.pending.toNat :=
  countP_moved hi

/-- At most one call is about to store a balancer, if the one that moves is not. -/
theorem Inv.creators_moved (h : Inv history s) (hi : s.threads[i]? = some pc)
    (hcreates : pc'.creates = false) : (s.threads.set i pc').countP Pc.creates ≤ 1 := by
  have hcount := countP_moved (p := Pc.creates) (b := pc') hi
  rw [hcreates] at hcount
  have hle := h.creators
  change _ = s.threads.countP Pc.creates + 0 at hcount
  omega

/-- **The swap.** -/
theorem Inv.swapped {infos : Infos} (h : Inv history s) (hi : s.threads[i]? = some (.swap infos)) :
    Inv (history ++ [infos]) { s with
      m_datas := infos
      swaps := s.swaps + 1
      threads := s.threads.set i (.get s.swaps s.m_datas infos) } := by
  have hlast : (history ++ [infos])[s.swaps + 1]? = some infos := by
    rw [← h.length]
    exact getElem?_concat_length
  have hget : ∀ {k : Nat} {x : Infos}, history[k]? = some x →
      (history ++ [infos])[k]? = some x := fun hk =>
    (List.getElem?_append_left (List.getElem?_eq_some_iff.mp hk).1).trans hk
  have hpending := pending_moved hi (.get s.swaps s.m_datas infos)
  have hclose := toClose_moved hi (.get s.swaps s.m_datas infos)
  refine ⟨?_, hlast, forall_moved (fun pc hpc => (h.threads pc hpc).append infos) ⟨hget h.m_datas,
    hlast⟩, ?_, h.creators_moved hi rfl, h.registered, ?_, fun item => ?_, h.nodup, h.created⟩
  · rw [length_append, h.length]
    rfl
  · have hbefore := h.pending
    change _ + 0 = _ + 1 at hpending
    show s.updates + (s.threads.set i _).countP Pc.pending = s.swaps + 1
    omega
  · obtain ⟨datas, hdatas, hids⟩ := h.ids
    exact ⟨datas, hget hdatas, hids⟩
  · have htokens := h.tokens item
    have hsame := hclose item
    change _ + 0 = _ + 0 at hsame
    show s.placed.count item = s.current.items.count item
      + ((s.threads.set i _).map fun pc => pc.toClose.count item).sum + s.closed.count item
    omega

/-- The look up in `SDLoadBalance::get`, and the end of a call. -/
theorem Inv.quiet (h : Inv history s) (hi : s.threads[i]? = some pc)
    (hsound : pc'.Sound history s.registered) (hpending : pc'.pending = pc.pending)
    (hcreators : (s.threads.set i pc').countP Pc.creates ≤ 1)
    (hclose : pc'.toClose = pc.toClose) :
    Inv history { s with threads := s.threads.set i pc' } := by
  refine ⟨h.length, h.m_datas, forall_moved h.threads hsound, ?_, hcreators, h.registered,
    h.ids, fun item => ?_, h.nodup, h.created⟩
  · have hcount := pending_moved hi pc'
    rw [hpending] at hcount
    have hbefore := h.pending
    show s.updates + (s.threads.set i pc').countP Pc.pending = s.swaps
    omega
  · have hsame := toClose_moved hi pc' item
    rw [hclose] at hsame
    have htokens := h.tokens item
    show s.placed.count item = s.current.items.count item
      + ((s.threads.set i _).map fun pc => pc.toClose.count item).sum + s.closed.count item
    omega

/-- **The store** in `SDLoadBalance::get`: there was no balancer, and no other call stores
one. -/
theorem Inv.stored {k : Nat} {old new : Infos} (h : Inv history s)
    (hi : s.threads[i]? = some (.create k old new)) :
    Inv history { s with
      balancers := s.balancers ++ [∅]
      registered := some s.balancers.length
      threads := s.threads.set i (.update k s.balancers.length old new) } := by
  obtain ⟨hold, hnew, hnone⟩ := h.threads _ (mem_of_getElem? hi)
  have hbefore : s.current = ∅ := by
    rw [State.current, hnone]
  have hafter : ({ s with
      balancers := s.balancers ++ [∅]
      registered := some s.balancers.length
      threads := s.threads.set i (.update k s.balancers.length old new) } : State).current
      = ∅ := by
    show ((s.balancers ++ [∅])[s.balancers.length]?).getD ∅ = ∅
    rw [getElem?_concat_length]
    rfl
  -- The other calls are not about to store, and none has found a balancer.
  have hothers : (s.threads.set i .done).countP Pc.creates = 0 := by
    have hcount := countP_moved (p := Pc.creates) (b := .done) hi
    have hle := h.creators
    change _ + 1 = _ + 0 at hcount
    omega
  have hsound : ∀ pc ∈ s.threads.set i .done, pc.Sound history (some s.balancers.length) := by
    intro pc hpc
    rcases mem_or_eq_of_mem_set hpc with hmem | rfl
    · have hpcSound := h.threads pc hmem
      cases pc with
      | get k old new => exact hpcSound
      | create k old new => exact absurd rfl (countP_eq_zero.mp hothers _ hpc)
      | update k lb old new =>
        rw [hnone] at hpcSound
        exact nomatch hpcSound.2.2
      | _ => trivial
    · trivial
  refine ⟨h.length, h.m_datas, ?_, ?_, h.creators_moved hi rfl, ?_, ?_, fun item => ?_,
    h.nodup, h.created⟩
  · have hmine : (Pc.update k s.balancers.length old new).Sound history
        (some s.balancers.length) := ⟨hold, hnew, rfl⟩
    have hmoved := forall_moved (i := i) hsound hmine
    rwa [set_set] at hmoved
  · have hcount := pending_moved hi (.update k s.balancers.length old new)
    have hpending := h.pending
    change _ + 1 = _ + 1 at hcount
    show s.updates + (s.threads.set i _).countP Pc.pending = s.swaps
    omega
  · rintro lb ⟨⟩
    show s.balancers.length < (s.balancers ++ [∅]).length
    rw [length_append]
    exact Nat.lt_succ_self _
  · rw [hafter, ← hbefore]
    exact h.ids
  · have hsame := toClose_moved hi (.update k s.balancers.length old new) item
    have htokens := h.tokens item
    change _ + 0 = _ + 0 at hsame
    rw [hafter, ← hbefore]
    show s.placed.count item = s.current.items.count item
      + ((s.threads.set i _).map fun pc => pc.toClose.count item).sum + s.closed.count item
    omega

/-- The ids after an update from the old to the new map. -/
theorem ids_updated {lb : LoadBalance} {old new : Infos} {created : Nat} {id : UInt64}
    (hids : id ∈ lb ↔ id ∈ old) :
    id ∈ (lb.update (addInfos created old new) (delInfos old new)).1 ↔ id ∈ new := by
  rw [LoadBalance.mem_update, map_id_addInfos, delInfos, mem_filter, mem_filter,
    decide_eq_true_iff, decide_eq_true_iff, ← AList.mem_keys, ← AList.mem_keys, hids]
  tauto

/-- What `update` makes of the balancer, with what it has taken out. -/
def State.change (s : State) (lb : Nat) (old new : Infos) : LoadBalance × List LoadBalanceItem :=
  (s.balancer lb).update (addInfos s.created old new) (delInfos old new)

/-- The state after an update. -/
def State.updated (s : State) (lb : Nat) (old new : Infos) : State :=
  { s with
    balancers := s.balancers.set lb (s.change lb old new).1
    created := s.created + (addInfos s.created old new).length
    placed := s.placed ++ addInfos s.created old new
    updates := s.updates + 1 }

theorem current_updated {lb : Nat} {old new : Infos} (hlb : s.registered = some lb)
    (hlt : lb < s.balancers.length) :
    (s.updated lb old new).current = (s.change lb old new).1 := by
  have hreg : (s.updated lb old new).registered = some lb := hlb
  rw [State.current, hreg]
  show ((s.balancers.set lb _)[lb]?).getD ∅ = _
  rw [getElem?_set_self hlt]
  rfl

/-- **The update**, by the call whose swap comes next. -/
theorem Inv.updated {lb : Nat} {old new : Infos} (h : Inv history s)
    (hi : s.threads[i]? = some (.update s.updates lb old new)) :
    Inv history { s.updated lb old new with
      threads := s.threads.set i (.close (s.change lb old new).2) } := by
  obtain ⟨hold, hnew, hlb⟩ := h.threads _ (mem_of_getElem? hi)
  have hbefore : s.current = s.balancer lb := by
    rw [State.current, hlb]
  have hafter : (s.updated lb old new).current = (s.change lb old new).1 :=
    current_updated hlb (h.registered lb hlb)
  obtain ⟨datas, hdatas, hids⟩ := h.ids
  rw [hold] at hdatas
  cases hdatas
  rw [hbefore] at hids
  -- an item is added only under an id that the balancer has not
  have hfresh : ∀ item ∈ addInfos s.created old new, item.id ∉ s.balancer lb := by
    intro item hitem hmem
    have hid := mem_map_of_mem (f := LoadBalanceItem.id) hitem
    rw [map_id_addInfos, mem_filter, decide_eq_true_iff] at hid
    exact hid.2 ((hids item.id).mp hmem)
  refine ⟨h.length, h.m_datas, forall_moved h.threads trivial, ?_, h.creators_moved hi rfl, ?_,
    ⟨new, hnew, fun id => ?_⟩, fun item => ?_, ?_, fun item hitem => ?_⟩
  · have hcount := pending_moved hi (.close (s.change lb old new).2)
    have hpending := h.pending
    change _ + 1 = _ + 0 at hcount
    show s.updates + 1 + (s.threads.set i _).countP Pc.pending = s.swaps
    omega
  · intro lb' hlb'
    show lb' < (s.balancers.set lb _).length
    rw [length_set]
    exact h.registered lb' hlb'
  · show id ∈ (s.updated lb old new).current ↔ id ∈ new
    rw [hafter]
    exact ids_updated (hids id)
  · have hperm : (addInfos s.created old new ++ (s.balancer lb).items).Perm
        ((s.change lb old new).2 ++ (s.change lb old new).1.items) :=
      LoadBalance.update_perm nodup_addInfos hfresh
    have hcount := hperm.count_eq item
    have hclose := toClose_moved hi (.close (s.change lb old new).2) item
    have htokens := h.tokens item
    rw [hbefore] at htokens
    rw [count_append, count_append] at hcount
    change _ + 0 = _ + (s.change lb old new).2.count item at hclose
    show (s.placed ++ addInfos s.created old new).count item
      = (s.updated lb old new).current.items.count item
      + ((s.threads.set i _).map fun pc => pc.toClose.count item).sum + s.closed.count item
    rw [count_append, hafter]
    omega
  · refine h.nodup.append nodup_addInfos.of_map fun item hitem hadd => ?_
    exact Nat.not_lt.mpr (stream_addInfos hadd).1 (h.created item hitem)
  · rcases mem_append.mp hitem with hitem | hitem
    · exact Nat.lt_of_lt_of_le (h.created item hitem) (Nat.le_add_right _ _)
    · exact (stream_addInfos hitem).2

/-- A close. -/
theorem Inv.closed_one {item : LoadBalanceItem} {items : List LoadBalanceItem}
    (h : Inv history s) (hi : s.threads[i]? = some (.close (item :: items))) :
    Inv history { s with
      closed := s.closed ++ [item]
      threads := s.threads.set i (.close items) } := by
  refine ⟨h.length, h.m_datas, forall_moved h.threads trivial, ?_, h.creators_moved hi rfl,
    h.registered, h.ids, fun x => ?_, h.nodup, h.created⟩
  · have hcount := pending_moved hi (.close items)
    have hpending := h.pending
    change _ + 0 = _ + 0 at hcount
    show s.updates + (s.threads.set i _).countP Pc.pending = s.swaps
    omega
  · have hclose := toClose_moved hi (.close items) x
    have htokens := h.tokens x
    rw [Pc.toClose, Pc.toClose, count_cons] at hclose
    show s.placed.count x = s.current.items.count x
      + ((s.threads.set i _).map fun pc => pc.toClose.count x).sum
      + (s.closed ++ [item]).count x
    rw [count_append, count_singleton]
    omega

/-- **STEP LEMMA.** -/
theorem step_inv {inet_addr : List Char → UInt32} {Atoi : List Char → UInt64} {l : Label}
    (h : Inv history s) (horder : InOrder s l) (hstep : step inet_addr Atoi s l = some u) :
    ∃ history, Inv history u := by
  cases l with
  | getChildren vals =>
    cases hstep
    refine ⟨history, h.length, h.m_datas, fun pc hpc => ?_, ?_, ?_, h.registered, h.ids,
      fun item => ?_, h.nodup, h.created⟩
    · rcases mem_append.mp hpc with hpc | hpc
      · exact h.threads pc hpc
      · rw [mem_singleton.mp hpc]
        trivial
    · show s.updates + (s.threads ++ [_]).countP Pc.pending = s.swaps
      rw [countP_append]
      exact h.pending
    · show (s.threads ++ [_]).countP Pc.creates ≤ 1
      rw [countP_append]
      exact h.creators
    · show s.placed.count item = s.current.items.count item
        + ((s.threads ++ [_]).map fun pc : Pc => pc.toClose.count item).sum + s.closed.count item
      rw [map_append, sum_append]
      exact h.tokens item
  | move i =>
    rw [step] at hstep
    split at hstep
    · exact nomatch hstep
    · rename_i pc hi
      have hpc : pc.InOrder s := horder pc hi
      obtain ⟨⟨v, pc'⟩, hadv, heq⟩ := Option.map_eq_some_iff.mp hstep
      cases heq
      cases pc with
      | swap infos =>
        cases hadv
        exact ⟨_, h.swapped hi⟩
      | get k old new =>
        have hsound := h.threads _ (mem_of_getElem? hi)
        rw [advance] at hadv
        split at hadv
        · rename_i lb hlb
          cases hadv
          exact ⟨history, h.quiet hi ⟨hsound.1, hsound.2, hlb⟩ rfl (h.creators_moved hi rfl) rfl⟩
        · rename_i hnone
          cases hadv
          refine ⟨history, h.quiet hi ⟨hsound.1, hsound.2, hnone⟩ rfl ?_ rfl⟩
          -- no other callback is about to store a balancer: the runs are in order
          have hzero : s.threads.countP Pc.creates = 0 := countP_eq_zero.mpr fun pc hmem hcreates =>
              Bool.false_ne_true ((hpc pc hmem).symm.trans hcreates)
          have hcount := countP_moved (p := Pc.creates) (b := .create k old new) hi
          change _ + 0 = _ + 1 at hcount
          omega
      | create k old new =>
        cases hadv
        exact ⟨history, h.stored hi⟩
      | update k lb old new =>
        change k = s.updates at hpc
        subst hpc
        cases hadv
        exact ⟨history, h.updated hi⟩
      | close items =>
        cases items with
        | nil =>
          cases hadv
          exact ⟨history, h.quiet hi trivial rfl (h.creators_moved hi rfl) rfl⟩
        | cons item items =>
          cases hadv
          exact ⟨history, h.closed_one hi⟩
      | done => exact nomatch hadv

end Step

/-! ## Every run -/

/-- **THE BALANCER FOLLOWS THE DISCOVERY**, if the calls look the balancer up while no other
is about to store one, and update it in the order of their swaps: when all are done, it
has the ids of `m_datas`, and every item that is no longer there was closed once. -/
theorem balancer_follows {inet_addr : List Char → UInt32} {Atoi : List Char → UInt64}
    {s : State} (h : Reaches (step inet_addr Atoi) InOrder init s)
    (hdone : ∀ pc ∈ s.threads, pc = .done) :
    (∀ id, id ∈ s.current ↔ id ∈ s.m_datas)
    ∧ ∀ item ∈ s.placed, item ∉ s.current.items → s.closed.count item = 1 := by
  obtain ⟨history, hinv⟩ := h.inv (P := fun s => ∃ history, Inv history s) ⟨_, init_inv⟩
    fun ⟨_, hinv⟩ horder hstep => step_inv hinv horder hstep
  have hnone : s.threads.countP Pc.pending = 0 :=
    countP_eq_zero.mpr fun pc hpc => by rw [hdone pc hpc]; nofun
  have hupdates : s.updates = s.swaps := by
    have hpending := hinv.pending
    omega
  constructor
  · obtain ⟨datas, hdatas, hids⟩ := hinv.ids
    rw [hupdates, hinv.m_datas] at hdatas
    cases hdatas
    exact hids
  · intro item hitem hgone
    have hclose : s.toClose item = 0 := by
      refine List.sum_eq_zero_iff_forall_eq_nat.mpr fun n hn => ?_
      obtain ⟨pc, hpc, rfl⟩ := List.mem_map.mp hn
      rw [hdone pc hpc]
      rfl
    have htokens := hinv.tokens item
    rw [count_eq_one_of_mem hinv.nodup hitem, count_eq_zero.mpr hgone, hclose] at htokens
    omega

/-- The steps for children on the host `1.0.0.0`: `inet_addr` is 1 (network byte order,
little-endian), and a port is read as `strtoull` reads digits. -/
def oneHost : State → Label → Option State :=
  step (fun _ => 1) fun port => port.foldl (fun n c => 10 * n + (c.toNat - 48).toUInt64) 0

/-- A child comes and goes. -/
def comesAndGoes : List Label :=
  [.getChildren ["1.0.0.0:1".toList], .getChildren [], .move 0, .move 1, .move 0, .move 0,
   .move 0, .move 1, .move 1, .move 0, .move 1, .move 1]

theorem balancer_follows_comesAndGoes :
    ∃ s, exec oneHost init comesAndGoes = some s ∧ s.placed = [⟨0x100000001, 0⟩]
      ∧ (∀ id, id ∈ s.current ↔ id ∈ s.m_datas) ∧ s.closed.count ⟨0x100000001, 0⟩ = 1 := by
  have hrun : exec oneHost init comesAndGoes = some _ := rfl
  have halong : Along oneHost InOrder init comesAndGoes := by decide
  have hfollows := balancer_follows (reaches_of_exec halong hrun) (by decide)
  exact ⟨_, hrun, rfl, hfollows.1, hfollows.2 _ mem_cons_self (by decide)⟩

/-- The call that takes the child away overtakes the one that brings it. -/
def overtakes : List Label :=
  [.getChildren ["1.0.0.0:1".toList], .getChildren [], .move 0, .move 1, .move 1, .move 1,
   .move 1, .move 1, .move 0, .move 0, .move 0]

/-- **A later swap is updated first**: `m_datas` is empty, and the balancer has a child. -/
theorem updates_overtake :
    ∃ s, exec oneHost init overtakes = some s ∧ (∀ pc ∈ s.threads, pc = .done)
      ∧ 0x100000001 ∈ s.current ∧ 0x100000001 ∉ s.m_datas :=
  ⟨_, rfl, by decide, by decide, by decide⟩

-- Two calls that find no balancer each store one; what went into the first is lost, though
-- the updates come in the order of the swaps.
example : ∃ s, exec oneHost init
    [.getChildren ["1.0.0.0:1".toList],
      .getChildren ["1.0.0.0:1".toList, "1.0.0.0:2".toList], .move 0, .move 1, .move 0, .move 1,
      .move 0, .move 0, .move 0, .move 1, .move 1, .move 1] = some s
    ∧ (∀ pc ∈ s.threads, pc = .done) ∧ s.current.keys = [0x100000002]
    ∧ 0x100000001 ∈ s.m_datas :=
  ⟨_, rfl, by decide, rfl, by decide⟩

end SylarLoadBalance
