import LwipPoc.Netif.EtharpStatic

/-!
# Whose entries these are

`etharp_cleanup_netif` is to remove the entries of an interface that goes away. It goes by the field
`netif` of an entry, and that field is written in one place only, by `etharp_update_arp_entry`. An entry
that `etharp_query` creates **keeps the interface of whatever was in the slot before**, until it is
resolved.

The interface on whose behalf an entry was created is no variable of the module; it is kept beside it
(`Kept.creator`). In a run in which no step makes the two differ, a cleanup removes what it should and
nothing else; and the first step that makes them differ is the end of that (`cleanup_exact`).
-/

namespace Lwip.Arp

variable {π : Type*}

namespace ArpTable

variable {t : ArpTable π} {ip : IpAddr} {i j : ArpIdx}

/-! ### What a search changes -/

/-- An entry that is left alone, or freed. -/
structure Left (e e' : EtharpEntry π) : Prop where
  netif : e'.netif = e.netif
  state : e'.state ≠ .empty → e.state ≠ .empty

theorem Left.refl (e : EtharpEntry π) : Left e e := ⟨rfl, id⟩

theorem Left.trans {e₁ e₂ e₃ : EtharpEntry π} (h : Left e₁ e₂) (h' : Left e₂ e₃) : Left e₁ e₃ :=
  ⟨h'.netif.trans h.netif, fun hs ↦ h.state (h'.state hs)⟩

/-- A search leaves the entries alone, or frees them, and changes only the one that it returns. -/
def Searches (t : ArpTable π) (r : Option ArpIdx × ArpTable π) : Prop :=
  ∀ i, Left (t i) (r.2 i) ∧ (r.1 ≠ some i → r.2 i = t i)

theorem freeEntry_left (t : ArpTable π) (i j : ArpIdx) : Left (t i) (t.freeEntry j i) := by
  rw [freeEntry]
  by_cases hij : i = j
  · subst hij
    rw [Function.update_self]
    exact ⟨rfl, fun hs ↦ absurd rfl hs⟩
  · rw [Function.update_of_ne hij]
    exact .refl _

theorem create_searches {r : Option ArpIdx × ArpTable π} (h : t.create ip j = some r) :
    r.1 = some j ∧ Searches t r := by
  rw [create] at h
  split_ifs at h with hempty
  obtain rfl := Option.some.inj h
  refine ⟨rfl, fun i ↦ ?_⟩
  by_cases hij : i = j
  · subst hij
    refine ⟨?_, fun hne ↦ absurd rfl hne⟩
    dsimp only
    rw [Function.update_self]
    exact ⟨rfl, id⟩
  · dsimp only
    rw [Function.update_of_ne hij]
    exact ⟨.refl _, fun _ ↦ rfl⟩

theorem recycle_searches {r : Option ArpIdx × ArpTable π} (h : (t.freeEntry j).create ip j = some r) :
    Searches t r := by
  obtain ⟨hj, hsearches⟩ := create_searches h
  refine fun i ↦ ⟨(freeEntry_left t i j).trans (hsearches i).1, fun hne ↦ ((hsearches i).2 hne).trans ?_⟩
  have hij : i ≠ j := by
    rintro rfl
    exact hne hj
  exact Function.update_of_ne hij ..

theorem tmrEntry_left (e : EtharpEntry π) : Left e (tmrEntry e) := by
  rcases tmrEntry_cases e with ⟨-, heq⟩ | ⟨c, heq⟩ | ⟨c, st, heq, ⟨-, hst, -⟩ | ⟨-, hst, -⟩⟩ <;> rw [heq]
  · exact .refl e
  · exact ⟨rfl, fun hs ↦ absurd rfl hs⟩
  · refine ⟨rfl, fun _ hempty ↦ ?_⟩
    rw [hempty] at hst
    cases hst
  · refine ⟨rfl, fun _ hempty ↦ ?_⟩
    rw [hempty] at hst
    exact hst.elim nofun nofun

/-- **A search records no interface.** -/
theorem etharpFindEntry_searches {tryHard findOnly : Bool} {r : Option ArpIdx × ArpTable π}
    (h : t.etharpFindEntry ip tryHard findOnly = some r) : Searches t r := by
  have hsame : ∀ o, Searches t (o, t) := fun o i ↦ ⟨.refl _, fun _ ↦ rfl⟩
  rw [etharpFindEntry] at h
  split at h
  · obtain rfl := Option.some.inj h
    exact hsame _
  split_ifs at h
  · obtain rfl := Option.some.inj h
    exact hsame _
  split at h
  · exact (create_searches h).2
  split at h
  · split_ifs at h
    exact recycle_searches h
  split at h
  · exact recycle_searches h
  split at h
  · exact recycle_searches h
  · obtain rfl := Option.some.inj h
    exact hsame _

end ArpTable

namespace Etharp

variable {s s' : Etharp π} {queueing : Bool} {i : ArpIdx}

/-! ### The search of a call -/

/-- A search for an entry, on behalf of an interface. -/
structure Search where
  netif : ℕ
  ipaddr : IpAddr
  tryHard : Bool
  findOnly : Bool
  /-- The interface is recorded in the entry. -/
  record : Bool
  deriving DecidableEq, Repr

/-- The entry is one that may be looked for. -/
def unicast (ipaddr : IpAddr) (netif : Netif) : Bool :=
  !(ipAddrIsAny ipaddr || ipAddrIsBroadcast ipaddr netif || ipAddrIsMulticast ipaddr)

/-- The search of `etharp_update_arp_entry`. -/
def updateSearch (netif : Netif) (ipaddr : IpAddr) (tryHard findOnly : Bool) : Option Search :=
  if unicast ipaddr netif then some ⟨netif.num, ipaddr, tryHard, findOnly, true⟩ else none

/-- The search of `etharp_query`. -/
def querySearch (netif : Netif) (ipaddr : IpAddr) : Option Search :=
  if unicast ipaddr netif then some ⟨netif.num, ipaddr, true, false, false⟩ else none

/-- The search of a call of `etharp_output`: it comes to a query if no resolved entry has the address of
the next hop. -/
def outputSearch (s : Etharp π) (env : EtharpEnv) (netif : Netif) (ipaddr : IpAddr) : Option Search :=
  if env.header = false then none
  else if ipAddrIsBroadcast ipaddr netif then none
  else if ipAddrIsMulticast ipaddr then none
  else
    match nextHop netif ipaddr with
    | none => none
    | some dst =>
      if (s.table s.cached).state.resolved = true ∧ dst = (s.table s.cached).ipaddr then none
      else
        match (List.finRange arpTableSize).find? fun i ↦
            (s.table i).state.resolved && dst = (s.table i).ipaddr with
        | some _ => none
        | none => querySearch netif dst

/-- The search of a call that may make or update an entry. -/
def Call.search (s : Etharp π) : Call π → Option Search
  | .arpInput netif hdr =>
    if hdr.wellFormed = false then none
    else
      let forUs : Bool := !ipAddrIsAny netif.ipAddr && hdr.dipaddr = netif.ipAddr
      updateSearch netif hdr.sipaddr forUs (!forUs)
  | .addStaticEntry (some netif) ipaddr _ => updateSearch netif ipaddr true false
  | .output env netif _ ipaddr => s.outputSearch env netif ipaddr
  | .query _ netif ipaddr _ => querySearch netif ipaddr
  | _ => none

/-- The entry that a search returns, and whether it was created. -/
def Search.entry (r : Search) (s : Etharp π) : Option (Search × ArpIdx × Bool) :=
  match s.table.etharpFindEntry r.ipaddr r.tryHard r.findOnly with
  | some (some i, t) => some (r, i, (t i).state = .empty)
  | _ => none

/-- The entry that a call makes or updates. -/
def Call.touches (s : Etharp π) (c : Call π) : Option (Search × ArpIdx × Bool) :=
  (c.search s).bind (Search.entry · s)

/-! ### What a call records -/

/-- What a call does that makes or updates at most one entry. -/
structure Touched (s s' : Etharp π) (o : Option (Search × ArpIdx × Bool)) : Prop where
  other : ∀ j, (∀ r i fresh, o = some (r, i, fresh) → j ≠ i) → ArpTable.Left (s.table j) (s'.table j)
  used : ∀ r i fresh, o = some (r, i, fresh) → (s'.table i).state ≠ .empty
  netif : ∀ r i fresh, o = some (r, i, fresh) →
    (s'.table i).netif = if r.record = true then some r.netif else (s.table i).netif
  found : ∀ r i, o = some (r, i, false) → (s.table i).state ≠ .empty

theorem touched_none (h : ∀ j, ArpTable.Left (s.table j) (s'.table j)) : Touched s s' none :=
  ⟨fun j _ ↦ h j, nofun, nofun, nofun⟩

theorem touched_same (h : s'.table = s.table) : Touched s s' none :=
  touched_none fun j ↦ by rw [h]; exact .refl _

/-- A search without a result. -/
theorem touched_missing {r : Search} {t : ArpTable π}
    (h : s.table.etharpFindEntry r.ipaddr r.tryHard r.findOnly = some (none, t)) (ht : s'.table = t) :
    Touched s s' (r.entry s) := by
  rw [Search.entry, h]
  refine touched_none fun j ↦ ?_
  rw [ht]
  exact (ArpTable.etharpFindEntry_searches h j).1

/-- The entry that was found is used, and no other is changed. -/
theorem touched_found {r : Search} {t : ArpTable π} {e : EtharpEntry π}
    (h : s.table.etharpFindEntry r.ipaddr r.tryHard r.findOnly = some (some i, t))
    (ht : s'.table = Function.update t i e) (hused : e.state ≠ .empty)
    (hnetif : e.netif = if r.record = true then some r.netif else (t i).netif) :
    Touched s s' (r.entry s) := by
  have hsearch := ArpTable.etharpFindEntry_searches h
  rw [Search.entry, h]
  refine ⟨fun j hj ↦ ?_, fun r' i' f hr ↦ ?_, fun r' i' f hr ↦ ?_, fun r' i' hr ↦ ?_⟩
  · rw [ht, Function.update_of_ne (hj _ _ _ rfl)]
    exact (hsearch j).1
  · cases hr
    rw [ht, Function.update_self]
    exact hused
  · cases hr
    rw [ht, Function.update_self, hnetif, (hsearch i).1.netif]
  · obtain ⟨rfl, rfl, hfresh⟩ : r = r' ∧ i = i' ∧ decide ((t i).state = .empty) = false := by
      simpa using hr
    exact (hsearch i).1.state (of_decide_eq_false hfresh)

theorem etharpUpdateArpEntry_touched {netif : Netif} {ipaddr : IpAddr} {ethaddr : EthAddr}
    {tryHard findOnly static : Bool} {e : Err}
    (h : s.etharpUpdateArpEntry netif ipaddr ethaddr tryHard findOnly static = some (e, s')) :
    Touched s s' ((updateSearch netif ipaddr tryHard findOnly).bind (Search.entry · s)) := by
  rw [etharpUpdateArpEntry] at h
  rw [updateSearch, unicast]
  by_cases hkind : (ipAddrIsAny ipaddr || ipAddrIsBroadcast ipaddr netif || ipAddrIsMulticast ipaddr) = true
  · rw [if_pos hkind] at h
    rw [hkind, if_neg (by decide), ← (Prod.mk.inj (Option.some.inj h)).2]
    exact touched_same rfl
  · rw [if_neg hkind] at h
    rw [if_pos (by rw [Bool.eq_false_of_not_eq_true hkind]; rfl), Option.bind_some]
    obtain ⟨⟨o, t⟩, hfind, heq⟩ := Option.map_eq_some_iff.1 h
    cases o with
    | none => exact touched_missing hfind (congrArg Etharp.table (Prod.mk.inj heq).2).symm
    | some i =>
      refine touched_found hfind (congrArg Etharp.table (Prod.mk.inj heq).2).symm ?_ rfl
      show (if static = true then EtharpState.static else .stable) ≠ .empty
      split_ifs <;> decide

theorem unicast_eq (ipaddr : IpAddr) (netif : Netif) :
    unicast ipaddr netif =
      !(ipAddrIsBroadcast ipaddr netif || ipAddrIsMulticast ipaddr || ipAddrIsAny ipaddr) := by
  rw [unicast, Bool.or_assoc, Bool.or_comm (ipAddrIsAny ipaddr)]

theorem etharpQuery_touched {env : EtharpEnv} {netif : Netif} {ipaddr : IpAddr} {q : Option π} {e : Err}
    (h : s.etharpQuery queueing env netif ipaddr q = some (e, s')) :
    Touched s s' ((querySearch netif ipaddr).bind (Search.entry · s)) := by
  rw [etharpQuery] at h
  rw [querySearch, unicast_eq]
  by_cases hkind : (ipAddrIsBroadcast ipaddr netif || ipAddrIsMulticast ipaddr || ipAddrIsAny ipaddr) = true
  · rw [if_pos hkind] at h
    rw [hkind, if_neg (by decide), ← (Prod.mk.inj (Option.some.inj h)).2]
    exact touched_same rfl
  · rw [if_neg hkind] at h
    rw [if_pos (by rw [Bool.eq_false_of_not_eq_true hkind]; rfl), Option.bind_some]
    obtain ⟨⟨o, t⟩, hfind, heq⟩ := Option.map_eq_some_iff.1 h
    cases o with
    | none => exact touched_missing hfind (congrArg Etharp.table (Prod.mk.inj heq).2).symm
    | some i =>
      simp only at heq
      set a : EtharpEntry π := { t i with state := if (t i).state = .empty then .pending
        else (t i).state } with ha
      have hused : a.state ≠ .empty := by
        show (if (t i).state = .empty then EtharpState.pending else (t i).state) ≠ .empty
        split_ifs with hempty
        · decide
        · exact hempty
      set s₁ : Etharp π := { s with table := Function.update t i a } with hs₁
      set s₂ := if (s₁.table i).state = .pending ∨ q.isNone = true then
        s₁.etharpRequest env netif ipaddr else s₁ with hs₂
      have htable : s₂.table = Function.update t i a := by
        rw [hs₂]
        split_ifs
        · exact etharpRequest_table s₁ env netif ipaddr
        · rfl
      -- whatever happens to the packet: the entry has a state, and its interface is the old one
      have hfound : ∀ u : Etharp π, ∀ l, u.table = Function.update t i { a with q := l } →
          Touched s u (Search.entry ⟨netif.num, ipaddr, true, false, false⟩ s) := fun u l hu ↦
        touched_found hfind hu hused rfl
      cases q with
      | none =>
        rw [← (Prod.mk.inj heq).2]
        exact hfound _ a.q htable
      | some p =>
        simp only at heq
        split_ifs at heq <;> rw [← (Prod.mk.inj heq).2]
        · exact hfound _ a.q htable
        · refine hfound _ (enqueue queueing env (s₂.table i).q p).2 ?_
          show Function.update s₂.table i _ = _
          rw [htable, Function.update_self, Function.update_idem]

theorem etharpOutputToArpIndex_touched {env : EtharpEnv} {netif : Netif} {p : π} {e : Err}
    (h : s.etharpOutputToArpIndex env netif p i = some (e, s')) : Touched s s' none := by
  rw [etharpOutputToArpIndex] at h
  split_ifs at h with hres hold hreq <;> rw [← (Prod.mk.inj (Option.some.inj h)).2]
  · refine touched_none fun j ↦ ?_
    show ArpTable.Left (s.table j) (Function.update (s.etharpRequest env netif _).table i _ j)
    rw [etharpRequest_table]
    by_cases hij : j = i
    · subst hij
      rw [Function.update_self]
      refine ⟨rfl, fun _ hempty ↦ ?_⟩
      rw [hempty] at hres
      exact absurd hres (by decide)
    · rw [Function.update_of_ne hij]
      exact .refl _
  · refine touched_same ?_
    show (s.etharpRequest env netif _).table = s.table
    rw [etharpRequest_table]
  · exact touched_same rfl

theorem Touched.of_table {u : Etharp π} {o : Option (Search × ArpIdx × Bool)} (h : Touched u s' o)
    (hu : u.table = s.table) : Touched s s' o :=
  ⟨fun j hj ↦ hu ▸ h.other j hj, h.used, fun r i f ho ↦ hu ▸ h.netif r i f ho,
    fun r i ho ↦ hu ▸ h.found r i ho⟩

theorem etharpOutput_touched {env : EtharpEnv} {netif : Netif} {p : π} {ipaddr : IpAddr} {e : Err}
    (h : s.etharpOutput queueing env netif p ipaddr = some (e, s')) :
    Touched s s' ((s.outputSearch env netif ipaddr).bind (Search.entry · s)) := by
  rw [etharpOutput] at h
  rw [outputSearch]
  split_ifs at h ⊢
  · rw [← (Prod.mk.inj (Option.some.inj h)).2]
    exact touched_same rfl
  · rw [← (Prod.mk.inj (Option.some.inj h)).2]
    exact touched_same rfl
  · rw [← (Prod.mk.inj (Option.some.inj h)).2]
    exact touched_same rfl
  cases hhop : nextHop netif ipaddr with
  | none =>
    rw [hhop] at h
    rw [← (Prod.mk.inj (Option.some.inj h)).2]
    exact touched_same rfl
  | some dst =>
    rw [hhop] at h
    dsimp only at h ⊢
    by_cases hcached : (s.table s.cached).state.resolved = true ∧ dst = (s.table s.cached).ipaddr
    · rw [if_pos hcached] at h ⊢
      exact etharpOutputToArpIndex_touched h
    rw [if_neg hcached] at h ⊢
    rcases hj : (List.finRange arpTableSize).find? fun i ↦
        (s.table i).state.resolved && dst = (s.table i).ipaddr with _ | j
    · rw [hj] at h
      exact etharpQuery_touched h
    · rw [hj] at h
      have htouched := etharpOutputToArpIndex_touched h
      exact htouched.of_table rfl

theorem etharpArpInput_touched {netif : Netif} {hdr : ArpPacket} (h : s.etharpArpInput netif hdr = some s') :
    Touched s s' (Call.touches s (.arpInput netif hdr)) := by
  rw [etharpArpInput] at h
  rw [Call.touches, Call.search]
  split_ifs at h ⊢
  · rw [← Option.some.inj h]
    exact touched_same rfl
  · obtain ⟨⟨e, u⟩, hupdate, hu⟩ := Option.map_eq_some_iff.1 h
    have htouched := etharpUpdateArpEntry_touched hupdate
    have htable : s'.table = u.table := by
      rw [← hu]
      dsimp only
      split_ifs <;> rfl
    exact ⟨fun j hj ↦ htable ▸ htouched.other j hj, fun r i f ho ↦ htable ▸ htouched.used r i f ho,
      fun r i f ho ↦ htable ▸ htouched.netif r i f ho, htouched.found⟩

theorem etharpRemoveStaticEntry_touched {ipaddr : IpAddr} {e : Err}
    (h : s.etharpRemoveStaticEntry ipaddr = some (e, s')) : Touched s s' none := by
  obtain ⟨⟨o, t⟩, hfind, heq⟩ := Option.map_eq_some_iff.1 h
  have hsearch := ArpTable.etharpFindEntry_searches hfind
  refine touched_none fun j ↦ ?_
  cases o with
  | none =>
    rw [← (Prod.mk.inj heq).2]
    exact (hsearch j).1
  | some i =>
    dsimp only at heq
    split_ifs at heq <;> rw [← (Prod.mk.inj heq).2]
    · exact (hsearch j).1
    · exact (hsearch j).1.trans (ArpTable.freeEntry_left t j i)

/-- **Every call** makes or updates the entry of its search, if there is one, and leaves the others alone
or frees them. -/
theorem step_touched {c : Call π} (h : step queueing c s = some s') : Touched s s' (c.touches s) := by
  cases c with
  | arpInput netif hdr => exact etharpArpInput_touched h
  | addStaticEntry route ipaddr ethaddr =>
    obtain ⟨⟨e, u⟩, hcall, rfl⟩ := Option.map_eq_some_iff.1 h
    cases route with
    | none =>
      rw [show u = s from (Prod.mk.inj (Option.some.inj hcall)).2.symm]
      exact touched_same rfl
    | some netif => exact etharpUpdateArpEntry_touched hcall
  | removeStaticEntry ipaddr =>
    obtain ⟨⟨e, u⟩, hcall, rfl⟩ := Option.map_eq_some_iff.1 h
    exact etharpRemoveStaticEntry_touched hcall
  | cleanupNetif n =>
    rw [← Option.some.inj h]
    refine touched_none fun j ↦ ?_
    show ArpTable.Left (s.table j) (if _ then _ else _)
    split_ifs
    · exact ⟨rfl, fun hs ↦ absurd rfl hs⟩
    · exact .refl _
  | output env netif p ipaddr =>
    obtain ⟨⟨e, u⟩, hcall, rfl⟩ := Option.map_eq_some_iff.1 h
    exact etharpOutput_touched hcall
  | query env netif ipaddr q =>
    obtain ⟨⟨e, u⟩, hcall, rfl⟩ := Option.map_eq_some_iff.1 h
    exact etharpQuery_touched hcall
  | tmr =>
    rw [← Option.some.inj h]
    refine touched_none fun j ↦ ?_
    exact ArpTable.tmrEntry_left (s.table j)

end Etharp

/-! ### The interface of an entry -/

/-- The module, and beside it the interface on whose behalf each entry was created. -/
structure Kept (π : Type*) where
  etharp : Etharp π
  creator : ArpIdx → ℕ

namespace Kept

open Etharp (Call)

variable {k k' : Kept π} {queueing : Bool}

/-- A call; an entry that it creates belongs to its interface. -/
def step (queueing : Bool) (c : Call π) (k : Kept π) : Option (Kept π) :=
  (Etharp.step queueing c k.etharp).map fun s' ↦
    ⟨s', match c.touches k.etharp with
      | some (r, i, true) => Function.update k.creator i r.netif
      | _ => k.creator⟩

/-- The start: an empty table. -/
def init : Kept π := ⟨Etharp.init, fun _ ↦ 0⟩

/-- **What a cleanup should do**: of the entries in use it removes those of the interface, and leaves the
others as they are. -/
def CleansUp (k : Kept π) (n : ℕ) : Prop :=
  ∀ i, (k.etharp.table i).state ≠ .empty →
    (k.creator i = n → (k.etharp.table.etharpCleanupNetif n i).state = .empty) ∧
    (k.creator i ≠ n → k.etharp.table.etharpCleanupNetif n i = k.etharp.table i)

/-- **The condition**: a query that creates an entry takes a slot in which its interface is recorded
already; and an update of an entry comes from the interface for which the entry was created. -/
def Records (c : Call π) (k : Kept π) : Prop :=
  ∀ x ∈ c.touches k.etharp,
    if x.2.2 = true then x.1.record = true ∨ (k.etharp.table x.2.1).netif = some x.1.netif
    else x.1.record = true → k.creator x.2.1 = x.1.netif

instance (c : Call π) (k : Kept π) : Decidable (Records c k) :=
  inferInstanceAs (Decidable (∀ x ∈ c.touches k.etharp, _))

/-- An entry whose recorded interface is not its own, in a cleanup of one of the two. -/
theorem not_cleansUp {i : ArpIdx} {n : ℕ} (hi : (k.etharp.table i).state ≠ .empty)
    (h : ¬((k.etharp.table i).netif = some n ↔ k.creator i = n)) : ¬k.CleansUp n := by
  intro hclean
  obtain ⟨hgone, hstays⟩ := hclean i hi
  refine h ⟨fun hn ↦ by_contra fun hc ↦ ?_, fun hc ↦ by_contra fun hn ↦ ?_⟩
  · have hempty : (k.etharp.table.etharpCleanupNetif n i).state = .empty := by
      rw [ArpTable.etharpCleanupNetif, if_pos ⟨hi, hn⟩]
    exact hi (hstays hc ▸ hempty)
  · have hsame : k.etharp.table.etharpCleanupNetif n i = k.etharp.table i := if_neg fun h ↦ hn h.2
    exact hi (hsame ▸ hgone hc)

/-- Cleanups do what they should as long as the recorded interfaces are right. -/
theorem cleansUp_iff :
    (∀ n, k.CleansUp n) ↔
      ∀ i, (k.etharp.table i).state ≠ .empty → (k.etharp.table i).netif = some (k.creator i) := by
  constructor
  · intro h i hi
    by_contra hne
    exact not_cleansUp hi (fun hc ↦ hne (hc.2 rfl)) (h _)
  · intro h n i hi
    constructor
    · rintro rfl
      rw [ArpTable.etharpCleanupNetif, if_pos ⟨hi, h i hi⟩]
    · intro hne
      refine if_neg fun hc ↦ hne ?_
      exact Option.some.inj ((h i hi).symm.trans hc.2)

/-- **One step** from where the recorded interfaces are right: they are right afterwards if and only if
the step meets the condition. -/
theorem step_records {c : Call π} (h : ∀ n, k.CleansUp n) (hstep : step queueing c k = some k') :
    (∀ n, k'.CleansUp n) ↔ Records c k := by
  rw [cleansUp_iff] at h ⊢
  obtain ⟨s', hs', rfl⟩ := Option.map_eq_some_iff.1 hstep
  have htouched := Etharp.step_touched hs'
  rw [Records]
  dsimp only
  generalize c.touches k.etharp = o at htouched
  match o with
  | none =>
    refine iff_of_true (fun i hi ↦ ?_) nofun
    have hleft := htouched.other i nofun
    exact hleft.netif.trans (h i (hleft.state hi))
  | some (r, i, true) =>
    have hused := htouched.used r i true rfl
    have hnetif := htouched.netif r i true rfl
    have hiff : (s'.table i).netif = some r.netif ↔ r.record = true ∨ (k.etharp.table i).netif = some r.netif := by
      rw [hnetif]
      split_ifs with hr <;> simp [hr]
    simp only [Option.mem_def, Option.some.injEq, forall_eq', if_true]
    rw [← hiff]
    refine ⟨fun hall ↦ (hall i hused).trans (by rw [Function.update_self]), fun hi j hj ↦ ?_⟩
    by_cases hij : j = i
    · rw [hij, Function.update_self, hi]
    · have hleft := htouched.other j (by rintro _ _ _ ⟨⟩; exact hij)
      rw [Function.update_of_ne hij]
      exact hleft.netif.trans (h j (hleft.state hj))
  | some (r, i, false) =>
    have hused := htouched.used r i false rfl
    have hnetif := htouched.netif r i false rfl
    have hold := h i (htouched.found r i rfl)
    have hiff : (s'.table i).netif = some (k.creator i) ↔ (r.record = true → k.creator i = r.netif) := by
      rw [hnetif]
      split_ifs with hr
      · rw [Option.some_inj, eq_comm]
        simp [hr]
      · simp [hr, hold]
    simp only [Option.mem_def, Option.some.injEq, forall_eq', Bool.false_eq_true, if_false]
    rw [← hiff]
    refine ⟨fun hall ↦ hall i hused, fun hi j hj ↦ ?_⟩
    by_cases hij : j = i
    · rw [hij, hi]
    · have hleft := htouched.other j (by rintro _ _ _ ⟨⟩; exact hij)
      exact hleft.netif.trans (h j (hleft.state hj))

/-- **Cleanups do what they should** in every state of a run whose steps meet the condition, and no longer
after the first step that does not. -/
theorem cleanup_exact {cs : List (Call π)}
    (h : runLabels (guardStep Records (step queueing)) cs init = some k) :
    (∀ n, k.CleansUp n) ∧
      ∀ c k', step queueing c k = some k' → ((∀ n, k'.CleansUp n) ↔ Records c k) := by
  have hright : ∀ n, k.CleansUp n := by
    refine runLabels_invariant (I := fun k ↦ ∀ n, CleansUp k n) ?_ (fun c k k' hk hl ↦ ?_) h
    · exact cleansUp_iff.2 fun i hi ↦ absurd rfl hi
    · obtain ⟨hrecords, hl⟩ := guardStep_eq_some.1 hl
      exact (step_records hk hl).2 hrecords
  exact ⟨hright, fun c k' hl ↦ step_records hright hl⟩

/-- An ARP reply at an interface makes an entry that its cleanup removes. -/
theorem cleanup_exact_resolved :
    ∃ k : Kept ℕ, runLabels (guardStep Records (step true))
        [.arpInput Etharp.exampleNetif ⟨true, 0x0200000a, 0x0100000a, 0x020000000002, false⟩] init = some k ∧
      (k.etharp.table ⟨0, by decide⟩).state = .stable ∧ ∀ n, k.CleansUp n := by
  refine exists_run_of_observe (fun k ↦ (k.etharp.table ⟨0, by decide⟩).state) .stable (by decide)
    fun k hrun hobs ↦ ?_
  exact ⟨hobs, (cleanup_exact hrun).1⟩

/-- **An entry that stays, and one that goes**: a packet for `10.0.0.2` waits at interface 0, and the
cleanup of the interface leaves it there; and after an entry of interface 0 was cleaned up, the next
one in the slot is made for interface 1, and the next cleanup of interface 0 takes it. -/
theorem cleanup_misses :
    (∃ k : Kept ℕ, runLabels (step true)
        [.query ⟨.ok, .ok, true, true, true⟩ Etharp.exampleNetif 0x0200000a (some 7)] init = some k ∧
      ¬ k.CleansUp 0) ∧
    ∃ k : Kept ℕ, runLabels (step true)
        [.arpInput Etharp.exampleNetif ⟨true, 0x0200000a, 0x0100000a, 0x020000000002, false⟩, .cleanupNetif 0,
          .query ⟨.ok, .ok, true, true, true⟩ { Etharp.exampleNetif with num := 1 } 0x0300000a (some 7)]
        init = some k ∧
      ¬ k.CleansUp 0 := by
  have hobserve : ∀ k : Kept ℕ, ∀ st netif creator, st ≠ EtharpState.empty → ¬(netif = some 0 ↔ creator = 0) →
      ((k.etharp.table ⟨0, by decide⟩).state, (k.etharp.table ⟨0, by decide⟩).netif,
        k.creator ⟨0, by decide⟩) = (st, netif, creator) → ¬ k.CleansUp 0 := by
    rintro k _ _ _ hst hne ⟨⟩
    exact not_cleansUp hst hne
  exact ⟨exists_run_of_observe _ (.pending, none, 0) (by decide) fun k _ hobs ↦
      hobserve k _ _ _ (by decide) (by decide) hobs,
    exists_run_of_observe _ (.pending, some 0, 1) (by decide) fun k _ hobs ↦
      hobserve k _ _ _ (by decide) (by decide) hobs⟩

end Kept

end Lwip.Arp
