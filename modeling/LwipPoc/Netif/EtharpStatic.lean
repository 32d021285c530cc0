import LwipPoc.Netif.EtharpInv

/-!
# Static ARP entries

A static entry is meant to stay as it was set until it is removed. Ticks, recycling, output and
queries leave it alone, each for a reason of its own: `etharp_tmr` passes over it, the sweep of
`etharp_find_entry` never remembers it as a candidate, and `etharp_query` sends at once.

**An ARP packet does not.** `etharp_update_arp_entry` looks for the entry of the sender's address and
sets it to `STABLE` with the sender's Ethernet address, whatever the entry was. So a static entry is
stable in exactly those runs in which no ARP packet claims its address (`static_entry_stable_iff`).
-/

namespace Lwip.Arp

variable {π : Type*}

namespace ArpTable

variable {t t' : ArpTable π} {ip : IpAddr} {i j : ArpIdx} {is : List ArpIdx}

/-! ### What is never recycled -/

/-- No candidate for recycling is a static entry. -/
structure Candidates.SpareStatic (c : Candidates) (t : ArpTable π) : Prop where
  empty : ∀ i ∈ c.empty, (t i).state ≠ .static
  oldStable : ∀ i ∈ c.oldStable, (t i).state ≠ .static
  oldPending : ∀ i ∈ c.oldPending, (t i).state ≠ .static
  oldQueue : ∀ i ∈ c.oldQueue, (t i).state ≠ .static

theorem Candidates.SpareStatic.remember {c : Candidates} (h : c.SpareStatic t) (i : ArpIdx) :
    (c.remember (t i) i).SpareStatic t := by
  have hsome : (t i).state ≠ .static → ∀ j ∈ some i, (t j).state ≠ .static := fun hi j hj ↦
    Option.some.inj hj ▸ hi
  rw [Candidates.remember]
  split
  · next hs =>
    split_ifs
    · exact ⟨hsome (by rw [hs]; decide), h.oldStable, h.oldPending, h.oldQueue⟩
    · exact h
  · next hs =>
    split_ifs
    · exact ⟨h.empty, h.oldStable, h.oldPending, hsome (by rw [hs]; decide)⟩
    · exact h
    · exact ⟨h.empty, h.oldStable, hsome (by rw [hs]; decide), h.oldQueue⟩
    · exact h
  · next hs =>
    split_ifs
    · exact ⟨h.empty, hsome (by rw [hs]; decide), h.oldPending, h.oldQueue⟩
    · exact h
  · next hs =>
    split_ifs
    · exact ⟨h.empty, hsome (by rw [hs]; decide), h.oldPending, h.oldQueue⟩
    · exact h
  · exact h

theorem sweep_spareStatic {c c' : Candidates} (hc : c.SpareStatic t)
    (h : sweep t ip is c = .inr c') : c'.SpareStatic t := by
  induction is generalizing c with
  | nil => exact Sum.inr.inj h ▸ hc
  | cons i is ih =>
    rw [sweep] at h
    split_ifs at h
    exact ih (hc.remember i) h

/-- Creating an entry changes that entry only. -/
theorem create_other {r : Option ArpIdx} (h : t.create ip j = some (r, t')) (hij : i ≠ j) :
    t' i = t i := by
  rw [create] at h
  split_ifs at h
  rw [← (Prod.mk.inj (Option.some.inj h)).2, Function.update_of_ne hij]

/-- **`etharp_find_entry` keeps static entries**: it creates an entry elsewhere, or none. -/
theorem etharpFindEntry_static {tryHard findOnly : Bool} {r : Option ArpIdx}
    (h : t.etharpFindEntry ip tryHard findOnly = some (r, t')) (hi : (t i).state = .static) :
    t' i = t i := by
  have hcand : (⟨none, none, 0, none, 0, none, 0⟩ : Candidates).SpareStatic t :=
    ⟨nofun, nofun, nofun, nofun⟩
  -- a recycled entry is not this one
  have hrecycle : ∀ j, (t j).state ≠ .static → (t.freeEntry j).create ip j = some (r, t') →
      t' i = t i := fun j hj hcreate ↦ by
    have hij : i ≠ j := fun heq ↦ hj (heq ▸ hi)
    rw [create_other hcreate hij, ArpTable.freeEntry, Function.update_of_ne hij]
  rw [etharpFindEntry] at h
  cases hsweep : sweep t ip (List.finRange arpTableSize) ⟨none, none, 0, none, 0, none, 0⟩ with
  | inl j =>
    rw [hsweep] at h
    rw [← (Prod.mk.inj (Option.some.inj h)).2]
  | inr c =>
    have hc := sweep_spareStatic hcand hsweep
    rw [hsweep] at h
    simp only at h
    split_ifs at h
    · rw [← (Prod.mk.inj (Option.some.inj h)).2]
    split at h
    · next j hj => exact create_other h fun heq ↦ hc.empty j hj (heq ▸ hi)
    split at h
    · next j hj =>
      split_ifs at h
      exact hrecycle j (hc.oldStable j hj) h
    split at h
    · next j hj => exact hrecycle j (hc.oldPending j hj) h
    split at h
    · next j hj => exact hrecycle j (hc.oldQueue j hj) h
    · rw [← (Prod.mk.inj (Option.some.inj h)).2]

/-- The entry of an address is found, and nothing changes. -/
theorem Inv.etharpFindEntry_self (h : t.Inv) (hi : (t i).state ≠ .empty) (hip : (t i).ipaddr = ip)
    (tryHard findOnly : Bool) : t.etharpFindEntry ip tryHard findOnly = some (some i, t) := by
  have hcand : (⟨none, none, 0, none, 0, none, 0⟩ : Candidates).Ok t := ⟨nofun, nofun⟩
  rw [ArpTable.etharpFindEntry]
  rcases @sweep_spec π t ip (List.finRange arpTableSize) _ hcand with
    ⟨j, heq, hs, hjp⟩ | ⟨c, -, -, hall⟩
  · obtain rfl : j = i := h.unique j i hs hi (hjp.symm.trans hip.symm)
    rw [heq]
  · exact absurd hip (hall i (List.mem_finRange i) hi)

end ArpTable

namespace Etharp

open ArpTable (Found)

variable {s s' : Etharp π} {queueing : Bool} {i : ArpIdx} {ip : IpAddr} {mac : EthAddr}

/-! ### A static entry -/

/-- **The static entry** of an address, as it was set for an interface. -/
structure StaticAt (s : Etharp π) (i : ArpIdx) (ip : IpAddr) (mac : EthAddr) (netif : ℕ) : Prop where
  state : (s.table i).state = .static
  ipaddr : (s.table i).ipaddr = ip
  ethaddr : (s.table i).ethaddr = mac
  netif : (s.table i).netif = some netif

variable {n : ℕ}

theorem StaticAt.of_eq (h : StaticAt s i ip mac n) (heq : s'.table i = s.table i) :
    StaticAt s' i ip mac n :=
  ⟨heq ▸ h.state, heq ▸ h.ipaddr, heq ▸ h.ethaddr, heq ▸ h.netif⟩

theorem StaticAt.ne_empty (h : StaticAt s i ip mac n) : (s.table i).state ≠ .empty := by
  rw [h.state]
  decide

/-- **The calls that may end a static entry**: its removal, another one for the address, and the
cleanup of its interface. -/
def Ends (ip : IpAddr) (netif : ℕ) : Call π → Prop
  | .removeStaticEntry ipaddr => ipaddr = ip
  | .addStaticEntry _ ipaddr _ => ipaddr = ip
  | .cleanupNetif m => m = netif
  | _ => False

/-- **An ARP packet that claims an address**: it is well formed, and the address is a unicast one for
the interface it arrives at. -/
def Claims (ip : IpAddr) : Call π → Prop
  | .arpInput netif hdr => hdr.wellFormed = true ∧ hdr.sipaddr = ip ∧
      (ipAddrIsAny ip || ipAddrIsBroadcast ip netif || ipAddrIsMulticast ip) = false
  | _ => False

/-- An update for another address. -/
theorem StaticAt.etharpUpdateArpEntry (hinv : s.table.Inv) (h : StaticAt s i ip mac n)
    {netif : Netif} {ipaddr : IpAddr} {ethaddr : EthAddr} {tryHard findOnly static : Bool} {r : Err}
    (hcall : s.etharpUpdateArpEntry netif ipaddr ethaddr tryHard findOnly static = some (r, s'))
    (hne : (ipAddrIsAny ipaddr || ipAddrIsBroadcast ipaddr netif || ipAddrIsMulticast ipaddr) =
      false → ipaddr ≠ ip) : StaticAt s' i ip mac n := by
  rw [Etharp.etharpUpdateArpEntry] at hcall
  by_cases hkind : ipAddrIsAny ipaddr || ipAddrIsBroadcast ipaddr netif || ipAddrIsMulticast ipaddr
  · rw [if_pos hkind] at hcall
    exact (Prod.mk.inj (Option.some.inj hcall)).2 ▸ h
  rw [if_neg hkind] at hcall
  obtain ⟨o, t, hfind, -, hfound⟩ := hinv.etharpFindEntry ipaddr tryHard findOnly
  have hkeep : t i = s.table i := ArpTable.etharpFindEntry_static hfind h.state
  rw [hfind, Option.map_some] at hcall
  cases o with
  | none =>
    rw [← (Prod.mk.inj (Option.some.inj hcall)).2]
    exact h.of_eq hkeep
  | some j =>
    -- the entry that was found has the other address
    have hij : i ≠ j := fun heq ↦ hne (by simpa using hkind) <| by
      rw [← (hfound j rfl).ipaddr, ← heq, hkeep, h.ipaddr]
    rw [← (Prod.mk.inj (Option.some.inj hcall)).2]
    exact h.of_eq ((Function.update_of_ne hij _ _).trans hkeep)

theorem StaticAt.etharpArpInput (hinv : s.table.Inv) (h : StaticAt s i ip mac n) {netif : Netif}
    {hdr : ArpPacket} (hcall : s.etharpArpInput netif hdr = some s')
    (hne : ¬ Claims ip (.arpInput netif hdr : Call π)) : StaticAt s' i ip mac n := by
  rw [Etharp.etharpArpInput] at hcall
  split_ifs at hcall with hwf
  · exact Option.some.inj hcall ▸ h
  obtain ⟨⟨r, u⟩, hupdate, hu⟩ := Option.map_eq_some_iff.1 hcall
  have hsu : StaticAt u i ip mac n := h.etharpUpdateArpEntry hinv hupdate fun hkind heq ↦
    hne ⟨by simpa using hwf, heq, heq ▸ hkind⟩
  rw [← hu]
  split_ifs
  · exact hsu.of_eq rfl
  · exact hsu

theorem StaticAt.etharpRemoveStaticEntry (hinv : s.table.Inv) (h : StaticAt s i ip mac n)
    {ipaddr : IpAddr} {r : Err} (hcall : s.etharpRemoveStaticEntry ipaddr = some (r, s'))
    (hne : ipaddr ≠ ip) : StaticAt s' i ip mac n := by
  obtain ⟨o, t, hfind, -, hfound⟩ := hinv.etharpFindEntry ipaddr false true
  have hkeep : t i = s.table i := ArpTable.etharpFindEntry_static hfind h.state
  rw [Etharp.etharpRemoveStaticEntry, hfind, Option.map_some] at hcall
  cases o with
  | none =>
    rw [← (Prod.mk.inj (Option.some.inj hcall)).2]
    exact h.of_eq hkeep
  | some j =>
    have hij : i ≠ j := fun heq ↦ hne (by rw [← (hfound j rfl).ipaddr, ← heq, hkeep, h.ipaddr])
    simp only at hcall
    split_ifs at hcall <;> rw [← (Prod.mk.inj (Option.some.inj hcall)).2]
    · exact h.of_eq hkeep
    · exact h.of_eq ((Function.update_of_ne hij _ _).trans hkeep)

/-- **A query keeps every static entry**, that of its own address too: packets are sent at once. -/
theorem StaticAt.etharpQuery (hinv : s.table.Inv) (h : StaticAt s i ip mac n) {env : EtharpEnv}
    {netif : Netif} {ipaddr : IpAddr} {q : Option π} {r : Err}
    (hcall : s.etharpQuery queueing env netif ipaddr q = some (r, s')) :
    StaticAt s' i ip mac n := by
  rw [Etharp.etharpQuery] at hcall
  split_ifs at hcall
  · exact (Prod.mk.inj (Option.some.inj hcall)).2 ▸ h
  obtain ⟨o, t, hfind, -, -⟩ := hinv.etharpFindEntry ipaddr true false
  have hkeep : t i = s.table i := ArpTable.etharpFindEntry_static hfind h.state
  rw [hfind, Option.map_some] at hcall
  cases o with
  | none =>
    rw [← (Prod.mk.inj (Option.some.inj hcall)).2]
    exact h.of_eq hkeep
  | some j =>
    simp only at hcall
    set e : EtharpEntry π := { t j with state := if (t j).state = .empty then .pending
      else (t j).state } with he
    set s₁ : Etharp π := { s with table := Function.update t j e } with hs₁
    set s₂ := if (s₁.table j).state = .pending ∨ q.isNone = true then
      s₁.etharpRequest env netif ipaddr else s₁ with hs₂
    have htable : s₂.table = Function.update t j e := by
      rw [hs₂]
      split_ifs
      · exact etharpRequest_table s₁ env netif ipaddr
      · rfl
    have hej : i = j → e = t i := by
      rintro rfl
      rw [he, if_neg (hkeep ▸ h.ne_empty)]
    -- marking an entry as pending changes this one in no case
    have hentry : s₂.table i = s.table i := by
      rw [htable, ← hkeep]
      rcases eq_or_ne i j with heq | hne
      · rw [← heq, Function.update_self, hej heq]
      · rw [Function.update_of_ne hne]
    cases q with
    | none =>
      rw [← (Prod.mk.inj (Option.some.inj hcall)).2]
      exact h.of_eq hentry
    | some p =>
      simp only at hcall
      split_ifs at hcall with hres <;> rw [← (Prod.mk.inj (Option.some.inj hcall)).2]
      · exact h.of_eq hentry
      · -- a packet is queued at another entry: this one is resolved
        have hij : i ≠ j := by
          rintro rfl
          rw [hentry, h.state] at hres
          exact hres rfl
        exact h.of_eq ((Function.update_of_ne hij _ _).trans hentry)

theorem StaticAt.etharpOutputToArpIndex (h : StaticAt s i ip mac n) {env : EtharpEnv} {netif : Netif}
    {p : π} {j : ArpIdx} {r : Err}
    (hcall : s.etharpOutputToArpIndex env netif p j = some (r, s')) : StaticAt s' i ip mac n := by
  rw [Etharp.etharpOutputToArpIndex] at hcall
  split_ifs at hcall with hres hold hreq <;> rw [← (Prod.mk.inj (Option.some.inj hcall)).2]
  · have hij : i ≠ j := by
      rintro rfl
      rw [h.state] at hold
      exact absurd hold.1 (by decide)
    refine h.of_eq ((Function.update_of_ne hij _ _).trans ?_)
    rw [etharpRequest_table]
  · refine h.of_eq ?_
    show (s.etharpRequest env netif (s.table j).ipaddr).table i = _
    rw [etharpRequest_table]
  · exact h.of_eq rfl

theorem StaticAt.etharpOutput (hinv : s.table.Inv) (h : StaticAt s i ip mac n) {env : EtharpEnv}
    {netif : Netif} {p : π} {ipaddr : IpAddr} {r : Err}
    (hcall : s.etharpOutput queueing env netif p ipaddr = some (r, s')) :
    StaticAt s' i ip mac n := by
  rw [Etharp.etharpOutput] at hcall
  split_ifs at hcall
  · exact (Prod.mk.inj (Option.some.inj hcall)).2 ▸ h
  · rw [← (Prod.mk.inj (Option.some.inj hcall)).2]
    exact h.of_eq rfl
  · rw [← (Prod.mk.inj (Option.some.inj hcall)).2]
    exact h.of_eq rfl
  split at hcall
  · exact (Prod.mk.inj (Option.some.inj hcall)).2 ▸ h
  split_ifs at hcall
  · exact h.etharpOutputToArpIndex hcall
  split at hcall
  · next j _ =>
    have hcached : StaticAt { s with cached := j } i ip mac n := h.of_eq rfl
    exact hcached.etharpOutputToArpIndex hcall
  · exact h.etharpQuery hinv hcall

theorem StaticAt.etharpTmr (h : StaticAt s i ip mac n) :
    StaticAt { s with table := s.table.etharpTmr } i ip mac n :=
  h.of_eq (if_pos (Or.inr h.state))

theorem StaticAt.etharpCleanupNetif (h : StaticAt s i ip mac n) {m : ℕ} (hm : m ≠ n) :
    StaticAt { s with table := s.table.etharpCleanupNetif m } i ip mac n :=
  h.of_eq (if_neg fun hi ↦ hm (Option.some.inj (hi.2.symm.trans h.netif)))

/-- **One step** that neither ends the entry nor is a packet that claims its address keeps it. -/
theorem StaticAt.step (hinv : s.table.Inv) (h : StaticAt s i ip mac n) {c : Call π}
    (hends : ¬ Ends ip n c) (hclaims : ¬ Claims ip c) (hstep : step queueing c s = some s') :
    StaticAt s' i ip mac n := by
  cases c with
  | arpInput netif hdr => exact h.etharpArpInput hinv hstep hclaims
  | addStaticEntry route ipaddr ethaddr =>
    obtain ⟨⟨r, u⟩, hcall, rfl⟩ := Option.map_eq_some_iff.1 hstep
    cases route with
    | none => exact (Prod.mk.inj (Option.some.inj hcall)).2 ▸ h
    | some netif => exact h.etharpUpdateArpEntry hinv hcall fun _ ↦ hends
  | removeStaticEntry ipaddr =>
    obtain ⟨⟨r, u⟩, hcall, rfl⟩ := Option.map_eq_some_iff.1 hstep
    exact h.etharpRemoveStaticEntry hinv hcall hends
  | cleanupNetif m => exact Option.some.inj hstep ▸ h.etharpCleanupNetif hends
  | output env netif p ipaddr =>
    obtain ⟨⟨r, u⟩, hcall, rfl⟩ := Option.map_eq_some_iff.1 hstep
    exact h.etharpOutput hinv hcall
  | query env netif ipaddr q =>
    obtain ⟨⟨r, u⟩, hcall, rfl⟩ := Option.map_eq_some_iff.1 hstep
    exact h.etharpQuery hinv hcall
  | tmr => exact Option.some.inj hstep ▸ h.etharpTmr

/-- **A packet that claims the address** makes the entry a dynamic one. -/
theorem StaticAt.state_of_claims (hinv : s.table.Inv) (h : StaticAt s i ip mac n) {c : Call π}
    (hclaims : Claims ip c) (hstep : Etharp.step queueing c s = some s') :
    (s'.table i).state = .stable := by
  cases c with
  | arpInput netif hdr =>
    obtain ⟨hwf, rfl, hkind⟩ := hclaims
    have hcall : s.etharpArpInput netif hdr = some s' := hstep
    rw [Etharp.etharpArpInput, if_neg (by simp [hwf])] at hcall
    obtain ⟨⟨r, u⟩, hupdate, hu⟩ := Option.map_eq_some_iff.1 hcall
    rw [Etharp.etharpUpdateArpEntry, if_neg (by simp [hkind]),
      hinv.etharpFindEntry_self h.ne_empty h.ipaddr, Option.map_some] at hupdate
    have hui : (u.table i).state = .stable := by
      rw [← (Prod.mk.inj (Option.some.inj hupdate)).2]
      simp only [Function.update_self]
      rfl
    rw [← hu]
    split_ifs
    · exact hui
    · exact hui
  | _ => exact hclaims.elim

/-! ### Runs -/

/-- The entry in every state of a run, or of a part of it that starts with the entry. -/
def StaysStatic (queueing : Bool) (cs : List (Call π)) (s : Etharp π) (i : ArpIdx) (ip : IpAddr)
    (mac : EthAddr) (netif : ℕ) : Prop :=
  ∀ ds s', ds <+: cs → runLabels (step queueing) ds s = some s' → StaticAt s' i ip mac netif

/-- **A static entry in a run**: it is in every state what it was set to, if and only if no ARP packet
of the run claims its address. -/
theorem StaticAt.run_iff (hinv : s.table.Inv) (h : StaticAt s i ip mac n) {cs : List (Call π)}
    (hends : ∀ c ∈ cs, ¬ Ends ip n c) :
    StaysStatic queueing cs s i ip mac n ↔ ∀ c ∈ cs, ¬ Claims ip c := by
  induction cs generalizing s with
  | nil =>
    refine iff_of_true (fun ds s' hds hrun ↦ ?_) (by simp)
    obtain rfl := List.prefix_nil.1 hds
    exact Option.some.inj hrun ▸ h
  | cons c cs ih =>
    obtain ⟨u, hstep, hu⟩ := @step_inv π s queueing hinv c
    by_cases hc : Claims ip c
    · -- the entry is gone after the first step
      refine iff_of_false (fun hstays ↦ ?_) fun hall ↦ hall c (by simp) hc
      have hun : StaticAt u i ip mac n := hstays [c] u ⟨cs, rfl⟩ (by
        rw [runLabels_cons, hstep, Option.bind_some, runLabels_nil])
      exact absurd (hun.state.symm.trans (StaticAt.state_of_claims hinv h hc hstep)) (by decide)
    · have hus := StaticAt.step hinv h (hends c (by simp)) hc hstep
      rw [List.forall_mem_cons, and_iff_right hc, ← ih hu hus fun d hd ↦ hends d (by simp [hd])]
      constructor
      · intro hstays ds s' hds hrun
        refine hstays (c :: ds) s' (List.cons_prefix_cons.2 ⟨rfl, hds⟩) ?_
        rw [runLabels_cons, hstep, Option.bind_some, hrun]
      · intro hstays ds s' hds hrun
        cases ds with
        | nil => exact Option.some.inj hrun ▸ h
        | cons d ds =>
          obtain ⟨rfl, hds'⟩ := List.cons_prefix_cons.1 hds
          rw [runLabels_cons, hstep, Option.bind_some] at hrun
          exact hstays ds s' hds' hrun

/-- Setting a static entry, when it succeeds. -/
theorem etharpAddStaticEntry_ok (hinv : s.table.Inv) {route : Option Netif}
    (hadd : s.etharpAddStaticEntry route ip mac = some (.ok, s')) :
    s'.table.Inv ∧ ∃ netif ∈ route, ∃ i, StaticAt s' i ip mac netif.num := by
  cases route with
  | none => cases hadd
  | some netif =>
    obtain ⟨r, u, hcall, hu⟩ := etharpUpdateArpEntry_inv hinv netif ip mac true false true
    have hadd' : s.etharpUpdateArpEntry netif ip mac true false true = some (.ok, s') := hadd
    rw [hadd'] at hcall
    obtain ⟨rfl, rfl⟩ := Prod.mk.inj (Option.some.inj hcall)
    refine ⟨hu, netif, rfl, ?_⟩
    rw [etharpUpdateArpEntry] at hadd'
    by_cases hkind : ipAddrIsAny ip || ipAddrIsBroadcast ip netif || ipAddrIsMulticast ip
    · rw [if_pos hkind] at hadd'
      exact absurd (Prod.mk.inj (Option.some.inj hadd')).1 (by decide)
    rw [if_neg hkind] at hadd'
    obtain ⟨⟨o, t⟩, hfind, hupdate⟩ := Option.map_eq_some_iff.1 hadd'
    cases o with
    | none => exact absurd (Prod.mk.inj hupdate).1 (by decide)
    | some i =>
      obtain ⟨o, t', hfind', -, hfound⟩ := hinv.etharpFindEntry ip true false
      obtain ⟨rfl, rfl⟩ := Prod.mk.inj (Option.some.inj (hfind'.symm.trans hfind))
      have hi : s'.table i = { t' i with
          state := .static, netif := some netif.num, ethaddr := mac, ctime := 0, q := [] } := by
        rw [← (Prod.mk.inj hupdate).2]
        exact Function.update_self _ _ _
      exact ⟨i, hi ▸ rfl, hi ▸ (hfound i rfl).ipaddr, hi ▸ rfl, hi ▸ rfl⟩

/-- **Static ARP entries.** After any run, a call that sets a static entry sets one; and in any run
that goes on from there without a call that ends it, the entry keeps its address, its Ethernet address
and its state throughout, if and only if no ARP packet claims its address. -/
theorem static_entry_stable_iff {cs ds : List (Call π)} {u : Etharp π} {route : Option Netif}
    (hrun : runLabels (step queueing) cs init = some s)
    (hadd : s.etharpAddStaticEntry route ip mac = some (.ok, u))
    (hends : ∀ netif ∈ route, ∀ c ∈ ds, ¬ Ends ip netif.num c) :
    ∃ netif ∈ route, ∃ i, StaticAt u i ip mac netif.num ∧
      (StaysStatic queueing ds u i ip mac netif.num ↔ ∀ c ∈ ds, ¬ Claims ip c) := by
  obtain ⟨hu, netif, hroute, i, hi⟩ := etharpAddStaticEntry_ok (run_inv hrun) hadd
  exact ⟨netif, hroute, i, hi, hi.run_iff hu (hends netif hroute)⟩

/-- A static entry for 10.0.0.3 that survives ticks and queries. -/
theorem static_entry_stable_ticks :
    ∃ i, ∃ u : Etharp ℕ, StaticAt u i 0x0300000a 0x020000000003 0 ∧ StaysStatic true [.tmr, .query ⟨.ok, .ok, true, true, true⟩ exampleNetif
      0x0300000a (some 7), .tmr] u i 0x0300000a 0x020000000003 0 := by
  have hadd : ∃ u : Etharp ℕ, init.etharpAddStaticEntry (some exampleNetif) 0x0300000a
      0x020000000003 = some (.ok, u) := ⟨_, rfl⟩
  obtain ⟨u, hu⟩ := hadd
  have hrun : runLabels (step true) [] (init : Etharp ℕ) = some init := runLabels_nil _ init
  have hends : ∀ netif ∈ some exampleNetif, ∀ c ∈ ([.tmr, .query ⟨.ok, .ok, true, true, true⟩
      exampleNetif 0x0300000a (some 7), .tmr] : List (Call ℕ)), ¬ Ends 0x0300000a netif.num c := by
    simp [Ends]
  obtain ⟨netif, hnetif, i, hi, hiff⟩ := static_entry_stable_iff hrun hu hends
  obtain rfl := Option.some.inj hnetif
  exact ⟨i, u, hi, hiff.2 (by simp [Claims])⟩

/-- **A spoofed reply replaces a static entry**: 10.0.0.3 is set to be at one Ethernet address; after
an ARP packet from another one the entry is a dynamic one with the address of the sender. -/
theorem static_entry_spoofed :
    ∃ u s' : Etharp ℕ,
      init.etharpAddStaticEntry (some exampleNetif) 0x0300000a 0x020000000003 = some (.ok, u) ∧
      StaticAt u ⟨0, by decide⟩ 0x0300000a 0x020000000003 0 ∧
      runLabels (step true)
        [.arpInput exampleNetif ⟨true, 0x0300000a, 0x0100000a, 0x0200000000ff, false⟩] u = some s' ∧
      (s'.table ⟨0, by decide⟩).state = .stable ∧
      (s'.table ⟨0, by decide⟩).ethaddr = 0x0200000000ff :=
  ⟨_, _, rfl, ⟨rfl, rfl, rfl, rfl⟩, rfl, rfl, rfl⟩

end Etharp

end Lwip.Arp
