import LwipPoc.Netif.EtharpInv

/-!
# The cached ARP entry

`etharp_output` looks at one entry before it scans the table: the one of the last packet, or with
`LWIP_NETIF_HWADDRHINT` the one that the PCB remembers. By the time the index is used, the entry may have been
emptied and made for another address any number of times, and the hint of a PCB may never have been an index.

What is sent does not depend on it (`output_cache`). It rests on `Inv.unique`: the index is used only if its
entry is resolved and has the right address, and then a scan finds no other one.
-/

namespace Lwip.Arp.Etharp

variable {π : Type*}

/-! ### Per-PCB hints -/

/-- `netif->addr_hint`, and what it points to. -/
abbrev AddrHint := Option (BitVec 8)

/-- `ETHARP_SET_HINT`. -/
def setHint (hint : AddrHint) (i : ArpIdx) : AddrHint := hint.map fun _ ↦ BitVec.ofNat 8 i

/-- The entry that a hint is for, if it is an index. -/
def hinted (hint : AddrHint) : Option ArpIdx :=
  hint.bind fun b ↦ if h : b.toNat < arpTableSize then some ⟨b.toNat, h⟩ else none

/-- `etharp_query` with `LWIP_NETIF_HWADDRHINT`. -/
def etharpQueryHint (queueing : Bool) (s : Etharp π) (env : EtharpEnv) (netif : Netif) (ipaddr : IpAddr)
    (q : Option π) (hint : AddrHint) : Option (Err × Etharp π × AddrHint) :=
  if ipAddrIsBroadcast ipaddr netif || ipAddrIsMulticast ipaddr || ipAddrIsAny ipaddr then
    some (.arg, s, hint)
  else
    (s.table.etharpFindEntry ipaddr true false).map fun
      | (none, t) => (.mem, { s with table := t }, hint)
      | (some i, t) =>
        let state := if (t i).state = .empty then .pending else (t i).state
        let s := { s with table := Function.update t i { t i with state := state } }
        let s := if (s.table i).state = .pending ∨ q.isNone = true then
          s.etharpRequest env netif ipaddr else s
        match q with
        | none => (env.request, s, hint)
        | some p =>
          if (s.table i).state.resolved = true then
            (env.link, s.send (.ip netif.num p (s.table i).ethaddr), setHint hint i)
          else
            let r := enqueue queueing env (s.table i).q p
            (r.1, s.setEntry i { s.table i with q := r.2 }, hint)

/-- The scan of `etharp_output`. -/
def scan (t : ArpTable π) (dst : IpAddr) : Option ArpIdx :=
  (List.finRange arpTableSize).find? fun i ↦ (t i).state.resolved && dst = (t i).ipaddr

/-- `etharp_output` with `LWIP_NETIF_HWADDRHINT`. -/
def etharpOutputHint (queueing : Bool) (s : Etharp π) (env : EtharpEnv) (netif : Netif) (p : π)
    (ipaddr : IpAddr) (hint : AddrHint) : Option (Err × Etharp π × AddrHint) :=
  if env.header = false then some (.buf, s, hint)
  else if ipAddrIsBroadcast ipaddr netif then
    some (env.link, s.send (.ip netif.num p (BitVec.allOnes 48)), hint)
  else if ipAddrIsMulticast ipaddr then some (env.link, s.send (.ip netif.num p (mcastaddr ipaddr)), hint)
  else
    match nextHop netif ipaddr with
    | none => some (.rte, s, hint)
    | some dst =>
      match (hinted hint).filter fun i ↦ (s.table i).state.resolved && dst = (s.table i).ipaddr with
      | some i => (s.etharpOutputToArpIndex env netif p i).map fun r ↦ (r.1, r.2, hint)
      | none =>
        match scan s.table dst with
        | some i => (s.etharpOutputToArpIndex env netif p i).map fun r ↦ (r.1, r.2, setHint hint i)
        | none => s.etharpQueryHint queueing env netif dst (some p) hint

/-- A call with `LWIP_NETIF_HWADDRHINT`, and the hint of its interface at that time. -/
def hintStep (queueing : Bool) : AddrHint × Call π → Etharp π → Option (Etharp π)
  | (hint, .output env netif p ipaddr), s =>
    (s.etharpOutputHint queueing env netif p ipaddr hint).map fun r ↦ r.2.1
  | (hint, .query env netif ipaddr q), s => (s.etharpQueryHint queueing env netif ipaddr q hint).map fun r ↦ r.2.1
  | (_, c), s => step queueing c s

/-- **The reachable states**, in either configuration. The hints may be anything at any time. -/
def Reached (queueing : Bool) (s : Etharp π) : Prop :=
  (∃ cs, runLabels (step queueing) cs init = some s) ∨ ∃ cs, runLabels (hintStep queueing) cs init = some s

/-! ### Without the cache -/

/-- What is seen of a call: the result, the table and the frames. -/
def outcome (r : Option (Err × Etharp π)) : Option (Err × ArpTable π × List (Frame π)) :=
  r.map fun r ↦ (r.1, r.2.table, r.2.sent)

/-- The cache: `etharp_cached_entry`, or the hint. -/
inductive Cache
  | global (cached : ArpIdx)
  | addrHint (hint : AddrHint)
  deriving DecidableEq, Repr

/-- `etharp_output` with this in the cache. -/
def outputWith (queueing : Bool) (s : Etharp π) (env : EtharpEnv) (netif : Netif) (p : π) (ipaddr : IpAddr) :
    Cache → Option (Err × ArpTable π × List (Frame π))
  | .global cached => outcome (({ s with cached := cached } : Etharp π).etharpOutput queueing env netif p ipaddr)
  | .addrHint hint => outcome ((s.etharpOutputHint queueing env netif p ipaddr hint).map fun r ↦ (r.1, r.2.1))

/-- A resolved entry for an address. -/
def Resolves (t : ArpTable π) (dst : IpAddr) (i : ArpIdx) : Prop :=
  (t i).state.resolved = true ∧ dst = (t i).ipaddr

variable {queueing : Bool} {s : Etharp π} {t : ArpTable π} {env : EtharpEnv} {netif : Netif} {p : π}
  {ipaddr dst : IpAddr} {i : ArpIdx}

/-- The index in the cache is not looked at on the way to an entry. -/
theorem outcome_etharpOutputToArpIndex (c : ArpIdx) :
    outcome (({ s with cached := c } : Etharp π).etharpOutputToArpIndex env netif p i) =
      outcome (s.etharpOutputToArpIndex env netif p i) := by
  simp only [etharpOutputToArpIndex, etharpRequest, send, setEntry]
  split_ifs <;> rfl

/-- Nor by a query. -/
theorem outcome_etharpQuery (c : ArpIdx) (q : Option π) :
    outcome (({ s with cached := c } : Etharp π).etharpQuery queueing env netif ipaddr q) =
      outcome (s.etharpQuery queueing env netif ipaddr q) := by
  rw [etharpQuery, etharpQuery]
  split_ifs
  · rfl
  rcases s.table.etharpFindEntry ipaddr true false with - | ⟨- | i, t⟩
  · rfl
  · rfl
  · generalize hst : (if (t i).state = .empty then EtharpState.pending else (t i).state) = st
    simp only [Option.map_some, Function.update_self, hst]
    rcases q with - | q
    · simp only [Option.isNone_none, or_true, if_true, etharpRequest]
      split_ifs <;> rfl
    · dsimp only
      by_cases hp : st = .pending ∨ (some q).isNone = true
      · simp only [if_pos hp, etharpRequest_table, Function.update_self]
        simp only [etharpRequest]
        split_ifs <;> rfl
      · simp only [if_neg hp, Function.update_self]
        split_ifs <;> rfl

/-- A query is the same in both configurations. -/
theorem outcome_etharpQueryHint (hint : AddrHint) (q : Option π) :
    outcome ((s.etharpQueryHint queueing env netif ipaddr q hint).map fun r ↦ (r.1, r.2.1)) =
      outcome (s.etharpQuery queueing env netif ipaddr q) := by
  rw [etharpQueryHint, etharpQuery]
  split_ifs
  · rfl
  rcases s.table.etharpFindEntry ipaddr true false with - | ⟨- | i, t⟩
  · rfl
  · rfl
  · simp only [Option.map_some]
    rcases q with - | q
    · rfl
    · split_ifs <;> rfl

/-- The test that is made of an entry, in the cache and in the scan. -/
theorem resolves_iff : ((t i).state.resolved && decide (dst = (t i).ipaddr)) = true ↔ Resolves t dst i := by
  rw [Bool.and_eq_true, decide_eq_true_iff, Resolves]

theorem Resolves.ne_empty (h : Resolves t dst i) : (t i).state ≠ .empty := by
  intro hs
  rw [Resolves, hs] at h
  exact absurd h.1 (by decide)

/-- **No two entries** are resolved for an address. -/
theorem Resolves.unique (ht : t.Inv) (hi : Resolves t dst i) {j : ArpIdx} (hj : Resolves t dst j) : j = i :=
  ht.unique j i hj.ne_empty hi.ne_empty (hj.2.symm.trans hi.2)

/-- **The scan** finds the entry for the address. -/
theorem scan_of_resolves (ht : t.Inv) (hi : Resolves t dst i) : scan t dst = some i := by
  rcases hscan : scan t dst with - | j
  · exact absurd (resolves_iff.2 hi) (List.find?_eq_none.1 hscan i (List.mem_finRange i))
  · have hj := List.find?_some (p := fun i ↦ (t i).state.resolved && decide (dst = (t i).ipaddr)) hscan
    rw [hi.unique ht (resolves_iff.1 hj)]

theorem scan_eq_none (h : ∀ i, ¬Resolves t dst i) : scan t dst = none :=
  List.find?_eq_none.2 fun i _ ↦ mt resolves_iff.1 (h i)

/-- What comes after the destination has been found to be a unicast one, by a scan only. -/
def outputScan (queueing : Bool) (s : Etharp π) (env : EtharpEnv) (netif : Netif) (p : π) (dst : IpAddr) :
    Option (Err × Etharp π) :=
  match scan s.table dst with
  | some i => s.etharpOutputToArpIndex env netif p i
  | none => s.etharpQuery queueing env netif dst (some p)

/-- The part of `etharp_output` that does not look at the table. -/
def outputBefore (s : Etharp π) (env : EtharpEnv) (netif : Netif) (p : π) (ipaddr : IpAddr) :
    (Err × Etharp π) ⊕ IpAddr :=
  if env.header = false then .inl (.buf, s)
  else if ipAddrIsBroadcast ipaddr netif then .inl (env.link, s.send (.ip netif.num p (BitVec.allOnes 48)))
  else if ipAddrIsMulticast ipaddr then .inl (env.link, s.send (.ip netif.num p (mcastaddr ipaddr)))
  else
    match nextHop netif ipaddr with
    | none => .inl (.rte, s)
    | some dst => .inr dst

/-- **Nothing depends on the cache**, in a table with at most one entry for an address. -/
theorem outputWith_eq (ht : s.table.Inv) (c : Cache) : outputWith queueing s env netif p ipaddr c =
    match outputBefore s env netif p ipaddr with
    | .inl r => outcome (some r)
    | .inr dst => outcome (outputScan queueing s env netif p dst) := by
  rw [outputBefore]
  rcases c with cached | hint
  · rw [outputWith, etharpOutput]
    split_ifs
    · rfl
    · rfl
    · rfl
    rcases nextHop netif ipaddr with - | dst
    · rfl
    dsimp only
    by_cases hc : (s.table cached).state.resolved = true ∧ dst = (s.table cached).ipaddr
    · rw [if_pos hc, outputScan, scan_of_resolves ht hc]
      exact outcome_etharpOutputToArpIndex cached
    · rw [if_neg hc, outputScan, ← scan]
      rcases scan s.table dst with - | i
      · exact outcome_etharpQuery cached (some p)
      · exact outcome_etharpOutputToArpIndex i
  · rw [outputWith, etharpOutputHint]
    split_ifs
    · rfl
    · rfl
    · rfl
    rcases nextHop netif ipaddr with - | dst
    · rfl
    dsimp only
    split
    · next i hi =>
      obtain ⟨-, htest⟩ := Option.filter_eq_some_iff.1 hi
      rw [outputScan, scan_of_resolves ht (resolves_iff.1 htest), Option.map_map]
      exact congrArg outcome Option.map_id'
    · rw [outputScan]
      rcases scan s.table dst with - | i
      · exact outcome_etharpQueryHint hint (some p)
      · rw [Option.map_map]
        exact congrArg outcome Option.map_id'

/-! ### Runs -/

variable {s' : Etharp π}

/-- What the invariant is about is in the outcome. -/
theorem inv_of_outcome {r r' : Option (Err × Etharp π)} (h : outcome r = outcome r')
    (hinv : ∃ e s', r' = some (e, s') ∧ s'.table.Inv) : ∃ e s', r = some (e, s') ∧ s'.table.Inv := by
  obtain ⟨e, s', rfl, hs'⟩ := hinv
  obtain ⟨⟨e', s''⟩, rfl, heq⟩ := Option.map_eq_some_iff.1 h
  have htable : s''.table = s'.table := congrArg (fun x ↦ x.2.1) heq
  exact ⟨e', s'', rfl, htable ▸ hs'⟩

/-- **One step** with hints keeps the invariant. -/
theorem hintStep_inv (h : s.table.Inv) {c : AddrHint × Call π} (hc : hintStep queueing c s = some s') :
    s'.table.Inv := by
  have hsnd : ∀ {r : Option (Err × Etharp π × AddrHint)},
      (∃ e s', r.map (fun r ↦ (r.1, r.2.1)) = some (e, s') ∧ s'.table.Inv) →
      r.map (fun r ↦ r.2.1) = some s' → s'.table.Inv := by
    rintro r ⟨e, s'', hr, hs''⟩ heq
    obtain ⟨x, rfl, hx⟩ := Option.map_eq_some_iff.1 hr
    obtain rfl : x.2.1 = s' := Option.some.inj heq
    rwa [show x.2.1 = s'' from congrArg Prod.snd hx]
  have hstep : ∀ c : Call π, step queueing c s = some s' → s'.table.Inv := by
    intro c hc
    obtain ⟨s'', hs, hs''⟩ : ∃ s', step queueing c s = some s' ∧ s'.table.Inv := step_inv h c
    rwa [Option.some.inj (hs.symm.trans hc)] at hs''
  rcases c with ⟨hint, c⟩
  rcases c with ⟨netif, hdr⟩ | ⟨route, ipaddr, ethaddr⟩ | ipaddr | netif | ⟨env, netif, p, ipaddr⟩ |
    ⟨env, netif, ipaddr, q⟩ | -
  · exact hstep (.arpInput netif hdr) hc
  · exact hstep (.addStaticEntry route ipaddr ethaddr) hc
  · exact hstep (.removeStaticEntry ipaddr) hc
  · exact hstep (.cleanupNetif netif) hc
  · have houtput : ∃ e s', s.etharpOutput queueing env netif p ipaddr = some (e, s') ∧ s'.table.Inv :=
      etharpOutput_inv h env netif p ipaddr
    refine hsnd (inv_of_outcome ?_ houtput) hc
    exact (outputWith_eq h (.addrHint hint)).trans (outputWith_eq h (.global s.cached)).symm
  · exact hsnd (inv_of_outcome (outcome_etharpQueryHint hint q) (etharpQuery_inv h env netif ipaddr q)) hc
  · exact hstep .tmr hc

/-- **Every reachable table** has the invariant. -/
theorem Reached.inv (h : Reached queueing s) : s.table.Inv := by
  obtain ⟨cs, hrun⟩ | ⟨cs, hrun⟩ := h
  · exact run_inv hrun
  · exact runLabels_invariant (I := fun s : Etharp π ↦ s.table.Inv) inv_init
      (fun _ _ _ hs hc ↦ hintStep_inv hs hc) hrun

/-- A packet is sent to the address of the entry, last. -/
theorem etharpOutputToArpIndex_sent (hi : (s.table i).state.resolved = true) :
    ∃ r, outcome (s.etharpOutputToArpIndex env netif p i) = some r ∧
      r.2.2.getLast? = some (.ip netif.num p (s.table i).ethaddr) := by
  rw [etharpOutputToArpIndex, if_pos hi]
  refine ⟨_, rfl, List.getLast?_concat.trans (congrArg (fun a ↦ some (Frame.ip netif.num p a)) ?_)⟩
  split_ifs
  · simp only [setEntry, Function.update_self]
  · rw [etharpRequest_table]
  · rfl

/-- **The cache does not matter**, in every reachable state: whatever index or hint is in it, `etharp_output`
does what it does without one. To a unicast destination it sends to the Ethernet address of the resolved entry
for the next hop, which is the only one, and makes a query if there is none. -/
theorem output_cache (hs : Reached queueing s) (env : EtharpEnv) (netif : Netif) (p : π) (ipaddr : IpAddr)
    (c : Cache) :
    outputWith queueing s env netif p ipaddr c = outputWith queueing s env netif p ipaddr (.addrHint none) ∧
    ∀ dst ∈ nextHop netif ipaddr,
      env.header = true → ipAddrIsBroadcast ipaddr netif = false → ipAddrIsMulticast ipaddr = false →
      (∀ i, Resolves s.table dst i → (∀ j, Resolves s.table dst j → j = i) ∧
        outputWith queueing s env netif p ipaddr c = outcome (s.etharpOutputToArpIndex env netif p i) ∧
        ∃ r, outputWith queueing s env netif p ipaddr c = some r ∧
          r.2.2.getLast? = some (.ip netif.num p (s.table i).ethaddr)) ∧
      ((∀ i, ¬Resolves s.table dst i) →
        outputWith queueing s env netif p ipaddr c = outcome (s.etharpQuery queueing env netif dst (some p))) := by
  have hinv := hs.inv
  refine ⟨(outputWith_eq hinv c).trans (outputWith_eq hinv (.addrHint none)).symm, ?_⟩
  intro dst hdst hheader hbroadcast hmulticast
  have hbefore : outputBefore s env netif p ipaddr = .inr dst := by
    rw [outputBefore, hheader, hbroadcast, hmulticast, show nextHop netif ipaddr = some dst from hdst]
    rfl
  have heq : outputWith queueing s env netif p ipaddr c =
      match outputBefore s env netif p ipaddr with
      | .inl r => outcome (some r)
      | .inr dst => outcome (outputScan queueing s env netif p dst) := outputWith_eq hinv c
  rw [hbefore] at heq
  dsimp only at heq
  refine ⟨fun i hi ↦ ?_, fun hnone ↦ ?_⟩
  · rw [outputScan, scan_of_resolves hinv hi] at heq
    rw [heq]
    exact ⟨fun j hj ↦ hi.unique hinv hj, rfl, etharpOutputToArpIndex_sent hi.1⟩
  · rw [heq, outputScan, scan_eq_none hnone]

/-- A packet to 10.0.0.2 after the calls of `exampleCalls`, with a hint that is not an index. -/
theorem output_cache_stale : ∃ s : Etharp ℕ, Reached true s ∧
    ∃ r, outputWith true s ⟨.ok, .ok, true, true, true⟩ exampleNetif 8 0x0200000a (.addrHint (some 200)) = some r ∧
      r.2.2.getLast? = some (.ip 0 8 0x020000000002) := by
  obtain ⟨s, hs, hres, haddr⟩ : ∃ s : Etharp ℕ, runLabels (step true) exampleCalls init = some s ∧
      Resolves s.table 0x0200000a ⟨0, by decide⟩ ∧ (s.table ⟨0, by decide⟩).ethaddr = 0x020000000002 := by
    refine exists_run_of_observe (fun s ↦ ((s.table ⟨0, by decide⟩).state, (s.table ⟨0, by decide⟩).ipaddr,
      (s.table ⟨0, by decide⟩).ethaddr)) (EtharpState.stable, (0x0200000a : IpAddr), (0x020000000002 : EthAddr))
      (by decide) fun s hs hobs ↦ ?_
    simp only [Prod.mk.injEq] at hobs
    obtain ⟨hstate, hip, heth⟩ := hobs
    exact ⟨⟨by rw [hstate]; rfl, hip.symm⟩, heth⟩
  have hreached : Reached true s := Or.inl ⟨_, hs⟩
  obtain ⟨-, -, hsent⟩ := ((output_cache hreached ⟨.ok, .ok, true, true, true⟩ exampleNetif 8 0x0200000a
    (.addrHint (some 200))).2 0x0200000a (by decide) rfl (by decide) (by decide)).1 _ hres
  rw [haddr] at hsent
  exact ⟨s, hreached, hsent⟩

end Lwip.Arp.Etharp
