import LwipPoc.Netif.Etharp

/-!
# Integrity of the ARP table

Over every run of ARP packets, output, timer ticks, static entries and cleanups, with the environment
failing as it likes:

* an address has **one entry** that is not empty, at most;
* packets wait at **pending** entries only;
* an entry is younger than the **maximum age** of its state.

The three are one invariant, `ArpTable.Inv`. `etharp_find_entry` is used in the same way by all that
write to the table, so what it returns is said once, in `Found`: an entry that may take the address,
because no other one has it. All other changes to the table only empty entries or change what the
invariant does not look at (`Inv.of_le`).
-/

namespace Lwip.Arp

variable {π : Type*}

namespace ArpTable

variable {t t' : ArpTable π} {ip : IpAddr} {i j : ArpIdx} {is : List ArpIdx} {e : EtharpEntry π}

/-- The age at which an entry is given up; empty and static entries have none. -/
def maxAge : EtharpState → Option ℕ
  | .pending => some arpMaxpending
  | .stable | .stableRerequesting => some arpMaxage
  | .empty | .static => none

/-- What the invariant says about an entry by itself. -/
structure EntryOk (e : EtharpEntry π) : Prop where
  queue : e.state ≠ .pending → e.q = []
  age : ∀ a ∈ maxAge e.state, e.ctime < a

/-- **The invariant of the table.** -/
structure Inv (t : ArpTable π) : Prop where
  unique : ∀ i j, (t i).state ≠ .empty → (t j).state ≠ .empty → (t i).ipaddr = (t j).ipaddr → i = j
  entry : ∀ i, EntryOk (t i)

/-- Entries may be emptied, and changed in ways that keep their address. -/
theorem Inv.of_le (h : t.Inv)
    (hle : ∀ i, (t' i).state ≠ .empty → (t i).state ≠ .empty ∧ (t' i).ipaddr = (t i).ipaddr)
    (hentry : ∀ i, EntryOk (t' i)) : t'.Inv := by
  refine ⟨fun i j hi hj hij ↦ ?_, hentry⟩
  obtain ⟨hi', hip⟩ := hle i hi
  obtain ⟨hj', hjp⟩ := hle j hj
  exact h.unique i j hi' hj' (by rw [← hip, ← hjp, hij])

theorem entryOk_emptied (e : EtharpEntry π) :
    EntryOk ({ e with q := [], state := .empty } : EtharpEntry π) :=
  ⟨fun _ ↦ rfl, fun _ ha ↦ absurd ha (by simp [maxAge])⟩

theorem Inv.freeEntry (h : t.Inv) (i : ArpIdx) : (t.freeEntry i).Inv := by
  refine h.of_le (fun j hj ↦ ?_) fun j ↦ ?_ <;> rcases eq_or_ne j i with rfl | hne
  · simp [ArpTable.freeEntry] at hj
  · simp only [ArpTable.freeEntry, Function.update_of_ne hne] at hj ⊢
    exact ⟨hj, trivial⟩
  · simp only [ArpTable.freeEntry, Function.update_self]
    exact entryOk_emptied _
  · simp only [ArpTable.freeEntry, Function.update_of_ne hne]
    exact h.entry j

/-! ### Ticks and cleanups -/

/-- **What a tick does to an entry**: nothing, or empty it, or let it grow older, but not too old. -/
theorem tmrEntry_cases (e : EtharpEntry π) :
    (e.state = .empty ∨ e.state = .static) ∧ tmrEntry e = e ∨
      (∃ c, tmrEntry e = { e with q := [], state := .empty, ctime := c }) ∨
      ∃ c st, tmrEntry e = { e with ctime := c, state := st } ∧
        (st = .pending ∧ e.state = .pending ∧ c < arpMaxpending ∨
          st = .stable ∧ (e.state = .stable ∨ e.state = .stableRerequesting) ∧ c < arpMaxage) := by
  by_cases hstate : e.state = .empty ∨ e.state = .static
  · exact Or.inl ⟨hstate, if_pos hstate⟩
  simp only [tmrEntry, if_neg hstate]
  refine Or.inr ?_
  split_ifs with hold hre
  · exact Or.inl ⟨_, rfl⟩
  · exact Or.inr ⟨_, _, rfl, Or.inr ⟨rfl, Or.inr hre, by omega⟩⟩
  · refine Or.inr ⟨_, e.state, rfl, ?_⟩
    have hstate' : e.state = .pending ∨ e.state = .stable := by
      cases hs : e.state <;> simp_all
    rcases hstate' with hs | hs
    · exact Or.inl ⟨hs, hs, Nat.lt_of_not_le fun hle ↦ hold (Or.inr ⟨hs, hle⟩)⟩
    · exact Or.inr ⟨hs, Or.inl hs, by omega⟩

/-- **A tick gives up what has become too old**, whatever the entry was like. -/
theorem tmrEntry_age (e : EtharpEntry π) :
    ∀ a ∈ maxAge (tmrEntry e).state, (tmrEntry e).ctime < a := by
  intro a ha
  rcases tmrEntry_cases e with ⟨hs, heq⟩ | ⟨c, heq⟩ | ⟨c, st, heq, ⟨rfl, -, hc⟩ | ⟨rfl, -, hc⟩⟩ <;>
    rw [heq] at ha ⊢
  · rcases hs with hs | hs <;> rw [hs] at ha <;> cases ha
  · cases ha
  · exact Option.some.inj ha ▸ hc
  · exact Option.some.inj ha ▸ hc

theorem EntryOk.tmrEntry (h : EntryOk e) : EntryOk (tmrEntry e) := by
  refine ⟨fun hs ↦ ?_, tmrEntry_age e⟩
  rcases tmrEntry_cases e with ⟨-, heq⟩ | ⟨c, heq⟩ | ⟨c, st, heq, ⟨rfl, -, -⟩ | ⟨rfl, hst, -⟩⟩ <;>
    rw [heq] at hs ⊢
  · exact h.queue hs
  · exact absurd rfl hs
  · refine h.queue fun hp ↦ ?_
    rcases hst with hst | hst <;> rw [hst] at hp <;> cases hp

theorem Inv.etharpTmr (h : t.Inv) : t.etharpTmr.Inv := by
  refine h.of_le (fun i hi ↦ ?_) fun i ↦ (h.entry i).tmrEntry
  show (t i).state ≠ .empty ∧ (tmrEntry (t i)).ipaddr = _
  have hi' : (tmrEntry (t i)).state ≠ .empty := hi
  rcases tmrEntry_cases (t i) with ⟨-, heq⟩ | ⟨c, heq⟩ | ⟨c, st, heq, ⟨-, hst, -⟩ | ⟨-, hst, -⟩⟩ <;>
    rw [heq] at hi' ⊢
  · exact ⟨hi', rfl⟩
  · exact absurd rfl hi'
  · exact ⟨by rw [hst]; decide, rfl⟩
  · exact ⟨by rcases hst with hst | hst <;> rw [hst] <;> decide, rfl⟩

theorem Inv.etharpCleanupNetif (h : t.Inv) (n : ℕ) : (t.etharpCleanupNetif n).Inv := by
  refine h.of_le (fun i hi ↦ ?_) fun i ↦ ?_ <;> simp only [ArpTable.etharpCleanupNetif] at *
  · split_ifs at hi ⊢
    · exact absurd rfl hi
    · exact ⟨hi, rfl⟩
  · split_ifs
    · exact entryOk_emptied _
    · exact h.entry i

/-! ### `etharp_find_entry` -/

/-- What the sweep knows about its candidates. -/
structure Candidates.Ok (c : Candidates) (t : ArpTable π) : Prop where
  empty : ∀ i ∈ c.empty, (t i).state = .empty
  oldStable : ∀ i ∈ c.oldStable, (t i).state = .stable ∨ (t i).state = .stableRerequesting

theorem Candidates.Ok.remember {c : Candidates} (h : c.Ok t) (i : ArpIdx) :
    (c.remember (t i) i).Ok t := by
  rw [Candidates.remember]
  split
  · next hs =>
    split_ifs
    · exact ⟨fun j hj ↦ Option.some.inj hj ▸ hs, h.oldStable⟩
    · exact h
  · split_ifs <;> exact ⟨h.empty, h.oldStable⟩
  · next hs =>
    split_ifs
    · exact ⟨h.empty, fun j hj ↦ Option.some.inj hj ▸ Or.inl hs⟩
    · exact h
  · next hs =>
    split_ifs
    · exact ⟨h.empty, fun j hj ↦ Option.some.inj hj ▸ Or.inr hs⟩
    · exact h
  · exact h

/-- **The sweep** finds the entry of the address, or there is none among those it passed. -/
theorem sweep_spec {c : Candidates} (hc : c.Ok t) :
    (∃ i, sweep t ip is c = .inl i ∧ (t i).state ≠ .empty ∧ ip = (t i).ipaddr) ∨
      ∃ c', sweep t ip is c = .inr c' ∧ c'.Ok t ∧
        ∀ i ∈ is, (t i).state ≠ .empty → (t i).ipaddr ≠ ip := by
  induction is generalizing c with
  | nil => exact Or.inr ⟨c, rfl, hc, by simp⟩
  | cons i is ih =>
    rw [sweep]
    by_cases hi : (t i).state ≠ .empty ∧ ip = (t i).ipaddr
    · rw [if_pos hi]
      exact Or.inl ⟨i, rfl, hi⟩
    · rw [if_neg hi]
      refine (ih (hc.remember i)).imp_right fun ⟨c', heq, hc', hall⟩ ↦ ⟨c', heq, hc', ?_⟩
      intro j hj hs hip
      rcases List.mem_cons.1 hj with rfl | hj
      · exact hi ⟨hs, hip.symm⟩
      · exact hall j hj hs hip

/-- **An entry that may take the address**: it has it, and no other one has. -/
structure Found (t : ArpTable π) (ip : IpAddr) (i : ArpIdx) : Prop where
  inv : t.Inv
  ipaddr : (t i).ipaddr = ip
  alone : ∀ j, j ≠ i → (t j).state ≠ .empty → (t j).ipaddr ≠ ip
  fresh : (t i).state = .empty → (t i).ctime = 0

/-- An entry that was found may be set to anything that is right by itself. -/
theorem Found.update (h : Found t ip i) (hip : e.ipaddr = ip) (he : EntryOk e) :
    Inv (Function.update t i e) := by
  -- every other entry that is not empty has another address
  have hother : ∀ j, j ≠ i → (t j).state ≠ .empty → (t j).ipaddr ≠ e.ipaddr := fun j hj hs ↦
    hip ▸ h.alone j hj hs
  refine ⟨fun j k hj hk hjk ↦ ?_, fun j ↦ ?_⟩
  · by_cases hj' : j = i <;> by_cases hk' : k = i
    · rw [hj', hk']
    · rw [hj', Function.update_self, Function.update_of_ne hk'] at hjk
      rw [Function.update_of_ne hk'] at hk
      exact absurd hjk.symm (hother k hk' hk)
    · rw [hk', Function.update_self, Function.update_of_ne hj'] at hjk
      rw [Function.update_of_ne hj'] at hj
      exact absurd hjk (hother j hj' hj)
    · rw [Function.update_of_ne hj'] at hj hjk
      rw [Function.update_of_ne hk'] at hk hjk
      exact h.inv.unique j k hj hk hjk
  · rcases eq_or_ne j i with rfl | hj
    · rw [Function.update_self]
      exact he
    · rw [Function.update_of_ne hj]
      exact h.inv.entry j

/-- Creating an entry for an address that no entry has. -/
theorem Inv.create (h : t.Inv) (hi : (t i).state = .empty)
    (hnone : ∀ j, (t j).state ≠ .empty → (t j).ipaddr ≠ ip) :
    ∃ t', t.create ip i = some (some i, t') ∧ Found t' ip i := by
  refine ⟨_, if_pos hi, ?_, by rw [Function.update_self], fun j hj hs ↦ ?_, fun _ ↦ ?_⟩
  · refine h.of_le (fun j hj ↦ ?_) fun j ↦ ?_ <;> rcases eq_or_ne j i with rfl | hne
    · rw [Function.update_self] at hj
      exact absurd hi hj
    · rw [Function.update_of_ne hne] at hj ⊢
      exact ⟨hj, rfl⟩
    · rw [Function.update_self]
      exact ⟨(h.entry j).queue, fun a ha ↦ by rw [show _ = EtharpState.empty from hi] at ha; cases ha⟩
    · rw [Function.update_of_ne hne]
      exact h.entry j
  · rw [Function.update_of_ne hj] at hs ⊢
    exact hnone j hs
  · rw [Function.update_self]

/-- Recycling an entry for an address that no entry has. -/
theorem Inv.recycle (h : t.Inv) (hnone : ∀ j, (t j).state ≠ .empty → (t j).ipaddr ≠ ip)
    (i : ArpIdx) : ∃ t', (t.freeEntry i).create ip i = some (some i, t') ∧ Found t' ip i := by
  refine (h.freeEntry i).create (by simp [ArpTable.freeEntry]) fun j hj ↦ ?_
  rcases eq_or_ne j i with rfl | hne
  · simp [ArpTable.freeEntry] at hj
  · simp only [ArpTable.freeEntry, Function.update_of_ne hne] at hj ⊢
    exact hnone j hj

/-- **`etharp_find_entry`** returns, and what it returns may take the address. -/
theorem Inv.etharpFindEntry (h : t.Inv) (ip : IpAddr) (tryHard findOnly : Bool) :
    ∃ r t', t.etharpFindEntry ip tryHard findOnly = some (r, t') ∧ t'.Inv ∧
      ∀ i ∈ r, Found t' ip i := by
  have hfound : ∀ {x : Option (Option ArpIdx × ArpTable π)},
      (∃ i t', x = some (some i, t') ∧ Found t' ip i) →
      ∃ r t', x = some (r, t') ∧ t'.Inv ∧ ∀ i ∈ r, Found t' ip i := by
    rintro x ⟨i, t', rfl, hf⟩
    exact ⟨some i, t', rfl, hf.inv, fun j hj ↦ Option.some.inj hj ▸ hf⟩
  have hcand : (⟨none, none, 0, none, 0, none, 0⟩ : Candidates).Ok t := ⟨nofun, nofun⟩
  rw [ArpTable.etharpFindEntry]
  rcases @sweep_spec π t ip (List.finRange arpTableSize) _ hcand with
    ⟨i, heq, hs, hip⟩ | ⟨c, heq, hc, hall⟩ <;> rw [heq]
  · refine hfound ⟨i, t, rfl, h, hip.symm, fun j hj hjs hjp ↦ hj ?_, fun hi ↦ absurd hi hs⟩
    exact h.unique j i hjs hs (hjp.trans hip)
  · have hnone : ∀ j, (t j).state ≠ .empty → (t j).ipaddr ≠ ip := fun j ↦
      hall j (List.mem_finRange j)
    simp only
    split_ifs with hflags
    · exact ⟨none, t, rfl, h, nofun⟩
    split
    · next i hi => exact hfound ⟨i, h.create (hc.empty i hi) hnone⟩
    split
    · next i hi =>
      -- no packets wait at a stable entry
      have hq : (t i).q = [] := (h.entry i).queue fun hp ↦ by
        rcases hc.oldStable i hi with hs | hs <;> rw [hs] at hp <;> cases hp
      rw [if_pos hq]
      exact hfound ⟨i, h.recycle hnone i⟩
    split
    · next i hi => exact hfound ⟨i, h.recycle hnone i⟩
    split
    · next i hi => exact hfound ⟨i, h.recycle hnone i⟩
    · exact ⟨none, t, rfl, h, nofun⟩

end ArpTable

namespace Etharp

open ArpTable (Found EntryOk)

variable {s s' : Etharp π} {queueing : Bool}

/-! ### The calls -/

/-- A call of the module. -/
inductive Call (π : Type*)
  | arpInput (netif : Netif) (hdr : ArpPacket)
  | addStaticEntry (route : Option Netif) (ipaddr : IpAddr) (ethaddr : EthAddr)
  | removeStaticEntry (ipaddr : IpAddr)
  | cleanupNetif (netif : ℕ)
  | output (env : EtharpEnv) (netif : Netif) (p : π) (ipaddr : IpAddr)
  | query (env : EtharpEnv) (netif : Netif) (ipaddr : IpAddr) (q : Option π)
  | tmr

/-- What a call does. -/
def step (queueing : Bool) : Call π → Etharp π → Option (Etharp π)
  | .arpInput netif hdr, s => s.etharpArpInput netif hdr
  | .addStaticEntry route ipaddr ethaddr, s =>
    (s.etharpAddStaticEntry route ipaddr ethaddr).map Prod.snd
  | .removeStaticEntry ipaddr, s => (s.etharpRemoveStaticEntry ipaddr).map Prod.snd
  | .cleanupNetif netif, s => some { s with table := s.table.etharpCleanupNetif netif }
  | .output env netif p ipaddr, s => (s.etharpOutput queueing env netif p ipaddr).map Prod.snd
  | .query env netif ipaddr q, s => (s.etharpQuery queueing env netif ipaddr q).map Prod.snd
  | .tmr, s => some { s with table := s.table.etharpTmr }

/-- The table as the program starts with it. -/
def init : Etharp π := ⟨fun _ ↦ ⟨[], 0, none, 0, .empty, 0⟩, ⟨0, by decide⟩, []⟩

theorem etharpUpdateArpEntry_inv (h : s.table.Inv) (netif : Netif) (ipaddr : IpAddr)
    (ethaddr : EthAddr) (tryHard findOnly static : Bool) :
    ∃ r s', s.etharpUpdateArpEntry netif ipaddr ethaddr tryHard findOnly static = some (r, s') ∧
      s'.table.Inv := by
  rw [etharpUpdateArpEntry]
  by_cases hkind : ipAddrIsAny ipaddr || ipAddrIsBroadcast ipaddr netif || ipAddrIsMulticast ipaddr
  · rw [if_pos hkind]
    exact ⟨.arg, s, rfl, h⟩
  obtain ⟨o, t, hfind, ht, hfound⟩ := h.etharpFindEntry ipaddr tryHard findOnly
  rw [if_neg hkind, hfind, Option.map_some]
  cases o with
  | none => exact ⟨.mem, _, rfl, ht⟩
  | some i =>
    refine ⟨.ok, _, rfl, (hfound i rfl).update (hfound i rfl).ipaddr ⟨fun _ ↦ rfl, fun a ha ↦ ?_⟩⟩
    show 0 < a
    cases static with
    | true => cases ha
    | false => exact Option.some.inj ha ▸ (by decide : 0 < arpMaxage)

theorem etharpArpInput_inv (h : s.table.Inv) (netif : Netif) (hdr : ArpPacket) :
    ∃ s', s.etharpArpInput netif hdr = some s' ∧ s'.table.Inv := by
  rw [etharpArpInput]
  split_ifs
  · exact ⟨s, rfl, h⟩
  · obtain ⟨r, s', hcall, hinv⟩ := etharpUpdateArpEntry_inv h netif hdr.sipaddr hdr.shwaddr
      (!ipAddrIsAny netif.ipAddr && hdr.dipaddr = netif.ipAddr)
      (!(!ipAddrIsAny netif.ipAddr && hdr.dipaddr = netif.ipAddr)) false
    simp only [hcall, Option.map_some]
    refine ⟨_, rfl, ?_⟩
    split_ifs
    · exact hinv
    · exact hinv

theorem etharpRemoveStaticEntry_inv (h : s.table.Inv) (ipaddr : IpAddr) :
    ∃ r s', s.etharpRemoveStaticEntry ipaddr = some (r, s') ∧ s'.table.Inv := by
  obtain ⟨o, t, hfind, ht, -⟩ := h.etharpFindEntry ipaddr false true
  rw [etharpRemoveStaticEntry, hfind, Option.map_some]
  cases o with
  | none => exact ⟨.mem, _, rfl, ht⟩
  | some i =>
    simp only
    split_ifs
    · exact ⟨.arg, _, rfl, ht⟩
    · exact ⟨.ok, _, rfl, ht.freeEntry i⟩

theorem etharpRequest_table (s : Etharp π) (env : EtharpEnv) (netif : Netif) (ipaddr : IpAddr) :
    (s.etharpRequest env netif ipaddr).table = s.table := by
  rw [etharpRequest]
  split_ifs <;> rfl

/-- The entry that a query found, marked as pending if it is a fresh one, is right by itself. -/
theorem entryOk_query {t : ArpTable π} {ipaddr : IpAddr} {i : ArpIdx} (h : Found t ipaddr i) :
    EntryOk { t i with state := if (t i).state = .empty then .pending else (t i).state } := by
  have hi := h.inv.entry i
  split_ifs with hs
  · refine ⟨fun hne ↦ absurd rfl hne, fun a ha ↦ ?_⟩
    rw [show _ = 0 from h.fresh hs]
    exact Option.some.inj ha ▸ (by decide : 0 < arpMaxpending)
  · exact ⟨hi.queue, hi.age⟩

theorem etharpQuery_inv (h : s.table.Inv) (env : EtharpEnv) (netif : Netif) (ipaddr : IpAddr)
    (q : Option π) :
    ∃ r s', s.etharpQuery queueing env netif ipaddr q = some (r, s') ∧ s'.table.Inv := by
  rw [etharpQuery]
  split_ifs with hkind
  · exact ⟨.arg, s, rfl, h⟩
  obtain ⟨o, t, hfind, ht, hfound⟩ := h.etharpFindEntry ipaddr true false
  rw [hfind, Option.map_some]
  cases o with
  | none => exact ⟨.mem, _, rfl, ht⟩
  | some i =>
    have hf := hfound i rfl
    have hok := entryOk_query hf
    simp only
    set e : EtharpEntry π := { t i with state := if (t i).state = .empty then .pending
      else (t i).state } with he
    set s₁ : Etharp π := { s with table := Function.update t i e } with hs₁
    set s₂ := if (s₁.table i).state = .pending ∨ q.isNone = true then
      s₁.etharpRequest env netif ipaddr else s₁ with hs₂
    have htable : s₂.table = Function.update t i e := by
      rw [hs₂]
      split_ifs
      · exact etharpRequest_table s₁ env netif ipaddr
      · rfl
    have hentry : s₂.table i = e := by rw [htable, Function.update_self]
    have hinv : s₂.table.Inv := htable ▸ hf.update hf.ipaddr hok
    cases q with
    | none => exact ⟨_, _, rfl, hinv⟩
    | some p =>
      simp only
      split_ifs with hres
      · exact ⟨_, _, rfl, hinv⟩
      · refine ⟨_, _, rfl, ?_⟩
        -- an entry that is not resolved is pending by now
        have hpending : e.state = .pending := by
          rw [hentry] at hres
          simp only [he] at hres ⊢
          split_ifs at hres ⊢ with hs
          · rfl
          · cases hs' : (t i).state <;> simp_all [EtharpState.resolved]
        show ArpTable.Inv (Function.update s₂.table i _)
        rw [htable, Function.update_idem, Function.update_self]
        refine hf.update hf.ipaddr ⟨fun hne ↦ absurd hpending hne, hok.age⟩

theorem etharpOutputToArpIndex_inv (h : s.table.Inv) (env : EtharpEnv) (netif : Netif) (p : π)
    (i : ArpIdx) (hres : (s.table i).state.resolved = true) :
    ∃ r s', s.etharpOutputToArpIndex env netif p i = some (r, s') ∧ s'.table.Inv := by
  rw [etharpOutputToArpIndex, if_pos hres]
  refine ⟨_, _, rfl, ?_⟩
  show Etharp.table (if _ then _ else _) |>.Inv
  split_ifs with hold hreq
  · -- a stable entry becomes one that is requested again
    show ArpTable.Inv
      (Function.update (s.etharpRequest env netif (s.table i).ipaddr).table i _)
    rw [etharpRequest_table]
    refine h.of_le (fun j hj ↦ ?_) fun j ↦ ?_ <;> rcases eq_or_ne j i with rfl | hne
    · rw [Function.update_self]
      exact ⟨by rw [hold.1]; decide, rfl⟩
    · rw [Function.update_of_ne hne] at hj ⊢
      exact ⟨hj, rfl⟩
    · rw [Function.update_self]
      have hj := h.entry j
      refine ⟨fun _ ↦ hj.queue (by rw [hold.1]; decide), fun a ha ↦ hj.age a ?_⟩
      rw [hold.1]
      exact ha
    · rw [Function.update_of_ne hne]
      exact h.entry j
  · show (s.etharpRequest env netif (s.table i).ipaddr).table.Inv
    rwa [etharpRequest_table]
  · exact h

theorem etharpOutput_inv (h : s.table.Inv) (env : EtharpEnv) (netif : Netif) (p : π)
    (ipaddr : IpAddr) :
    ∃ r s', s.etharpOutput queueing env netif p ipaddr = some (r, s') ∧ s'.table.Inv := by
  rw [etharpOutput]
  split_ifs
  · exact ⟨_, _, rfl, h⟩
  · exact ⟨_, _, rfl, h⟩
  · exact ⟨_, _, rfl, h⟩
  split
  · exact ⟨_, _, rfl, h⟩
  · next dst _ =>
    split_ifs with hcached
    · exact etharpOutputToArpIndex_inv h env netif p s.cached hcached.1
    split
    · next i hfind =>
      have hi := List.find?_some hfind
      rw [Bool.and_eq_true] at hi
      exact etharpOutputToArpIndex_inv (s := { s with cached := i }) h env netif p i hi.1
    · exact etharpQuery_inv h env netif dst (some p)

/-- **One step**: every call returns, and keeps the invariant. -/
theorem step_inv (h : s.table.Inv) (c : Call π) :
    ∃ s', step queueing c s = some s' ∧ s'.table.Inv := by
  have hsnd : ∀ {x : Option (Err × Etharp π)}, (∃ r s', x = some (r, s') ∧ s'.table.Inv) →
      ∃ s', x.map Prod.snd = some s' ∧ s'.table.Inv := by
    rintro x ⟨r, s', rfl, hs'⟩
    exact ⟨s', rfl, hs'⟩
  cases c with
  | arpInput netif hdr => exact etharpArpInput_inv h netif hdr
  | addStaticEntry route ipaddr ethaddr =>
    refine hsnd ?_
    cases route with
    | none => exact ⟨.rte, s, rfl, h⟩
    | some netif => exact etharpUpdateArpEntry_inv h netif ipaddr ethaddr true false true
  | removeStaticEntry ipaddr => exact hsnd (etharpRemoveStaticEntry_inv h ipaddr)
  | cleanupNetif netif => exact ⟨_, rfl, h.etharpCleanupNetif netif⟩
  | output env netif p ipaddr => exact hsnd (etharpOutput_inv h env netif p ipaddr)
  | query env netif ipaddr q => exact hsnd (etharpQuery_inv h env netif ipaddr q)
  | tmr => exact ⟨_, rfl, h.etharpTmr⟩

theorem inv_init : (init : Etharp π).table.Inv :=
  ⟨fun _ _ hi ↦ absurd rfl hi, fun _ ↦ ⟨fun _ ↦ rfl, fun _ ha ↦ absurd ha (by simp [init, ArpTable.maxAge])⟩⟩

/-- **Every run** keeps the invariant. -/
theorem run_inv {cs : List (Call π)} (h : runLabels (step queueing) cs init = some s) :
    s.table.Inv := by
  refine runLabels_invariant (I := fun s : Etharp π ↦ s.table.Inv) inv_init (fun c s s' hs hc ↦ ?_) h
  obtain ⟨s'', hstep, hs''⟩ := @step_inv π s queueing hs c
  obtain rfl := Option.some.inj (hstep.symm.trans hc)
  exact hs''

/-- **Integrity of the ARP table**, after every run: an address has at most one entry; no packets
wait at an entry that is not pending; entries are younger than the maximum age of their state, after a
tick as at any other time; and every further call returns. -/
theorem table_integrity {cs : List (Call π)} (h : runLabels (step queueing) cs init = some s) :
    (∀ i j, (s.table i).state ≠ .empty → (s.table j).state ≠ .empty →
      (s.table i).ipaddr = (s.table j).ipaddr → i = j) ∧
    (∀ i, (s.table i).state ≠ .pending → (s.table i).q = []) ∧
    (∀ i, (∀ a ∈ ArpTable.maxAge (s.table i).state, (s.table i).ctime < a) ∧
      ∀ a ∈ ArpTable.maxAge (s.table.etharpTmr i).state, (s.table.etharpTmr i).ctime < a) ∧
    ∀ c, ∃ s', step queueing c s = some s' := by
  have hinv := run_inv h
  refine ⟨hinv.unique, fun i ↦ (hinv.entry i).queue, fun i ↦ ⟨(hinv.entry i).age,
    ArpTable.tmrEntry_age (s.table i)⟩, fun c ↦ ?_⟩
  obtain ⟨s', hstep, -⟩ := @step_inv π s queueing hinv c
  exact ⟨s', hstep⟩

/-- An interface with the address 10.0.0.1/24. -/
def exampleNetif : Netif := ⟨0, 0x0100000a, 0x00ffffff, 0, true⟩

/-- A packet to 10.0.0.2, the answer to the request for its address, a static entry, and a tick. -/
def exampleCalls : List (Call ℕ) :=
  [.output ⟨.ok, .ok, true, true, true⟩ exampleNetif 7 0x0200000a,
    .arpInput exampleNetif ⟨true, 0x0200000a, 0x0100000a, 0x020000000002, false⟩,
    .addStaticEntry (some exampleNetif) 0x0300000a 0x020000000003, .tmr]

/-- The integrity of the table at the end of such a run, with two entries in it. -/
theorem table_integrity_resolved :
    ∃ s, runLabels (step true) exampleCalls init = some s ∧
      (s.table ⟨0, by decide⟩).state = .stable ∧ (s.table ⟨1, by decide⟩).state = .static ∧
      ∀ i j, (s.table i).state ≠ .empty → (s.table j).state ≠ .empty →
        (s.table i).ipaddr = (s.table j).ipaddr → i = j := by
  refine exists_run_of_observe
    (fun s ↦ ((s.table ⟨0, by decide⟩).state, (s.table ⟨1, by decide⟩).state))
    (EtharpState.stable, EtharpState.static) (by decide) fun s hs hobs ↦ ?_
  exact ⟨congrArg Prod.fst hobs, congrArg Prod.snd hobs, (table_integrity hs).1⟩

end Etharp

end Lwip.Arp
