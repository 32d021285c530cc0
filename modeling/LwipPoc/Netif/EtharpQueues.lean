import LwipPoc.Netif.EtharpRefs

/-!
# What becomes of a queued packet

The queues of the ARP table are **waiting rooms**, one for each address: `Tracks` says how the rooms are
read off the table, and every function of the table moves the rooms by their own rules (`Moves`). So what
is known of waiting rooms holds of the table, in every run and with every failure of the environment:
a packet that `etharp_query` has queued has exactly one fate, a packet that it has refused is not held by
any reference, and the packets for an address leave in the order in which they came
(`queued_packets_conserved`).
-/

namespace Lwip.Arp

open Rooms (Event)

variable {ρ π : Type*}

/-- **The rooms of a table**: the packets that wait for an address are the queue of its entry. -/
structure Shows (t : ArpTable ρ) (w : IpAddr → List ρ) : Prop where
  entry : ∀ i, (t i).state ≠ .empty → w (t i).ipaddr = (t i).q
  other : ∀ ip, (∀ i, (t i).state ≠ .empty → (t i).ipaddr ≠ ip) → w ip = []

/-- The packets among the frames, and where they were sent. -/
def ipFrames (fs : List (Frame ρ)) : List (ρ × EthAddr) :=
  fs.filterMap fun
    | .ip _ p dest => some (p, dest)
    | _ => none

/-- The packets that were sent from a queue. -/
def servedPairs (l : List (Event IpAddr ρ EthAddr)) : List (ρ × EthAddr) :=
  l.filterMap fun
    | .served p x => some (p, x)
    | _ => none

/-- **What was sent** is what was sent from queues, in this order, and what was sent directly. -/
structure SentOk (fs : List (ρ × EthAddr)) (l : List (Event IpAddr ρ EthAddr))
    (direct : List (ρ × EthAddr)) : Prop where
  perm : fs.Perm (servedPairs l ++ direct)
  order : (servedPairs l).Sublist fs

/-- **The ledger is that of these rooms.** -/
structure Tracks (s : ArpLedger ρ) (R : Rooms IpAddr ρ EthAddr) : Prop where
  log : R.log = s.log
  hand : R.hand = none
  inv : s.arp.table.Inv
  shows : Shows s.arp.table R.waiting
  sent : SentOk (ipFrames s.arp.sent) s.log s.direct

/-- **The function moves the rooms by their rules**, and sends nothing directly. -/
structure Moves (may : ρ → Prop) (room : ρ → IpAddr) (s s' : ArpLedger ρ) : Prop where
  direct : s'.direct = s.direct
  steps : ∀ R, Tracks s R → ∃ R', Rooms.Steps may room R R' ∧ Tracks s' R'

section

variable {may : ρ → Prop} {room : ρ → IpAddr} {s s' s'' : ArpLedger ρ} {t t' : ArpTable ρ}
  {w : IpAddr → List ρ} {ip : IpAddr} {i j : ArpIdx} {R : Rooms IpAddr ρ EthAddr} {e : EtharpEntry ρ}

theorem Moves.refl (s : ArpLedger ρ) : Moves may room s s :=
  ⟨rfl, fun R h ↦ ⟨R, Relation.ReflTransGen.refl, h⟩⟩

theorem Moves.trans (h : Moves may room s s') (h' : Moves may room s' s'') :
    Moves may room s s'' := by
  refine ⟨h'.direct.trans h.direct, fun R hR ↦ ?_⟩
  obtain ⟨R₁, hsteps, hR₁⟩ := h.steps R hR
  obtain ⟨R₂, hsteps', hR₂⟩ := h'.steps R₁ hR₁
  exact ⟨R₂, hsteps.trans hsteps', hR₂⟩

/-! ### What was sent -/

theorem ipFrames_append (fs gs : List (Frame ρ)) : ipFrames (fs ++ gs) = ipFrames fs ++ ipFrames gs :=
  List.filterMap_append

theorem servedPairs_append (l l' : List (Event IpAddr ρ EthAddr)) :
    servedPairs (l ++ l') = servedPairs l ++ servedPairs l' :=
  List.filterMap_append

/-- Packets that are sent from a queue. -/
theorem SentOk.serve {fs direct : List (ρ × EthAddr)} {l es : List (Event IpAddr ρ EthAddr)}
    (h : SentOk fs l direct) : SentOk (fs ++ servedPairs es) (l ++ es) direct := by
  refine ⟨(h.perm.append_right _).trans ?_, ?_⟩
  · rw [servedPairs_append, List.append_assoc, List.append_assoc]
    exact List.perm_append_comm.append_left _
  · rw [servedPairs_append]
    exact h.order.append (List.Sublist.refl _)

/-- Something is written down that is not about sending. -/
theorem SentOk.note {fs direct : List (ρ × EthAddr)} {l es : List (Event IpAddr ρ EthAddr)}
    (h : SentOk fs l direct) (hes : servedPairs es = []) : SentOk fs (l ++ es) direct := by
  have hserve : SentOk (fs ++ servedPairs es) (l ++ es) direct := h.serve
  rwa [hes, List.append_nil] at hserve

/-- A packet that is sent directly. -/
theorem SentOk.direct {fs direct : List (ρ × EthAddr)} {l : List (Event IpAddr ρ EthAddr)}
    (h : SentOk fs l direct) (x : ρ × EthAddr) : SentOk (fs ++ [x]) l (direct ++ [x]) := by
  refine ⟨?_, h.order.trans (List.sublist_append_left _ _)⟩
  rw [← List.append_assoc]
  exact h.perm.append_right _

theorem servedPairs_released (ps : List ρ) :
    servedPairs (ps.map .released : List (Event IpAddr ρ EthAddr)) = [] := by
  simp [servedPairs]

/-! ### Rooms and entries -/

/-- Changes that the rooms do not see. -/
theorem Shows.congr (h : Shows t w) (hle : ∀ i, (t' i).state ≠ .empty ↔ (t i).state ≠ .empty)
    (hsame : ∀ i, (t i).state ≠ .empty → (t' i).ipaddr = (t i).ipaddr ∧ (t' i).q = (t i).q) :
    Shows t' w := by
  refine ⟨fun i hi ↦ ?_, fun ip hip ↦ h.other ip fun i hi ↦ ?_⟩
  · have hi' := (hle i).1 hi
    obtain ⟨hip, hq⟩ := hsame i hi'
    rw [hip, hq]
    exact h.entry i hi'
  · rw [← (hsame i hi).1]
    exact hip i ((hle i).2 hi)

/-- **The room of an entry that was found** is its queue, be it a fresh one or not. -/
theorem Shows.found (h : Shows t w) (hi : ArpTable.Found t ip i) : w ip = (t i).q := by
  by_cases hs : (t i).state = .empty
  · rw [(hi.inv.entry i).queue (by simp [hs])]
    refine h.other ip fun j hj ↦ ?_
    rcases eq_or_ne j i with rfl | hne
    · exact absurd hs hj
    · exact hi.alone j hne hj
  · rw [← hi.ipaddr]
    exact h.entry i hs

/-- Setting the entry of an address sets its room. -/
theorem Shows.set (h : Shows t w) (hi : ArpTable.Found t ip i) (hip : e.ipaddr = ip)
    (hs : e.state ≠ .empty) : Shows (Function.update t i e) (Function.update w ip e.q) := by
  refine ⟨fun j hj ↦ ?_, fun ip' hip' ↦ ?_⟩
  · rcases eq_or_ne j i with rfl | hne
    · rw [Function.update_self, hip, Function.update_self]
    · rw [Function.update_of_ne hne] at hj ⊢
      rw [Function.update_of_ne (hi.alone j hne hj)]
      exact h.entry j hj
  · have hne : ip' ≠ ip := fun heq ↦ hip' i (by rwa [Function.update_self])
      (by rw [Function.update_self, hip, heq])
    rw [Function.update_of_ne hne]
    refine h.other ip' fun j hj ↦ ?_
    rcases eq_or_ne j i with rfl | hji
    · rw [hi.ipaddr]
      exact hne.symm
    · have := hip' j
      rw [Function.update_of_ne hji] at this
      exact this hj

/-- Emptying an entry empties its room. -/
theorem Shows.emptied (h : Shows t w) (hinv : t.Inv) (hi : (t i).state ≠ .empty)
    (he : e.state = .empty) :
    Shows (Function.update t i e) (Function.update w (t i).ipaddr []) := by
  refine ⟨fun j hj ↦ ?_, fun ip' hip' ↦ ?_⟩
  · rcases eq_or_ne j i with rfl | hne
    · rw [Function.update_self] at hj
      exact absurd he hj
    · rw [Function.update_of_ne hne] at hj ⊢
      rw [Function.update_of_ne fun heq ↦ hne (hinv.unique j i hj hi heq)]
      exact h.entry j hj
  · rcases eq_or_ne ip' (t i).ipaddr with rfl | hne
    · rw [Function.update_self]
    · rw [Function.update_of_ne hne]
      refine h.other ip' fun j hj ↦ ?_
      rcases eq_or_ne j i with rfl | hji
      · exact hne.symm
      · have := hip' j
        rw [Function.update_of_ne hji] at this
        exact this hj

/-! ### Moves -/

/-- A call that the rooms do not see. -/
theorem Moves.of_same (hlog : s'.log = s.log) (hdirect : s'.direct = s.direct)
    (hsent : ipFrames s'.arp.sent = ipFrames s.arp.sent)
    (hinv : s.arp.table.Inv → s'.arp.table.Inv)
    (hle : ∀ i, (s'.arp.table i).state ≠ .empty ↔ (s.arp.table i).state ≠ .empty)
    (hsame : ∀ i, (s.arp.table i).state ≠ .empty →
      (s'.arp.table i).ipaddr = (s.arp.table i).ipaddr ∧ (s'.arp.table i).q = (s.arp.table i).q) :
    Moves may room s s' := by
  refine ⟨hdirect, fun R h ↦ ⟨R, Relation.ReflTransGen.refl, h.log.trans hlog.symm, h.hand,
    hinv h.inv, h.shows.congr hle hsame, ?_⟩⟩
  rw [hsent, hlog, hdirect]
  exact h.sent

/-- **An entry that is visited** and freed, or not, has its room emptied, or not. -/
theorem moves_visit {f : EtharpEntry ρ → EtharpEntry ρ × List ρ}
    (hf : ∀ e, ((f e).2 = [] ∧ ((f e).1.state ≠ .empty ↔ e.state ≠ .empty) ∧
        (f e).1.ipaddr = e.ipaddr ∧ (f e).1.q = e.q) ∨
      (e.state ≠ .empty ∧ (f e).1.state = .empty ∧ (f e).2 = e.q))
    (hok : ∀ e, ArpTable.EntryOk e → ArpTable.EntryOk (f e).1) (s : ArpLedger ρ) (i : ArpIdx) :
    Moves may room s (s.visit f i) := by
  have hinv : s.arp.table.Inv → (s.visit f i).arp.table.Inv := fun h ↦ by
    refine h.of_le (fun j hj ↦ ?_) fun j ↦ ?_ <;> rcases eq_or_ne j i with rfl | hne
    · have hj' : (f (s.arp.table j)).1.state ≠ .empty := by
        simpa [ArpLedger.visit, Etharp.setEntry] using hj
      rcases hf (s.arp.table j) with ⟨-, hst, hip, -⟩ | ⟨-, hst, -⟩
      · exact ⟨hst.1 hj', by simpa [ArpLedger.visit, Etharp.setEntry] using hip⟩
      · exact absurd hst hj'
    · simp only [ArpLedger.visit, ArpLedger.note_arp, ArpLedger.quietly_arp, Etharp.setEntry,
        Function.update_of_ne hne] at hj ⊢
      exact ⟨hj, trivial⟩
    · simpa [ArpLedger.visit, Etharp.setEntry] using hok _ (h.entry j)
    · simpa [ArpLedger.visit, Etharp.setEntry, hne] using h.entry j
  rcases hf (s.arp.table i) with ⟨hnone, hst, hip, hq⟩ | ⟨hne, hst, hq⟩
  · refine Moves.of_same (by simp [ArpLedger.visit, hnone]) rfl rfl hinv (fun j ↦ ?_) fun j hj ↦ ?_ <;>
      rcases eq_or_ne j i with rfl | hji
    · simpa only [ArpLedger.visit, ArpLedger.note_arp, ArpLedger.quietly_arp, Etharp.setEntry,
        Function.update_self] using hst
    · simp [ArpLedger.visit, Etharp.setEntry, hji]
    · simpa [ArpLedger.visit, Etharp.setEntry] using ⟨hip, hq⟩
    · simp [ArpLedger.visit, Etharp.setEntry, hji]
  · refine ⟨rfl, fun R h ↦ ?_⟩
    refine ⟨_, Rooms.steps_dismiss R (s.arp.table i).ipaddr, ?_, h.hand, hinv h.inv,
      h.shows.emptied h.inv hne hst, ?_⟩
    · rw [h.log, h.shows.entry i hne, ← hq]
      rfl
    · refine h.sent.note ?_
      exact servedPairs_released _

/-- Visiting all entries. -/
theorem moves_foldl_visit {f : EtharpEntry ρ → EtharpEntry ρ × List ρ}
    (hf : ∀ s i, Moves may room s (ArpLedger.visit f s i)) (is : List ArpIdx) (s : ArpLedger ρ) :
    Moves may room s (is.foldl (ArpLedger.visit f) s) := by
  induction is generalizing s with
  | nil => exact Moves.refl s
  | cons i is ih => exact (hf s i).trans (ih _)

/-- `etharp_tmr`. -/
theorem moves_etharpTmr (s : ArpLedger ρ) : Moves may room s s.etharpTmr := by
  refine moves_foldl_visit (fun s i ↦ moves_visit (fun e ↦ ?_) (fun e he ↦ ?_) s i) _ s
  · rw [ArpLedger.tmrEntry]
    simp only
    split_ifs with hs _ hre
    · exact Or.inl ⟨rfl, Iff.rfl, rfl, rfl⟩
    · exact Or.inr ⟨fun h ↦ hs (Or.inl h), rfl, rfl⟩
    · refine Or.inl ⟨rfl, ?_, rfl, rfl⟩
      have hre' : e.state = .stableRerequesting := hre
      simp [hre']
    · exact Or.inl ⟨rfl, Iff.rfl, rfl, rfl⟩
  · have hbase : (ArpLedger.tmrEntry e).1 = ArpTable.tmrEntry e := by
      rw [ArpLedger.tmrEntry, ArpTable.tmrEntry]
      simp only
      split_ifs <;> rfl
    rw [hbase]
    exact he.tmrEntry

/-- `etharp_cleanup_netif`. -/
theorem moves_etharpCleanupNetif (s : ArpLedger ρ) (n : ℕ) :
    Moves may room s (s.etharpCleanupNetif n) := by
  refine moves_foldl_visit (fun s i ↦ moves_visit (fun e ↦ ?_) (fun e he ↦ ?_) s i) _ s <;>
    rw [ArpLedger.cleanupEntry] <;> split_ifs with hs
  · exact Or.inr ⟨hs.1, rfl, rfl⟩
  · exact Or.inl ⟨rfl, Iff.rfl, rfl, rfl⟩
  · exact ArpTable.entryOk_emptied e
  · exact he

/-- `etharp_free_entry`. -/
theorem moves_freeEntry (s : ArpLedger ρ) (i : ArpIdx) : Moves may room s (s.freeEntry i) := by
  refine ⟨rfl, fun R h ↦ ?_⟩
  by_cases hs : (s.arp.table i).state = .empty
  · have hq := (h.inv.entry i).queue (by simp [hs])
    have hquiet : Moves may room s (s.freeEntry i) := by
      refine Moves.of_same (by simp [ArpLedger.freeEntry, hq]) rfl rfl (fun h ↦ h.freeEntry i)
        (fun j ↦ ?_) (fun j hj ↦ ?_) <;> rcases eq_or_ne j i with rfl | hne
      · simp [ArpLedger.freeEntry, ArpTable.freeEntry, hs]
      · simp [ArpLedger.freeEntry, ArpTable.freeEntry, hne]
      · exact absurd hs hj
      · simp [ArpLedger.freeEntry, ArpTable.freeEntry, hne]
    exact hquiet.steps R h
  · have heq : s.visit (fun e ↦ if e.state = .empty then (e, []) else
        ({ e with q := [], state := .empty }, e.q)) i = s.freeEntry i := by
      simp only [ArpLedger.visit, ArpLedger.quietly, Etharp.setEntry, if_neg hs]
      rfl
    rw [← heq]
    refine (moves_visit (fun e ↦ ?_) (fun e he ↦ ?_) s i).steps R h
    · split_ifs with he
      · exact Or.inl ⟨rfl, Iff.rfl, rfl, rfl⟩
      · exact Or.inr ⟨he, rfl, rfl⟩
    · split_ifs
      · exact he
      · exact ArpTable.entryOk_emptied e

theorem moves_create {o : Option ArpIdx} (h : s.create ip i = some (o, s')) :
    Moves may room s s' := by
  obtain ⟨⟨o', t⟩, hbase, heq⟩ := Option.map_eq_some_iff.1 h
  obtain ⟨rfl, rfl⟩ := Prod.mk.inj heq
  rw [ArpTable.create] at hbase
  split_ifs at hbase with hs
  obtain ⟨rfl, rfl⟩ := Prod.mk.inj (Option.some.inj hbase)
  have hle : ∀ j, ((Function.update s.arp.table i
        { s.arp.table i with ipaddr := ip, ctime := 0 }) j).state = (s.arp.table j).state := by
    intro j
    rcases eq_or_ne j i with rfl | hne
    · rw [Function.update_self]
    · rw [Function.update_of_ne hne]
  have hsame : ∀ j, (s.arp.table j).state ≠ .empty → (Function.update s.arp.table i
        { s.arp.table i with ipaddr := ip, ctime := 0 }) j = s.arp.table j := by
    intro j hj
    rw [Function.update_of_ne]
    rintro rfl
    exact hj hs
  refine Moves.of_same rfl rfl rfl (fun hinv ↦ ?_) (fun j ↦ ?_) fun j hj ↦ ?_
  · refine hinv.of_le (fun j hj ↦ ?_) fun j ↦ ?_
    · have hj' : (s.arp.table j).state ≠ .empty := by
        rw [← hle j]
        exact hj
      exact ⟨hj', congrArg _ (hsame j hj')⟩
    · rcases eq_or_ne j i with rfl | hne
      · simp only [Function.update_self]
        exact ⟨(hinv.entry j).queue, fun a ha ↦ absurd ha (by simp [ArpTable.maxAge, hs])⟩
      · simpa [hne] using hinv.entry j
  · show (Function.update s.arp.table i _ j).state ≠ _ ↔ _
    rw [hle]
  · show (Function.update s.arp.table i _ j).ipaddr = _ ∧ (Function.update s.arp.table i _ j).q = _
    rw [hsame j hj]
    exact ⟨rfl, rfl⟩

/-- **`etharp_find_entry`**, whatever it recycles. -/
theorem moves_etharpFindEntry {tryHard findOnly : Bool} {o : Option ArpIdx}
    (h : s.etharpFindEntry ip tryHard findOnly = some (o, s')) : Moves may room s s' := by
  rw [ArpLedger.etharpFindEntry] at h
  generalize s.arp.table.sweep ip (List.finRange arpTableSize)
    ⟨none, none, 0, none, 0, none, 0⟩ = found at h
  rcases found with i | ⟨empty, oldStable, _, oldPending, _, oldQueue, _⟩
  · obtain ⟨rfl, rfl⟩ := Prod.mk.inj (Option.some.inj h)
    exact Moves.refl s
  simp only at h
  by_cases hstop : findOnly = true ∨ empty = none ∧ tryHard = false
  · rw [if_pos hstop] at h
    obtain ⟨rfl, rfl⟩ := Prod.mk.inj (Option.some.inj h)
    exact Moves.refl s
  rw [if_neg hstop] at h
  rcases empty with - | i
  · rcases oldStable with - | i
    · rcases oldPending with - | i
      · rcases oldQueue with - | i
        · obtain ⟨rfl, rfl⟩ := Prod.mk.inj (Option.some.inj h)
          exact Moves.refl s
        · exact (moves_freeEntry s i).trans (moves_create h)
      · exact (moves_freeEntry s i).trans (moves_create h)
    · simp only at h
      split_ifs at h
      exact (moves_freeEntry s i).trans (moves_create h)
  · exact moves_create h

theorem found_etharpFindEntry {tryHard findOnly : Bool} (hinv : s.arp.table.Inv)
    (h : s.etharpFindEntry ip tryHard findOnly = some (some i, s')) :
    ArpTable.Found s'.arp.table ip i := by
  obtain ⟨o, t, hbase, -, hfound⟩ := hinv.etharpFindEntry ip tryHard findOnly
  obtain ⟨rfl, rfl⟩ := Prod.mk.inj (Option.some.inj
    (hbase.symm.trans (ArpLedger.etharpFindEntry_erase h).1))
  exact hfound i rfl

/-- **`etharp_update_arp_entry`** opens the room of the address, and serves all who wait there. -/
theorem moves_etharpUpdateArpEntry {netif : Netif} {ethaddr : EthAddr}
    {tryHard findOnly static : Bool} {e : Err}
    (h : s.etharpUpdateArpEntry netif ip ethaddr tryHard findOnly static = some (e, s')) :
    Moves may room s s' := by
  rw [ArpLedger.etharpUpdateArpEntry] at h
  by_cases hkind : (ipAddrIsAny ip || ipAddrIsBroadcast ip netif || ipAddrIsMulticast ip) = true
  · rw [if_pos hkind] at h
    obtain ⟨rfl, rfl⟩ := Prod.mk.inj (Option.some.inj h)
    exact Moves.refl s
  rw [if_neg hkind] at h
  obtain ⟨⟨o, s₁⟩, hfind, heq⟩ := Option.map_eq_some_iff.1 h
  have hmoves : Moves may room s s₁ := moves_etharpFindEntry hfind
  rcases o with - | i
  · obtain ⟨rfl, rfl⟩ := Prod.mk.inj heq
    exact hmoves
  · obtain ⟨rfl, rfl⟩ := Prod.mk.inj heq
    refine ⟨hmoves.direct, fun R hR ↦ ?_⟩
    obtain ⟨R₁, hsteps, hR₁⟩ := hmoves.steps R hR
    have hfound := found_etharpFindEntry hR.inv hfind
    have hw := hR₁.shows.found hfound
    have hserve : Rooms.Steps may room R₁ _ := Rooms.steps_serve R₁ ip ethaddr
    have hstate : (if static = true then EtharpState.static else .stable) ≠ .empty := by
      split_ifs <;> decide
    have hok : ArpTable.EntryOk ({ s₁.arp.table i with
        state := if static = true then EtharpState.static else .stable
        netif := some netif.num
        ethaddr := ethaddr
        ctime := 0
        q := [] } : EtharpEntry ρ) := by
      refine ⟨fun _ ↦ rfl, fun a ha ↦ ?_⟩
      simp only [ArpTable.maxAge] at ha ⊢
      split_ifs at ha
      · cases ha
      · obtain rfl := Option.some.inj ha
        decide
    refine ⟨_, hsteps.trans hserve, ?_, hR₁.hand, hfound.update hfound.ipaddr hok,
      hR₁.shows.set hfound hfound.ipaddr hstate, ?_⟩
    · rw [hR₁.log, hw]
      rfl
    · -- what is served is what is sent
      have hframes : ipFrames ((s₁.arp.table i).q.map fun p ↦ .ip netif.num p ethaddr) =
          (s₁.arp.table i).q.map fun p ↦ (p, ethaddr) := by
        simp [ipFrames, List.filterMap_map]
      have hserved : servedPairs (.opened ip ethaddr ::
          (s₁.arp.table i).q.flatMap fun p ↦ [.served p ethaddr, .released p]) =
          (s₁.arp.table i).q.map fun p ↦ (p, ethaddr) := by
        generalize (s₁.arp.table i).q = ps
        induction ps with
        | nil => rfl
        | cons p ps ih => simpa [servedPairs] using ih
      show SentOk (ipFrames (s₁.arp.sent ++ _)) (s₁.log ++ _) s₁.direct
      rw [ipFrames_append, hframes, ← hserved]
      exact hR₁.sent.serve

theorem moves_etharpAddStaticEntry {route : Option Netif} {ethaddr : EthAddr} {e : Err}
    (h : s.etharpAddStaticEntry route ip ethaddr = some (e, s')) : Moves may room s s' := by
  rcases route with - | netif
  · obtain ⟨rfl, rfl⟩ := Prod.mk.inj (Option.some.inj h)
    exact Moves.refl s
  · exact moves_etharpUpdateArpEntry h

theorem moves_etharpRemoveStaticEntry {e : Err}
    (h : s.etharpRemoveStaticEntry ip = some (e, s')) : Moves may room s s' := by
  obtain ⟨⟨o, s₁⟩, hfind, heq⟩ := Option.map_eq_some_iff.1 h
  have hmoves : Moves may room s s₁ := moves_etharpFindEntry hfind
  rcases o with - | i
  · obtain ⟨rfl, rfl⟩ := Prod.mk.inj heq
    exact hmoves
  · simp only at heq
    split_ifs at heq
    · obtain ⟨rfl, rfl⟩ := Prod.mk.inj heq
      exact hmoves
    · obtain ⟨rfl, rfl⟩ := Prod.mk.inj heq
      exact hmoves.trans (moves_freeEntry s₁ i)

/-- What is sent is not a packet. -/
theorem moves_send (s : ArpLedger ρ) {f : Frame ρ} (hf : ipFrames [f] = []) :
    Moves may room s (s.quietly fun arp ↦ arp.send f) :=
  Moves.of_same rfl rfl (by rw [ArpLedger.quietly_arp, Etharp.send, ipFrames_append, hf, List.append_nil])
    id (fun _ ↦ Iff.rfl) fun _ _ ↦ ⟨rfl, rfl⟩

theorem moves_etharpArpInput {netif : Netif} {hdr : Etharp.ArpPacket}
    (h : s.etharpArpInput netif hdr = some s') : Moves may room s s' := by
  rw [ArpLedger.etharpArpInput] at h
  extract_lets at h
  by_cases hwf : hdr.wellFormed = false
  · rw [if_pos hwf] at h
    obtain rfl := Option.some.inj h
    exact Moves.refl s
  · rw [if_neg hwf] at h
    obtain ⟨⟨e, s₁⟩, hupdate, heq⟩ := Option.map_eq_some_iff.1 h
    have hmoves : Moves may room s s₁ := moves_etharpUpdateArpEntry hupdate
    simp only at heq
    split_ifs at heq <;> obtain rfl := heq
    · exact hmoves.trans (moves_send s₁ rfl)
    · exact hmoves

/-- A request is not a packet. -/
theorem ipFrames_etharpRequest (arp : Etharp ρ) (env : EtharpEnv) (netif : Netif) (ip : IpAddr) :
    ipFrames (arp.etharpRequest env netif ip).sent = ipFrames arp.sent := by
  rw [Etharp.etharpRequest]
  split_ifs
  · rw [Etharp.send, ipFrames_append]
    exact List.append_nil _
  · rfl

/-! ### Queries -/

/-- An entry that was found is still the one of its address after it has been set. -/
theorem found_set (hi : ArpTable.Found t ip i) (hip : e.ipaddr = ip) (hs : e.state ≠ .empty)
    (hok : ArpTable.EntryOk e) : ArpTable.Found (Function.update t i e) ip i := by
  refine ⟨hi.update hip hok, by rw [Function.update_self, hip], fun j hj hjs ↦ ?_, fun h ↦ ?_⟩
  · rw [Function.update_of_ne hj] at hjs ⊢
    exact hi.alone j hj hjs
  · rw [Function.update_self] at h
    exact absurd h hs

/-- Setting an entry that was found, with something written down that is not about sending. -/
theorem Tracks.setEntry (h : Tracks s R) (hi : ArpTable.Found s.arp.table ip i)
    (e : EtharpEntry ρ) (hip : e.ipaddr = ip) (hs : e.state ≠ .empty) (hok : ArpTable.EntryOk e) {es : List (Event IpAddr ρ EthAddr)}
    (hes : servedPairs es = []) :
    Tracks ((s.quietly fun arp ↦ arp.setEntry i e).note es)
      ⟨Function.update R.waiting ip e.q, none, R.log ++ es⟩ := by
  refine ⟨congrArg (· ++ es) h.log, rfl, hi.update hip hok, h.shows.set hi hip hs, ?_⟩
  exact h.sent.note hes

/-- **Marking an entry as pending** and asking for its address. -/
theorem Tracks.ask (h : Tracks s R) (hi : ArpTable.Found s.arp.table ip i) {b : Prop} [Decidable b]
    (env : EtharpEnv) (netif : Netif) {st : EtharpState}
    (hst : st = if (s.arp.table i).state = .empty then .pending else (s.arp.table i).state)
    (hs' : s' = if b then (s.quietly fun arp ↦ arp.setEntry i { arp.table i with state := st }).quietly
      fun arp ↦ arp.etharpRequest env netif ip else
        s.quietly fun arp ↦ arp.setEntry i { arp.table i with state := st }) :
    Tracks s' R ∧ ArpTable.Found s'.arp.table ip i ∧ (s'.arp.table i).state = st ∧
      s'.log = s.log ∧ s'.direct = s.direct := by
  have hst_ne : st ≠ .empty := by
    rw [hst]
    split_ifs with hs
    · decide
    · exact hs
  have hok : ArpTable.EntryOk ({ s.arp.table i with state := st } : EtharpEntry ρ) := by
    rw [hst]
    exact Etharp.entryOk_query hi
  have hnothing : servedPairs ([] : List (Event IpAddr ρ EthAddr)) = [] := rfl
  have hmark := h.setEntry hi { s.arp.table i with state := st } hi.ipaddr hst_ne hok hnothing
  -- the queue is not touched
  have hsame : Function.update R.waiting ip (s.arp.table i).q = R.waiting := by
    rw [← h.shows.found hi, Function.update_eq_self]
  have hR : (⟨Function.update R.waiting ip (s.arp.table i).q, none, R.log ++ []⟩ :
      Rooms IpAddr ρ EthAddr) = R := by
    rw [hsame, List.append_nil, ← h.hand]
  rw [hR] at hmark
  have hmark' : Tracks (s.quietly fun arp ↦ arp.setEntry i { arp.table i with state := st }) R := by
    refine ⟨h.log, h.hand, hmark.inv, hmark.shows, h.sent⟩
  have hfound : ArpTable.Found (s.quietly fun arp ↦
      arp.setEntry i { arp.table i with state := st }).arp.table ip i :=
    found_set hi hi.ipaddr hst_ne hok
  have hstate : ((s.quietly fun arp ↦ arp.setEntry i { arp.table i with state := st }).arp.table i).state =
      st := by simp [Etharp.setEntry]
  split_ifs at hs' with hb <;> subst hs'
  · have htable := Etharp.etharpRequest_table
      (s.quietly fun arp ↦ arp.setEntry i { arp.table i with state := st }).arp env netif ip
    refine ⟨⟨h.log, h.hand, ?_, ?_, ?_⟩, ?_, ?_, rfl, rfl⟩
    · rw [ArpLedger.quietly_arp, htable]
      exact hmark'.inv
    · rw [ArpLedger.quietly_arp, htable]
      exact hmark'.shows
    · rw [ArpLedger.quietly_arp, ipFrames_etharpRequest]
      exact h.sent
    · rw [ArpLedger.quietly_arp, htable]
      exact hfound
    · rw [ArpLedger.quietly_arp, htable]
      exact hstate
  · exact ⟨hmark', hfound, hstate, rfl, rfl⟩

/-- **Queueing a packet**: it enters the room, in the place of the others or not, or is refused. -/
theorem steps_enqueue (queueing : Bool) (env : RefEnv) {p : ρ} (taken : TakeOver) (hmay : may p)
    (hhand : R.hand = none) (hp : R.Fresh p) :
    Rooms.Steps may room R ⟨Function.update R.waiting (room p)
      (ArpLedger.enqueue queueing env (R.waiting (room p)) p taken).2.1, none,
      R.log ++ (ArpLedger.enqueue queueing env (R.waiting (room p)) p taken).2.2⟩ := by
  have hsame : Function.update R.waiting (room p) (R.waiting (room p)) = R.waiting :=
    Function.update_eq_self _ _
  have hR : (⟨R.waiting, none, R.log⟩ : Rooms IpAddr ρ EthAddr) = R := by rw [← hhand]
  have hrefuse : Rooms.Steps may room R _ := Rooms.steps_refuse hmay hhand hp
  rcases taken with - | - | -
  · simp only [ArpLedger.enqueue, hsame, List.append_nil, hR]
    exact Relation.ReflTransGen.refl
  · simp only [ArpLedger.enqueue, hsame]
    exact hrefuse
  · rw [ArpLedger.enqueue]
    split_ifs
    · exact Rooms.steps_admit hmay hhand hp
    · simp only [hsame]
      exact hrefuse
    · exact Rooms.steps_replace hmay hhand hp

theorem servedPairs_enqueue (queueing : Bool) (env : RefEnv) (q : List ρ) (p : ρ) (taken : TakeOver) :
    servedPairs (ArpLedger.enqueue queueing env q p taken).2.2 = [] := by
  rcases taken with - | - | -
  · rfl
  · rfl
  · rw [ArpLedger.enqueue]
    split_ifs
    · rfl
    · rfl
    · simp [servedPairs]

/-- A packet is queued if and only if the result says so. -/
theorem admitted_enqueue_iff (queueing : Bool) (env : RefEnv) (q : List ρ) (p : ρ) (taken : TakeOver) :
    .admitted p ∈ (ArpLedger.enqueue queueing env q p taken).2.2 ↔
      (ArpLedger.enqueue queueing env q p taken).1 = .ok := by
  rcases taken with - | - | -
  · simp [ArpLedger.enqueue]
  · simp [ArpLedger.enqueue]
  · rw [ArpLedger.enqueue]
    split_ifs <;> simp

/-- **What became of the packet of a call**: it was queued, and the result is `ERR_OK`; or it was sent
directly; or neither, and the result is an error. -/
inductive Outcome (s s' : ArpLedger ρ) (p : ρ) (e : Err) : Prop
  | queued : s'.direct = s.direct → .admitted p ∈ s'.log → e = .ok → Outcome s s' p e
  | direct (dest : EthAddr) : s'.direct = s.direct ++ [(p, dest)] → .admitted p ∉ s'.log →
      Outcome s s' p e
  | refused : s'.direct = s.direct → .admitted p ∉ s'.log → e ≠ .ok → Outcome s s' p e

theorem Tracks.not_admitted {p : ρ} (h : Tracks s R) (hp : Rooms.All (· ≠ p) R) :
    .admitted p ∉ s.log := fun hmem ↦ hp.log _ (h.log ▸ hmem) p rfl rfl

/-- A packet is sent directly. -/
theorem Tracks.sendDirectly (h : Tracks s R) (netif : ℕ) (p : ρ) (dest : EthAddr) :
    Tracks (s.sendDirectly netif p dest) R := by
  refine ⟨h.log, h.hand, h.inv, h.shows, ?_⟩
  show SentOk (ipFrames (s.arp.sent ++ [.ip netif p dest])) s.log (s.direct ++ [(p, dest)])
  rw [ipFrames_append]
  exact h.sent.direct (p, dest)

/-- **`etharp_query`** with a packet. -/
theorem query_steps {queueing : Bool} {env : RefEnv} {netif : Netif} {p : ρ} {pbufs : List QPbuf}
    {e : Err} (hR : Tracks s R) (hp : Rooms.All (· ≠ p) R) (hmay : may p) (hroom : room p = ip)
    (h : s.etharpQuery queueing env netif ip (some (p, pbufs)) = some (e, s')) :
    (∃ R', Rooms.Steps may room R R' ∧ Tracks s' R') ∧ Outcome s s' p e := by
  rw [ArpLedger.etharpQuery] at h
  by_cases hkind : (ipAddrIsBroadcast ip netif || ipAddrIsMulticast ip || ipAddrIsAny ip) = true
  · rw [if_pos hkind] at h
    obtain ⟨rfl, rfl⟩ := Prod.mk.inj (Option.some.inj h)
    exact ⟨⟨R, Relation.ReflTransGen.refl, hR⟩, .refused rfl (hR.not_admitted hp) (by decide)⟩
  rw [if_neg hkind] at h
  obtain ⟨⟨o, s₁⟩, hfind, hcall⟩ := Option.bind_eq_some_iff.1 h
  -- while the entry is looked for, no packet is taken
  have hquiet : Moves (fun _ ↦ False) room s s₁ := moves_etharpFindEntry hfind
  obtain ⟨R₁, hsteps₀, hR₁⟩ := hquiet.steps R hR
  have hp₁ : Rooms.All (· ≠ p) R₁ := hp.steps (fun _ h ↦ h.elim) hsteps₀
  have hsteps : Rooms.Steps may room R R₁ :=  Rooms.steps_mono hsteps₀ fun _ h ↦ h.elim
  rcases o with - | i
  · obtain ⟨rfl, rfl⟩ := Prod.mk.inj (Option.some.inj hcall)
    exact ⟨⟨R₁, hsteps, hR₁⟩, .refused hquiet.direct (hR₁.not_admitted hp₁) (by decide)⟩
  have hfound := found_etharpFindEntry hR.inv hfind
  simp only at hcall
  generalize hst : (if (s₁.arp.table i).state = .empty then .pending else (s₁.arp.table i).state) = st
    at hcall
  generalize hs₂ : (if st = .pending ∨ (some (p, pbufs)).isNone = true then _ else _) = s₂ at hcall
  obtain ⟨hR₂, hfound₂, hstate, hlog, hdirect⟩ := hR₁.ask hfound (env.toEnv []) netif hst.symm hs₂.symm
  have hdirect' : s₂.direct = s.direct := hdirect.trans hquiet.direct
  by_cases hres : st.resolved = true
  · rw [if_pos hres] at hcall
    obtain ⟨rfl, rfl⟩ := Prod.mk.inj (Option.some.inj hcall)
    have hcached : Tracks (s₂.quietly fun arp ↦ { arp with cached := i }) R₁ :=
      ⟨hR₂.log, hR₂.hand, hR₂.inv, hR₂.shows, hR₂.sent⟩
    refine ⟨⟨R₁, hsteps, hcached.sendDirectly _ _ _⟩, .direct (s₂.arp.table i).ethaddr ?_ ?_⟩
    · show s₂.direct ++ _ = _
      rw [hdirect']
    · exact hR₂.not_admitted hp₁
  · rw [if_neg hres] at hcall
    obtain ⟨taken, -, heq⟩ := Option.map_eq_some_iff.1 hcall
    obtain ⟨rfl, rfl⟩ := Prod.mk.inj heq
    have hw : R₁.waiting (room p) = (s₂.arp.table i).q := by
      rw [hroom]
      exact hR₂.shows.found hfound₂
    -- the entry is pending
    have hpending : (s₂.arp.table i).state = .pending := by
      rw [hstate]
      rw [← hst] at hres ⊢
      revert hres
      cases (s₁.arp.table i).state <;> simp [EtharpState.resolved]
    have henqueue : Rooms.Steps may room R₁ _ := steps_enqueue queueing env taken hmay hR₂.hand hp₁.fresh
    rw [hw] at henqueue
    have hok : ArpTable.EntryOk ({ s₂.arp.table i with
        q := (ArpLedger.enqueue queueing env (s₂.arp.table i).q p taken).2.1 } : EtharpEntry ρ) :=
      ⟨fun hne ↦ absurd hpending hne, (hR₂.inv.entry i).age⟩
    have hset := hR₂.setEntry hfound₂ { s₂.arp.table i with
        q := (ArpLedger.enqueue queueing env (s₂.arp.table i).q p taken).2.1 } hfound₂.ipaddr
      (by rw [hpending]; decide) hok
      (servedPairs_enqueue queueing env (s₂.arp.table i).q p taken)
    rw [← hroom] at hset
    have hadm := admitted_enqueue_iff queueing env (s₂.arp.table i).q p taken
    refine ⟨⟨_, hsteps.trans henqueue, hset⟩, ?_⟩
    by_cases hresult : (ArpLedger.enqueue queueing env (s₂.arp.table i).q p taken).1 = .ok
    · exact .queued hdirect' (List.mem_append_right _ (hadm.2 hresult)) hresult
    · refine .refused hdirect' (fun hmem ↦ ?_) hresult
      rcases List.mem_append.1 hmem with hmem | hmem
      · exact hR₂.not_admitted hp₁ hmem
      · exact hresult (hadm.1 hmem)

/-- `etharp_query` without a packet asks for an address. -/
theorem moves_etharpQuery_none {queueing : Bool} {env : RefEnv} {netif : Netif} {e : Err}
    (h : s.etharpQuery queueing env netif ip none = some (e, s')) : Moves may room s s' := by
  rw [ArpLedger.etharpQuery] at h
  by_cases hkind : (ipAddrIsBroadcast ip netif || ipAddrIsMulticast ip || ipAddrIsAny ip) = true
  · rw [if_pos hkind] at h
    obtain ⟨rfl, rfl⟩ := Prod.mk.inj (Option.some.inj h)
    exact Moves.refl s
  rw [if_neg hkind] at h
  obtain ⟨⟨o, s₁⟩, hfind, hcall⟩ := Option.bind_eq_some_iff.1 h
  have hmoves : Moves may room s s₁ := moves_etharpFindEntry hfind
  rcases o with - | i
  · obtain ⟨rfl, rfl⟩ := Prod.mk.inj (Option.some.inj hcall)
    exact hmoves
  simp only at hcall
  generalize hst : (if (s₁.arp.table i).state = .empty then .pending else (s₁.arp.table i).state) = st
    at hcall
  generalize hs₂ : (if st = .pending ∨ (none : Option (ρ × List QPbuf)).isNone = true then _ else _) = s₂
    at hcall
  obtain ⟨rfl, rfl⟩ := Prod.mk.inj (Option.some.inj hcall)
  refine ⟨?_, fun R hR ↦ ?_⟩
  · rw [← hs₂]
    split_ifs
    · exact hmoves.direct
    · exact hmoves.direct
  · obtain ⟨R₁, hsteps, hR₁⟩ := hmoves.steps R hR
    exact ⟨R₁, hsteps,
      (hR₁.ask (found_etharpFindEntry hR.inv hfind) (env.toEnv []) netif hst.symm hs₂.symm).1⟩

/-! ### Output -/

/-- A packet that is sent directly is not queued. -/
theorem output_direct (s : ArpLedger ρ) {p : ρ} (hp : Rooms.All (· ≠ p) R)
    (hs₁ : Tracks s'' R) (hdirect : s''.direct = s.direct) (n : ℕ) (dest : EthAddr) {e : Err} :
    (∃ R', Rooms.Steps may room R R' ∧ Tracks (s''.sendDirectly n p dest) R') ∧
      Outcome s (s''.sendDirectly n p dest) p e := by
  refine ⟨⟨R, Relation.ReflTransGen.refl, hs₁.sendDirectly n p dest⟩, .direct dest ?_ ?_⟩
  · show s''.direct ++ _ = _
    rw [hdirect]
  · show .admitted p ∉ s''.log
    exact hs₁.not_admitted hp

/-- Changing the state of a resolved entry to that of another resolved one. -/
theorem Tracks.rerequest (h : Tracks s R) (hi : (s.arp.table i).state = .stable) :
    Tracks (s.quietly fun arp ↦
      arp.setEntry i { s.arp.table i with state := .stableRerequesting }) R := by
  have hne : (s.arp.table i).state ≠ .empty := by
    rw [hi]
    decide
  have hother : ∀ j, j ≠ i → Function.update s.arp.table i
      { s.arp.table i with state := .stableRerequesting } j = s.arp.table j := fun j hj ↦
    Function.update_of_ne hj _ _
  refine ⟨h.log, h.hand, h.inv.of_le (fun j hj ↦ ?_) fun j ↦ ?_, h.shows.congr (fun j ↦ ?_) fun j hj ↦ ?_,
    h.sent⟩ <;> rcases eq_or_ne j i with rfl | hji
  · exact ⟨hne, by simp [Etharp.setEntry]⟩
  · simp only [ArpLedger.quietly_arp, Etharp.setEntry, hother j hji] at hj ⊢
    exact ⟨hj, trivial⟩
  · have hj := h.inv.entry j
    simp only [ArpLedger.quietly_arp, Etharp.setEntry, Function.update_self]
    refine ⟨fun _ ↦ hj.queue (by rw [hi]; decide), fun a ha ↦ hj.age a ?_⟩
    rw [hi]
    exact ha
  · simpa [Etharp.setEntry, hji] using h.inv.entry j
  · simp [Etharp.setEntry, hne]
  · simp [Etharp.setEntry, hji]
  · simp [Etharp.setEntry]
  · simp [Etharp.setEntry, hji]

theorem outputToArpIndex_steps {env : RefEnv} {netif : Netif} {p : ρ} {e : Err}
    (hR : Tracks s R) (hp : Rooms.All (· ≠ p) R)
    (h : s.etharpOutputToArpIndex env netif p i = some (e, s')) :
    (∃ R', Rooms.Steps may room R R' ∧ Tracks s' R') ∧ Outcome s s' p e := by
  rw [ArpLedger.etharpOutputToArpIndex] at h
  by_cases hres : (s.arp.table i).state.resolved = true
  swap
  · rw [if_neg hres] at h
    cases h
  rw [if_pos hres] at h
  obtain ⟨rfl, rfl⟩ := Prod.mk.inj (Option.some.inj h)
  by_cases hage : (s.arp.table i).state = .stable ∧ arpAgeRerequestUsed ≤ (s.arp.table i).ctime
  · simp only [if_pos hage]
    have hasked : Tracks (s.quietly fun arp ↦
        arp.etharpRequest (env.toEnv []) netif (s.arp.table i).ipaddr) R := by
      have htable := Etharp.etharpRequest_table s.arp (env.toEnv []) netif (s.arp.table i).ipaddr
      refine ⟨hR.log, hR.hand, ?_, ?_, ?_⟩
      · rw [ArpLedger.quietly_arp, htable]
        exact hR.inv
      · rw [ArpLedger.quietly_arp, htable]
        exact hR.shows
      · rw [ArpLedger.quietly_arp, ipFrames_etharpRequest]
        exact hR.sent
    have hentry : (s.quietly fun arp ↦
        arp.etharpRequest (env.toEnv []) netif (s.arp.table i).ipaddr).arp.table i = s.arp.table i := by
      rw [ArpLedger.quietly_arp, Etharp.etharpRequest_table]
    by_cases hreq : env.request = .ok
    · simp only [if_pos hreq]
      have hre := hasked.rerequest (i := i) (by rw [hentry]; exact hage.1)
      rw [hentry] at hre
      exact output_direct s hp hre rfl _ _
    · simp only [if_neg hreq]
      exact output_direct s hp hasked rfl _ _
  · simp only [if_neg hage]
    exact output_direct s hp hR rfl _ _

/-- **`etharp_output`**, for a packet whose room is that of its next hop. -/
theorem output_steps {queueing : Bool} {env : RefEnv} {netif : Netif} {p : ρ} {pbufs : List QPbuf}
    {e : Err} (hR : Tracks s R) (hp : Rooms.All (· ≠ p) R) (hmay : may p)
    (hroom : ∀ dst ∈ Etharp.nextHop netif ip, room p = dst)
    (h : s.etharpOutput queueing env netif p pbufs ip = some (e, s')) :
    (∃ R', Rooms.Steps may room R R' ∧ Tracks s' R') ∧ Outcome s s' p e := by
  have hrefused : ∀ {e : Err}, e ≠ .ok →
      (∃ R', Rooms.Steps may room R R' ∧ Tracks s R') ∧ Outcome s s p e := fun he ↦
    ⟨⟨R, Relation.ReflTransGen.refl, hR⟩, .refused rfl (hR.not_admitted hp) he⟩
  rw [ArpLedger.etharpOutput] at h
  by_cases hroom' : env.header = false
  · rw [if_pos hroom'] at h
    obtain ⟨rfl, rfl⟩ := Prod.mk.inj (Option.some.inj h)
    exact hrefused (by decide)
  rw [if_neg hroom'] at h
  by_cases hbroad : ipAddrIsBroadcast ip netif = true
  · rw [if_pos hbroad] at h
    obtain ⟨rfl, rfl⟩ := Prod.mk.inj (Option.some.inj h)
    exact output_direct s hp hR rfl _ _
  rw [if_neg hbroad] at h
  by_cases hmulti : ipAddrIsMulticast ip = true
  · rw [if_pos hmulti] at h
    obtain ⟨rfl, rfl⟩ := Prod.mk.inj (Option.some.inj h)
    exact output_direct s hp hR rfl _ _
  rw [if_neg hmulti] at h
  cases hhop : Etharp.nextHop netif ip with
  | none =>
    rw [hhop] at h
    obtain ⟨rfl, rfl⟩ := Prod.mk.inj (Option.some.inj h)
    exact hrefused (by decide)
  | some dst =>
    rw [hhop] at h
    simp only at h
    have hcached : ∀ i, Tracks (s.quietly fun arp ↦ { arp with cached := i }) R := fun i ↦
      ⟨hR.log, hR.hand, hR.inv, hR.shows, hR.sent⟩
    by_cases hcache : (s.arp.table s.arp.cached).state.resolved = true ∧
        dst = (s.arp.table s.arp.cached).ipaddr
    · rw [if_pos hcache] at h
      exact outputToArpIndex_steps hR hp h
    · rw [if_neg hcache] at h
      split at h
      · next i _ =>
        obtain ⟨⟨R', hsteps, hR'⟩, hout⟩ := outputToArpIndex_steps (hcached i) hp h
        refine ⟨⟨R', hsteps, hR'⟩, ?_⟩
        rcases hout with ⟨hd, hadm, he⟩ | ⟨dest, hd, hadm⟩ | ⟨hd, hadm, he⟩
        · exact .queued hd hadm he
        · exact .direct dest hd hadm
        · exact .refused hd hadm he
      · exact query_steps hR hp hmay (hroom dst hhop) h

end

namespace RefRun

variable [DecidableEq π] {s s' : RefRun π} {r : Ref π} {e : Err} {l : ArpLedger (Ref π)}
  {queueing : Bool}

/-! ### Every run -/

/-- No entry holds the reference. -/
def NotQueued (s : RefRun π) (r : Ref π) : Prop := ∀ i, r ∉ (s.ledger.arp.table i).q

/-- Where the packet was sent, in order. -/
def sentTo (s : RefRun π) (r : Ref π) : List EthAddr :=
  (ipFrames s.ledger.arp.sent).filterMap fun x ↦ if x.1 = r then some x.2 else none

/-- **The fate of a queued packet**: it waits at the pending entry of its next hop, and nowhere else; it
was sent once, to the address that was learned last, and for its next hop, and its reference was
released; or it was dropped, and its reference was released. -/
def HasFate (s : RefRun π) (r : Ref π) : Rooms.Fate → Prop
  | .waits => (∃ i, (s.ledger.arp.table i).state = .pending ∧
      (s.ledger.arp.table i).ipaddr = r.nextHop ∧ (s.ledger.arp.table i).q.count r = 1 ∧
      ∀ j, j ≠ i → r ∉ (s.ledger.arp.table j).q) ∧
    s.sentTo r = [] ∧ s.ledger.log.count (.released r) = 0
  | .served => s.NotQueued r ∧ s.ledger.log.count (.released r) = 1 ∧
    ∃ l ethaddr l', s.ledger.log = l ++ .served r ethaddr :: l' ∧
      Rooms.lastOpened none l = some (r.nextHop, ethaddr) ∧ s.sentTo r = [ethaddr]
  | .dismissed => s.NotQueued r ∧ s.sentTo r = [] ∧ s.ledger.log.count (.released r) = 1

/-- The packets that were sent to a next hop after they had been queued, in order. -/
def queuedSent (s : RefRun π) (ip : IpAddr) : List (Ref π) :=
  ((ipFrames s.ledger.arp.sent).map Prod.fst).filter fun r ↦
    r.nextHop = ip ∧ .admitted r ∈ s.ledger.log

/-- **The invariant of the runs**: there are rooms whose accounts are right; all packets come from
earlier calls; no packet was queued and sent directly; and the results say which were queued. -/
structure RunOk (s : RefRun π) (R : Rooms IpAddr (Ref π) EthAddr) : Prop where
  tracks : Tracks s.ledger R
  accounts : Rooms.Accounts Ref.nextHop R
  all : Rooms.All (fun r ↦ r.call < s.calls) R
  direct : ∀ x ∈ s.ledger.direct, x.1.call < s.calls ∧ .admitted x.1 ∉ s.ledger.log
  results : ∀ x ∈ s.results, x.1.call < s.calls ∧ (.admitted x.1 ∈ s.ledger.log → x.2 = .ok) ∧
    (x.2 = .ok → .admitted x.1 ∈ s.ledger.log ∨ ∃ dest, (x.1, dest) ∈ s.ledger.direct)

theorem runOk_init : RunOk (init : RefRun π) Rooms.init := by
  refine ⟨⟨rfl, rfl, Etharp.inv_init, ⟨fun i _ ↦ rfl, fun _ _ ↦ rfl⟩, List.Perm.refl _,
    List.Sublist.refl _⟩, Rooms.accounts_init, ⟨nofun, nofun, nofun⟩, nofun, nofun⟩

/-- **A call without a packet.** -/
theorem RunOk.next {R : Rooms IpAddr (Ref π) EthAddr} (h : RunOk s R)
    (hmoves : Moves (fun _ ↦ False) Ref.nextHop s.ledger l) : ∃ R', RunOk (s.next l) R' := by
  obtain ⟨R', hsteps, hR'⟩ := hmoves.steps R h.tracks
  have hadm : ∀ q, .admitted q ∈ l.log ↔ .admitted q ∈ s.ledger.log := fun q ↦ by
    rw [← hR'.log, ← h.tracks.log]
    refine ⟨fun hq ↦ ?_, fun hq ↦ Rooms.log_subset_of_steps hsteps hq⟩
    have hhand := h.tracks.hand
    rcases (Rooms.admitted_of_steps hsteps).2 q hq with hq | hq | hq
    · exact hq
    · exact hq.elim
    · rw [hhand] at hq
      cases hq
  have hall := h.all.steps (fun _ h ↦ h.elim) hsteps
  refine ⟨R', hR', h.accounts.steps hsteps, ⟨fun e he q hq ↦ (hall.log e he q hq).trans (Nat.lt_succ_self _),
    fun k q hq ↦ (hall.waiting k q hq).trans (Nat.lt_succ_self _),
    fun q hq ↦ (hall.hand q hq).trans (Nat.lt_succ_self _)⟩, fun x hx ↦ ?_, fun x hx ↦ ?_⟩
  · have hx' : x ∈ s.ledger.direct := by
      rw [← hmoves.direct]
      exact hx
    obtain ⟨hcall, hno⟩ := h.direct x hx'
    exact ⟨hcall.trans (Nat.lt_succ_self _), fun hmem ↦ hno ((hadm _).1 hmem)⟩
  · obtain ⟨hcall, hok, hqueued⟩ := h.results x hx
    refine ⟨hcall.trans (Nat.lt_succ_self _), fun hmem ↦ hok ((hadm _).1 hmem), fun he ↦ ?_⟩
    show .admitted x.1 ∈ l.log ∨ ∃ dest, (x.1, dest) ∈ l.direct
    rw [hadm, hmoves.direct]
    exact hqueued he

/-- **A call with a packet**, which has the number of the call. -/
theorem RunOk.result {R : Rooms IpAddr (Ref π) EthAddr} (h : RunOk s R) (hr : r.call = s.calls)
    (hcall : Rooms.All (· ≠ r) R →
      (∃ R', Rooms.Steps (· = r) Ref.nextHop R R' ∧ Tracks l R') ∧ Outcome s.ledger l r e) :
    ∃ R', RunOk (s.result r (e, l)) R' := by
  have hne : ∀ q : Ref π, q.call < s.calls → q ≠ r := by
    rintro q hq rfl
    omega
  obtain ⟨⟨R', hsteps, hR'⟩, hout⟩ := hcall ⟨fun e he q hq ↦ hne q (h.all.log e he q hq),
    fun k q hq ↦ hne q (h.all.waiting k q hq), fun q hq ↦ hne q (h.all.hand q hq)⟩
  -- of the other packets, none was queued
  have hadm : ∀ q, q ≠ r → (.admitted q ∈ l.log ↔ .admitted q ∈ s.ledger.log) := fun q hq ↦ by
    rw [← hR'.log, ← h.tracks.log]
    refine ⟨fun hmem ↦ ?_, fun hmem ↦ Rooms.log_subset_of_steps hsteps hmem⟩
    have hhand := h.tracks.hand
    rcases (Rooms.admitted_of_steps hsteps).2 q hmem with hmem | hmem | hmem
    · exact hmem
    · exact absurd hmem hq
    · rw [hhand] at hmem
      cases hmem
  have hlt : ∀ {q : Ref π}, q.call < s.calls → q.call < s.calls + 1 := fun hq ↦
    hq.trans (Nat.lt_succ_self _)
  have hall : Rooms.All (fun q ↦ q.call < s.calls + 1) R' := by
    refine Rooms.All.steps ⟨fun e he q hq ↦ hlt (h.all.log e he q hq),
      fun k q hq ↦ hlt (h.all.waiting k q hq), fun q hq ↦ hlt (h.all.hand q hq)⟩ (fun q hq ↦ ?_) hsteps
    rw [hq, hr]
    exact Nat.lt_succ_self _
  have hnew : r.call < s.calls + 1 := by
    rw [hr]
    exact Nat.lt_succ_self _
  -- what was sent directly before, and what is now
  have hdirect : (∀ x ∈ l.direct, x ∈ s.ledger.direct ∨ x.1 = r ∧ .admitted r ∉ l.log) ∧
      s.ledger.direct ⊆ l.direct := by
    rcases hout with ⟨hd, -, -⟩ | ⟨dest, hd, hno⟩ | ⟨hd, -, -⟩
    · rw [hd]
      exact ⟨fun x hx ↦ Or.inl hx, List.Subset.refl _⟩
    · rw [hd]
      refine ⟨fun x hx ↦ ?_, List.subset_append_left _ _⟩
      rcases List.mem_append.1 hx with hx | hx
      · exact Or.inl hx
      · rw [List.mem_singleton.1 hx]
        exact Or.inr ⟨rfl, hno⟩
    · rw [hd]
      exact ⟨fun x hx ↦ Or.inl hx, List.Subset.refl _⟩
  refine ⟨R', hR', h.accounts.steps hsteps, hall, fun x hx ↦ ?_, fun x hx ↦ ?_⟩
  · rcases hdirect.1 x hx with hx | ⟨hx, hno⟩
    · obtain ⟨hcall, hno⟩ := h.direct x hx
      exact ⟨hlt hcall, fun hmem ↦ hno ((hadm _ (hne _ hcall)).1 hmem)⟩
    · rw [hx]
      exact ⟨hnew, hno⟩
  · rcases List.mem_append.1 hx with hx | hx
    · obtain ⟨hcall, hok, hqueued⟩ := h.results x hx
      have hxne := hne _ hcall
      refine ⟨hlt hcall, fun hmem ↦ hok ((hadm _ hxne).1 hmem), fun he ↦ ?_⟩
      rcases hqueued he with hmem | ⟨dest, hmem⟩
      · exact Or.inl ((hadm _ hxne).2 hmem)
      · exact Or.inr ⟨dest, hdirect.2 hmem⟩
    · rw [List.mem_singleton.1 hx]
      refine ⟨hnew, fun hmem ↦ ?_, fun he ↦ ?_⟩
      · rcases hout with ⟨-, -, he⟩ | ⟨dest, -, hno⟩ | ⟨-, hno, -⟩
        · exact he
        · exact absurd hmem hno
        · exact absurd hmem hno
      · rcases hout with ⟨-, hmem, -⟩ | ⟨dest, hd, -⟩ | ⟨-, -, hno⟩
        · exact Or.inl hmem
        · refine Or.inr ⟨dest, ?_⟩
          show (r, dest) ∈ l.direct
          rw [hd]
          exact List.mem_append_right _ (List.mem_singleton_self _)
        · exact absurd he hno

/-- **One call.** -/
theorem RunOk.step {R : Rooms IpAddr (Ref π) EthAddr} (h : RunOk s R) {c : RefCall π}
    (hstep : step queueing c s = some s') : ∃ R', RunOk s' R' := by
  rcases c with ⟨netif, hdr⟩ | ⟨route, ipaddr, ethaddr⟩ | ipaddr | n | ⟨env, netif, p, pbufs, ipaddr⟩ |
    ⟨env, netif, ipaddr, q⟩ | -
  · obtain ⟨l, hcall, rfl⟩ := Option.map_eq_some_iff.1 hstep
    exact h.next (moves_etharpArpInput hcall)
  · obtain ⟨⟨e, l⟩, hcall, rfl⟩ := Option.map_eq_some_iff.1 hstep
    exact h.next (moves_etharpAddStaticEntry hcall)
  · obtain ⟨⟨e, l⟩, hcall, rfl⟩ := Option.map_eq_some_iff.1 hstep
    exact h.next (moves_etharpRemoveStaticEntry hcall)
  · rw [← Option.some.inj hstep]
    exact h.next (moves_etharpCleanupNetif s.ledger n)
  · obtain ⟨⟨e, l⟩, hcall, rfl⟩ := Option.map_eq_some_iff.1 hstep
    refine h.result rfl fun hp ↦ output_steps h.tracks hp rfl (fun dst hdst ↦ ?_) hcall
    rw [hdst]
    rfl
  · rcases q with - | ⟨p, pbufs⟩
    · obtain ⟨⟨e, l⟩, hcall, rfl⟩ := Option.map_eq_some_iff.1 hstep
      exact h.next (moves_etharpQuery_none hcall)
    · obtain ⟨⟨e, l⟩, hcall, rfl⟩ := Option.map_eq_some_iff.1 hstep
      exact h.result rfl fun hp ↦ query_steps h.tracks hp rfl rfl hcall
  · rw [← Option.some.inj hstep]
    exact h.next (moves_etharpTmr s.ledger)

theorem run_ok {cs : List (RefCall π)} (hrun : runLabels (step queueing) cs init = some s) :
    ∃ R, RunOk s R :=
  runLabels_invariant (I := fun s : RefRun π ↦ ∃ R, RunOk s R) ⟨_, runOk_init⟩
    (fun _ _ _ ⟨_, h⟩ hstep ↦ h.step hstep) hrun

/-! ### What became of a packet -/

/-- **The sendings of a queued packet** are those from a queue. -/
theorem length_servedPairs (r : Ref π) (l : List (Event IpAddr (Ref π) EthAddr)) :
    ((servedPairs l).filterMap fun x ↦ if x.1 = r then some x.2 else none).length =
      Rooms.servings r l := by
  induction l with
  | nil => rfl
  | cons e l ih =>
    have hcons : servedPairs (e :: l) = servedPairs [e] ++ servedPairs l :=
      servedPairs_append [e] l
    rw [hcons, List.filterMap_append, List.length_append, ih, Rooms.servings, Rooms.servings,
      List.countP_cons, Nat.add_comm]
    congr 1
    cases e with
    | served q x => by_cases hq : q = r <;> simp [servedPairs, Rooms.isServed, hq]
    | taken | admitted | opened | released => rfl

theorem RunOk.sentTo_perm {R : Rooms IpAddr (Ref π) EthAddr} (h : RunOk s R)
    (hr : .admitted r ∈ s.ledger.log) : (s.sentTo r).Perm
      ((servedPairs s.ledger.log).filterMap fun x ↦ if x.1 = r then some x.2 else none) := by
  have hdirect : (s.ledger.direct.filterMap fun x ↦ if x.1 = r then some x.2 else none) = [] := by
    rw [List.filterMap_eq_nil_iff]
    intro x hx
    refine if_neg fun heq ↦ (h.direct x hx).2 ?_
    rwa [heq]
  have hperm := h.tracks.sent.perm.filterMap fun x ↦ if x.1 = r then some x.2 else none
  rwa [List.filterMap_append, hdirect, List.append_nil] at hperm

theorem RunOk.length_sentTo {R : Rooms IpAddr (Ref π) EthAddr} (h : RunOk s R)
    (hr : .admitted r ∈ s.ledger.log) : (s.sentTo r).length = Rooms.servings r s.ledger.log :=
  (h.sentTo_perm hr).length_eq.trans (length_servedPairs r _)

/-- A packet that waits in no room is in no queue. -/
theorem RunOk.notQueued {R : Rooms IpAddr (Ref π) EthAddr} (h : RunOk s R)
    (hr : ∀ k, r ∉ R.waiting k) : s.NotQueued r := by
  intro i hmem
  by_cases hi : (s.ledger.arp.table i).state = .empty
  · rw [(h.tracks.inv.entry i).queue (by simp [hi])] at hmem
    cases hmem
  · refine hr (s.ledger.arp.table i).ipaddr ?_
    rwa [h.tracks.shows.entry i hi]

/-- **A packet that waits in its room** is in the queue of a pending entry, and of no other. -/
theorem RunOk.waits {R : Rooms IpAddr (Ref π) EthAddr} (h : RunOk s R)
    (hr : (R.waiting r.nextHop).count r = 1) : ∃ i, (s.ledger.arp.table i).state = .pending ∧
      (s.ledger.arp.table i).ipaddr = r.nextHop ∧ (s.ledger.arp.table i).q.count r = 1 ∧
      ∀ j, j ≠ i → r ∉ (s.ledger.arp.table j).q := by
  obtain ⟨i, hi, hip⟩ : ∃ i, (s.ledger.arp.table i).state ≠ .empty ∧
      (s.ledger.arp.table i).ipaddr = r.nextHop := by
    by_contra hno
    push Not at hno
    rw [h.tracks.shows.other r.nextHop hno] at hr
    cases hr
  have hq := h.tracks.shows.entry i hi
  rw [hip] at hq
  rw [hq] at hr
  have hpending : ∀ j, r ∈ (s.ledger.arp.table j).q → (s.ledger.arp.table j).state = .pending := by
    intro j hj
    by_contra hne
    rw [(h.tracks.inv.entry j).queue hne] at hj
    cases hj
  have hmem : r ∈ (s.ledger.arp.table i).q := List.count_pos_iff.1 (by omega)
  refine ⟨i, hpending i hmem, hip, hr, fun j hj hmem' ↦ hj ?_⟩
  have hne : (s.ledger.arp.table j).state ≠ .empty := by
    rw [hpending j hmem']
    decide
  refine h.tracks.inv.unique j i hne hi ?_
  rw [hip, h.accounts.room_eq (s.ledger.arp.table j).ipaddr r]
  rwa [h.tracks.shows.entry j hne]

/-- **What became of it in the rooms is what became of it.** -/
theorem RunOk.hasFate {R : Rooms IpAddr (Ref π) EthAddr} (h : RunOk s R)
    (hr : .admitted r ∈ s.ledger.log) {f : Rooms.Fate} (hf : Rooms.HasFate Ref.nextHop R r f) :
    s.HasFate r f := by
  have hlen := h.length_sentTo hr
  rw [← h.tracks.log] at hlen
  cases f with
  | waits =>
    obtain ⟨hw, hs, hrel⟩ := hf
    rw [hs] at hlen
    rw [h.tracks.log] at hrel
    exact ⟨h.waits hw, List.length_eq_zero_iff.1 hlen, hrel⟩
  | served =>
    obtain ⟨hno, hs, hrel, l, x, l', hlog, hopen⟩ := hf
    rw [hs] at hlen
    rw [h.tracks.log] at hrel hlog
    refine ⟨h.notQueued hno, hrel, l, x, l', hlog, hopen, ?_⟩
    obtain ⟨dest, hdest⟩ := List.length_eq_one_iff.1 hlen
    have hmem : x ∈ s.sentTo r := by
      refine (h.sentTo_perm hr).symm.subset (List.mem_filterMap.2 ⟨(r, x), ?_, if_pos rfl⟩)
      rw [servedPairs, List.mem_filterMap]
      refine ⟨.served r x, ?_, rfl⟩
      rw [hlog]
      exact List.mem_append_right _ (List.mem_cons_self ..)
    rw [hdest, List.mem_singleton] at hmem
    rw [hdest, hmem]
  | dismissed =>
    obtain ⟨hno, hs, hrel⟩ := hf
    rw [hs] at hlen
    rw [h.tracks.log] at hrel
    exact ⟨h.notQueued hno, List.length_eq_zero_iff.1 hlen, hrel⟩

/-- The fates exclude each other. -/
theorem HasFate.unique {f g : Rooms.Fate} (hf : s.HasFate r f) (hg : s.HasFate r g) : f = g := by
  have key : ∀ {f : Rooms.Fate}, s.HasFate r f →
      f = if s.ledger.log.count (.released r) = 0 then .waits
        else if s.sentTo r = [] then .dismissed else .served := by
    intro f hf
    cases f with
    | waits => rw [if_pos hf.2.2]
    | served =>
      obtain ⟨-, hrel, l, x, l', -, -, hsent⟩ := hf
      rw [if_neg (by rw [hrel]; decide), if_neg (by rw [hsent]; exact List.cons_ne_nil _ _)]
    | dismissed =>
      obtain ⟨-, hsent, hrel⟩ := hf
      rw [if_neg (by rw [hrel]; decide), if_pos hsent]
  exact (key hf).trans (key hg).symm

/-- **The queued packets that were sent to a next hop**, in the order in which they were sent, are those
that were sent from its queue, in this order. -/
theorem RunOk.queuedSent_eq {R : Rooms IpAddr (Ref π) EthAddr} (h : RunOk s R) (ip : IpAddr) :
    s.queuedSent ip = Rooms.servedAt Ref.nextHop ip s.ledger.log := by
  have hserved : ∀ l : List (Event IpAddr (Ref π) EthAddr),
      (∀ q x, .served q x ∈ l → .admitted q ∈ s.ledger.log) →
      (((servedPairs l).map Prod.fst).filter fun r ↦ r.nextHop = ip ∧ .admitted r ∈ s.ledger.log) =
        Rooms.servedAt Ref.nextHop ip l := by
    intro l hl
    induction l with
    | nil => rfl
    | cons e l ih =>
      have hcons : servedPairs (e :: l) = servedPairs [e] ++ servedPairs l :=
        servedPairs_append [e] l
      have hcons' : Rooms.servedAt Ref.nextHop ip (e :: l) = Rooms.servedAt Ref.nextHop ip [e] ++
          Rooms.servedAt Ref.nextHop ip l := List.filterMap_append (l := [e])
      rw [hcons, hcons', List.map_append, List.filter_append,
        ih fun q x hq ↦ hl q x (List.mem_cons_of_mem _ hq)]
      congr 1
      cases e with
      | served q x =>
        have hq := hl q x (List.mem_cons_self ..)
        by_cases hip : q.nextHop = ip <;> simp [servedPairs, Rooms.servedAt, hip, hq]
      | taken | admitted | opened | released => rfl
  have hadmitted : ∀ q x, .served q x ∈ s.ledger.log → .admitted q ∈ s.ledger.log := by
    intro q x hq
    rw [← h.tracks.log] at hq ⊢
    exact h.accounts.admitted_of_served hq
  have hdirect : ((s.ledger.direct.map Prod.fst).filter fun r ↦
      r.nextHop = ip ∧ .admitted r ∈ s.ledger.log) = [] := by
    rw [List.filter_eq_nil_iff]
    intro q hq
    obtain ⟨x, hx, rfl⟩ := List.mem_map.1 hq
    simpa using fun _ ↦ (h.direct x hx).2
  have hperm := (h.tracks.sent.perm.map Prod.fst).filter fun r ↦
    r.nextHop = ip ∧ .admitted r ∈ s.ledger.log
  rw [List.map_append, List.filter_append, hdirect, List.append_nil, hserved _ hadmitted] at hperm
  have hsub := (h.tracks.sent.order.map Prod.fst).filter fun r ↦
    r.nextHop = ip ∧ .admitted r ∈ s.ledger.log
  rw [hserved _ hadmitted] at hsub
  exact (hsub.eq_of_length hperm.length_eq.symm).symm

/-- **Queueing conserves packets**, in every run, whatever fails. A packet that was queued was accepted
and referenced once, and has exactly one fate; any other is in no queue and holds no reference, and if
it was accepted, it was sent at once. The queued packets for an address leave in the order in which they
were queued. -/
theorem queued_packets_conserved (queueing : Bool) (cs : List (RefCall π)) (s : RefRun π)
    (hrun : runLabels (step queueing) cs init = some s) :
    (∀ x ∈ s.results,
      (.admitted x.1 ∈ s.ledger.log ∧ x.2 = .ok ∧ s.ledger.log.count (.taken x.1) = 1 ∧
        ∃! f, s.HasFate x.1 f) ∨
      (.admitted x.1 ∉ s.ledger.log ∧ s.NotQueued x.1 ∧
        s.ledger.log.count (.taken x.1) = s.ledger.log.count (.released x.1) ∧
        (x.2 = .ok → s.sentTo x.1 ≠ []))) ∧
    ∀ ip, (s.queuedSent ip).Sublist (Rooms.admittedAt Ref.nextHop ip s.ledger.log) ∧
      (Rooms.admittedAt Ref.nextHop ip s.ledger.log).Nodup := by
  obtain ⟨R, h⟩ := run_ok hrun
  have hlog := h.tracks.log
  refine ⟨fun x hx ↦ ?_, fun ip ↦ ?_⟩
  · obtain ⟨-, hok, hsent⟩ := h.results x hx
    by_cases hadm : .admitted x.1 ∈ s.ledger.log
    · have hadm' : .admitted x.1 ∈ R.log := by rwa [hlog]
      have htaken := (h.accounts.count_of_admitted hadm').1
      rw [hlog] at htaken
      obtain ⟨f, hf, -⟩ := h.accounts.existsUnique_fate hadm'
      have hfate := h.hasFate hadm hf
      exact Or.inl ⟨hadm, hok hadm, htaken, f, hfate, fun g hg ↦ hg.unique hfate⟩
    · obtain ⟨hno, hbalance⟩ := h.accounts.balanced_of_not_admitted h.tracks.hand
        (r := x.1) (by rwa [hlog])
      rw [hlog] at hbalance
      refine Or.inr ⟨hadm, h.notQueued hno, hbalance, fun he hnil ↦ ?_⟩
      obtain ⟨dest, hdest⟩ := (hsent he).resolve_left hadm
      have hmem : (x.1, dest) ∈ ipFrames s.ledger.arp.sent :=
        h.tracks.sent.perm.symm.subset (List.mem_append_right _ hdest)
      have hto : dest ∈ s.sentTo x.1 := List.mem_filterMap.2 ⟨_, hmem, if_pos rfl⟩
      rw [hnil] at hto
      cases hto
  · rw [h.queuedSent_eq ip, ← hlog]
    exact ⟨h.accounts.served_sublist ip, h.accounts.nodup_admittedAt ip⟩

/-- Two packets for 10.0.0.3 are queued; a third finds no element for the queue; then 10.0.0.3 answers. -/
def exampleRefCalls : List (RefCall ℕ) :=
  [.output ⟨.ok, .ok, true, true, true⟩ Etharp.exampleNetif 7 [⟨false, 60, 60⟩] 0x0300000a,
    .output ⟨.ok, .ok, true, true, true⟩ Etharp.exampleNetif 8 [⟨false, 60, 60⟩] 0x0300000a,
    .query ⟨.ok, .ok, true, true, false⟩ Etharp.exampleNetif 0x0300000a (some (9, [⟨false, 60, 60⟩])),
    .arpInput Etharp.exampleNetif ⟨true, 0x0300000a, 0x0100000a, 0x020000000003, false⟩]

/-- Both are sent, in order; each of the three has the fate that it should have. -/
theorem queued_packets_conserved_reply :
    ∃ s : RefRun ℕ, runLabels (step true) exampleRefCalls init = some s ∧
      s.results.map Prod.snd = [.ok, .ok, .mem] ∧ (s.queuedSent 0x0300000a).map Ref.packet = [7, 8] ∧
      ∀ x ∈ s.results, (.admitted x.1 ∈ s.ledger.log ∧ ∃! f, s.HasFate x.1 f) ∨
        s.ledger.log.count (.taken x.1) = s.ledger.log.count (.released x.1) := by
  refine exists_run_of_observe
    (fun s ↦ (s.results.map Prod.snd, (s.queuedSent 0x0300000a).map Ref.packet))
    ([.ok, .ok, .mem], [7, 8]) (by decide) fun s hrun hobs ↦ ?_
  obtain ⟨hres, hsent⟩ := Prod.mk.inj hobs
  refine ⟨hres, hsent, fun x hx ↦ ?_⟩
  rcases (queued_packets_conserved true exampleRefCalls s hrun).1 x hx with
    ⟨hadm, -, -, hfate⟩ | ⟨-, -, hbalance, -⟩
  · exact Or.inl ⟨hadm, hfate⟩
  · exact Or.inr hbalance

end RefRun

end Lwip.Arp
