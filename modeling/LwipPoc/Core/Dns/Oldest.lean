import LwipPoc.Core.Dns.Lifetime
import Mathlib.Data.Finset.Max

/-!
# Which entry is used for a request

`dns_enqueue` looks for an unused entry, "or the oldest one". The age of an entry is the difference of two numbers of
eight bits, which is an `int` and so negative once `dns_seqno` has come round: then the entry is passed over. What the
entries' ages are is known from what has happened (`since`), and with no more than 255 requests after a completed one it can
be told from the numbers (`Numbered.age`). The right entry is used for some tables only
(`dnsEnqueue_right_iff`).
-/

namespace Lwip.Dns

/-- The entries that were taken for a request, the last one first. -/
def requests (log : List DnsEvent) : List ℕ :=
  (log.filterMap fun
    | .took i _ => some i
    | _ => none).reverse

namespace DnsClient

/-- How many requests there were after the one that an entry is for. -/
def since (s : DnsClient) (i : ℕ) : ℕ := (requests s.log).idxOf i

/-- A completed entry than which none was enqueued before. -/
def Oldest (s : DnsClient) (i : ℕ) : Prop :=
  (s.entry i).state = .done ∧ ∀ j, (s.entry j).state = .done → s.since j ≤ s.since i

/-- `dns_enqueue` uses an entry. -/
def Uses (s : DnsClient) (i : ℕ) : Prop :=
  ∀ name found, (s.dnsEnqueue name found).1 = .inprogress ∧ (s.dnsEnqueue name found).2.log = s.log ++ [.took i found]

/-- `dns_enqueue` returns `ERR_MEM`. -/
def Refuses (s : DnsClient) : Prop := ∀ name found, s.dnsEnqueue name found = (.mem, s)

/-- **What `dns_enqueue` is to do**: use an unused entry, or else the oldest completed one, and refuse a request only if all
entries are being asked for. -/
structure EnqueuesRight (s : DnsClient) : Prop where
  unused : (∃ i < s.dnsTable.length, (s.entry i).state = .unused) →
    ∃ i < s.dnsTable.length, (s.entry i).state = .unused ∧ s.Uses i
  oldest : (∀ i < s.dnsTable.length, (s.entry i).state ≠ .unused) → ∀ i, s.Oldest i → s.Uses i
  full : s.Refuses → ∀ i < s.dnsTable.length, (s.entry i).state = .new ∨ (s.entry i).state = .asking

/-- **When it does so**: there is an unused entry, or no completed one; or `dns_seqno` has not come round since the oldest
completed one; or it has come round since all of them, and the first entry is the oldest. -/
def FindsOldest (s : DnsClient) : Prop :=
  (∃ i < s.dnsTable.length, (s.entry i).state = .unused) ∨ (∀ i, (s.entry i).state ≠ .done) ∨
    (∃ i, s.Oldest i ∧ (s.entry i).seqno.toNat < s.dnsSeqno.toNat) ∨
    s.Oldest 0 ∧ ∀ i, (s.entry i).state = .done → s.dnsSeqno.toNat ≤ (s.entry i).seqno.toNat

end DnsClient

variable {s s' s₁ : DnsClient} {i j k n : ℕ} {e : DnsTableEntry}

namespace DnsClient

/-! ### What leaves the numbers alone -/

/-- No request is made, and no unused entry is used. -/
structure Quiet (s s' : DnsClient) : Prop where
  dnsSeqno : s'.dnsSeqno = s.dnsSeqno
  requests : requests s'.log = requests s.log
  seqno : ∀ i, (s'.entry i).seqno = (s.entry i).seqno
  unused : ∀ i, (s.entry i).state = .unused → (s'.entry i).state = .unused

theorem Quiet.refl (s : DnsClient) : Quiet s s := ⟨rfl, rfl, fun _ ↦ rfl, fun _ ↦ id⟩

theorem Quiet.trans (h : Quiet s s₁) (h' : Quiet s₁ s') : Quiet s s' :=
  ⟨h'.dnsSeqno.trans h.dnsSeqno, h'.requests.trans h.requests, fun i ↦ (h'.seqno i).trans (h.seqno i),
    fun i hi ↦ h'.unused i (h.unused i hi)⟩

/-- Only fields that do not matter here. -/
theorem Quiet.of_table (hseqno : s'.dnsSeqno = s.dnsSeqno) (hlog : s'.log = s.log) (htable : s'.dnsTable = s.dnsTable) :
    Quiet s s' := by
  have hentry : ∀ i, s'.entry i = s.entry i := fun i ↦ by rw [entry, entry, htable]
  exact ⟨hseqno, by rw [hlog], fun i ↦ by rw [hentry], fun i hi ↦ by rw [hentry, hi]⟩

theorem quiet_put (hseqno : e.seqno = (s.entry i).seqno) (hstate : (s.entry i).state = .unused → e.state = .unused) :
    Quiet s (s.put i e) := by
  refine ⟨rfl, rfl, put_agree DnsTableEntry.seqno hseqno, fun j hj ↦ ?_⟩
  rw [entry_put]
  split_ifs with hij
  · exact hstate (hij.1 ▸ hj)
  · exact hj

theorem requests_concat (log : List DnsEvent) (e : DnsEvent) : requests (log ++ [e]) =
    match e with
    | .took i _ => i :: requests log
    | _ => requests log := by
  rcases e with ⟨i, found⟩ | ⟨i, f, r⟩ | i <;> simp [requests]

theorem quiet_flush (s : DnsClient) (i : ℕ) : Quiet s (s.flush i) := by
  obtain ⟨hseqno, -, hentry, hunused⟩ := quiet_put (s := s) (i := i)
    (e := { s.entry i with state := .unused, found := none }) rfl fun _ ↦ rfl
  exact ⟨hseqno, requests_concat s.log (.freed i), hentry, hunused⟩

theorem quiet_call (s : DnsClient) (i : ℕ) (f : Found) (r : Option U32) (ctl : DnsCtl) : Quiet s (s.call i f r ctl) :=
  ⟨rfl, requests_concat s.log (.called i f r), fun _ ↦ rfl, fun _ ↦ id⟩

theorem quiet_dnsSend (s : DnsClient) (i : ℕ) : Quiet s (s.dnsSend i) := .of_table rfl rfl rfl

theorem dnsCheckEntry_quiet (s : DnsClient) (i : ℕ) : Quiet s (s.dnsCheckEntry i) := by
  rcases s.dnsCheckEntry_cases i with heq | ⟨e, hused, -, hseqno, hwhat⟩
  · rw [heq]
    exact .refl s
  · have hput : Quiet s (s.put i e) := quiet_put hseqno fun h ↦ absurd h hused
    rcases hwhat with heq | heq | ⟨-, heq⟩ | ⟨f, -, -, heq⟩ <;> rw [heq]
    · exact hput
    · exact hput.trans (quiet_dnsSend _ i)
    · exact hput.trans (quiet_flush _ i)
    · exact hput.trans (quiet_call _ i f none _)

theorem dnsCheckEntries_quiet (n j : ℕ) (s : DnsClient) : Quiet s (dnsCheckEntries n j s) := by
  induction n generalizing j s with
  | zero => exact .refl s
  | succ n ih =>
    rw [dnsCheckEntries]
    split_ifs
    · exact (dnsCheckEntry_quiet s j).trans (ih (j + 1) _)
    · exact dnsCheckEntry_quiet s j

theorem dnsRecv_quiet {msg behindName behind : List (BitVec 8)} (h : s.dnsRecv msg behindName behind = some s') :
    Quiet s s' := by
  obtain ⟨t, ⟨payload, rfl⟩, rfl | ⟨k, e, -, hasking, -, hseqno, hwhat⟩⟩ := dnsRecv_cases h
  · exact .of_table rfl rfl rfl
  set t : DnsClient := { s with payload := payload }
  have hquiet : Quiet s t := .of_table rfl rfl rfl
  have hput : Quiet s (t.put k e) := hquiet.trans (quiet_put hseqno fun hunused ↦ by cases hasking.symm.trans hunused)
  rcases hwhat with ⟨-, rfl | rfl⟩ | ⟨f, r, ctl, -, -, rfl⟩
  · exact hput
  · exact hput.trans (quiet_flush _ k)
  · exact hput.trans (quiet_call _ k f r ctl)

theorem ret_quiet (h : s.ret = some s') : Quiet s s' := by
  rw [ret] at h
  have hidle : Quiet s { s with ctl := .idle } := .of_table rfl rfl rfl
  rcases hctl : s.ctl with - | k | k | k <;> rw [hctl] at h <;> simp only [Option.some.injEq, reduceCtorEq] at h <;>
    subst h
  · exact hidle
  · exact hidle.trans (quiet_flush _ k)
  · exact (hidle.trans (quiet_flush _ k)).trans (dnsCheckEntries_quiet _ _ _)

theorem dnsSetserver_quiet (s : DnsClient) (numdns : ℕ) (dnsserver : Option U32) :
    Quiet s (s.dnsSetserver numdns dnsserver) := by
  rcases dnsserver with - | addr
  · exact .refl s
  · rw [dnsSetserver]
    split_ifs
    · exact .of_table rfl rfl rfl
    · exact .refl s

theorem dnsInit_quiet (s : DnsClient) (pcb : Bool) : Quiet s (s.dnsInit pcb) := by
  rw [dnsInit]
  split_ifs
  · exact .refl s
  · have hpcb : Quiet s { s with dnsPcb := true } := .of_table rfl rfl rfl
    exact hpcb.trans (dnsSetserver_quiet _ 0 (some dnsServerAddress))
  · exact .refl s

/-! ### What the numbers say -/

/-- **The invariant**: an entry that is used has the number of its request. -/
def Numbered (s : DnsClient) : Prop :=
  ∀ i, (s.entry i).state ≠ .unused → i ∈ requests s.log ∧ s.dnsSeqno = (s.entry i).seqno + BitVec.ofNat 8 (s.since i + 1)

theorem Numbered.quiet (h : s.Numbered) (hquiet : Quiet s s') : s'.Numbered := by
  intro i hi
  obtain ⟨hmem, hseqno⟩ := h i fun hunused ↦ hi (hquiet.unused i hunused)
  refine ⟨hquiet.requests ▸ hmem, ?_⟩
  rw [hquiet.dnsSeqno, hquiet.seqno, since, hquiet.requests]
  exact hseqno

theorem numbered_init (n : ℕ) : (init n).Numbered := by
  intro i hi
  have hlt := lt_of_state hi
  rw [entry, List.getD_eq_getElem?_getD, List.getElem?_eq_getElem hlt] at hi
  exact absurd (by simp [init, DnsTableEntry.zero]) hi

/-- A request has the next number. -/
theorem Numbered.dnsEnqueue (h : s.Numbered) (name : List (BitVec 8)) (found : Option Found) :
    (s.dnsEnqueue name found).2.Numbered := by
  rcases hslot : s.dnsSlot with - | k
  · rw [dnsEnqueue_none hslot]
    exact h
  obtain ⟨-, -, -, hlog, hseqno, hself, hentry⟩ := dnsEnqueue_some hslot name found
  have hrequests : requests (s.dnsEnqueue name found).2.log = k :: requests s.log := by rw [hlog, requests_concat]
  intro i hi
  rw [hrequests, hseqno, since, hrequests]
  rcases eq_or_ne i k with rfl | hne
  · refine ⟨List.mem_cons_self, ?_⟩
    rw [hself, List.idxOf_cons_self]
    rfl
  · rw [hentry i hne] at hi ⊢
    obtain ⟨hmem, hold⟩ := h i hi
    refine ⟨List.mem_cons_of_mem k hmem, ?_⟩
    rw [List.idxOf_cons_ne _ hne.symm, hold, since, BitVec.add_assoc]
    exact congrArg _ (BitVec.ofNat_add _ 1).symm

end DnsClient

open DnsClient

theorem dnsStep_numbered {l : DnsLabel} (h : s.Numbered) (hl : dnsStep l s = some s') : s'.Numbered := by
  rcases l with pcb | ⟨numdns, dnsserver⟩ | ⟨hostname, addr, found⟩ | ⟨msg, behindName, behind⟩ | - | -
  case init =>
    obtain rfl := Option.some.inj hl
    exact h.quiet (dnsInit_quiet s pcb)
  case setserver =>
    obtain rfl := Option.some.inj hl
    exact h.quiet (dnsSetserver_quiet s numdns dnsserver)
  case gethostbyname =>
    obtain rfl := Option.some.inj hl
    rw [dnsGethostbyname]
    dsimp only
    split_ifs
    · exact h
    · exact h.dnsEnqueue _ found
    · exact h
  case recv => exact h.quiet (dnsRecv_quiet (Option.ite_none_right_eq_some.1 hl).2)
  case tmr =>
    obtain ⟨-, hl⟩ := Option.ite_none_right_eq_some.1 hl
    obtain rfl := Option.some.inj hl
    rw [dnsTmr]
    split_ifs
    · exact h.quiet (dnsCheckEntries_quiet _ _ s)
    · exact h
  case ret => exact h.quiet (ret_quiet hl)

theorem run_numbered {ls : List DnsLabel} (h : runLabels dnsStep ls (.init n) = some s) : s.Numbered :=
  runLabels_invariant (I := Numbered) (numbered_init n) (fun _ _ _ hs hl ↦ dnsStep_numbered hs hl) h

/-! ### Ages -/

/-- With at most 255 requests since, a difference that is positive is the age. -/
theorem DnsClient.Numbered.age (h : s.Numbered) (hi : (s.entry i).state ≠ .unused) (hage : s.since i ≤ 255)
    (hlt : (s.entry i).seqno.toNat < s.dnsSeqno.toNat) :
    s.since i + 1 = s.dnsSeqno.toNat - (s.entry i).seqno.toNat := by
  have hnat := congrArg BitVec.toNat (h i hi).2
  rw [BitVec.toNat_add, BitVec.toNat_ofNat] at hnat
  have hbound := s.dnsSeqno.isLt
  omega

/-- No two entries have the same age. -/
theorem DnsClient.Numbered.eq_of_since (h : s.Numbered) (hi : (s.entry i).state ≠ .unused) (hsame : s.since i = s.since j) : i = j :=
  (List.idxOf_inj (h i hi).1).1 hsame

/-- There is an oldest completed entry, if there is any. -/
theorem exists_oldest (h : (s.entry i).state = .done) : ∃ j, s.Oldest j := by
  have hlt : ∀ j, (s.entry j).state = .done → j < s.dnsTable.length := fun j hj ↦ lt_of_state (by rw [hj]; decide)
  obtain ⟨j, hj, hmax⟩ := ((Finset.range s.dnsTable.length).filter fun j ↦ (s.entry j).state = .done).exists_max_image
    s.since ⟨i, by simpa [h] using hlt i h⟩
  obtain ⟨-, hdone⟩ := Finset.mem_filter.1 hj
  exact ⟨j, hdone, fun k hk ↦ hmax k (by simpa [hk] using hlt k hk)⟩

/-! ### The search -/

theorem searchEntries_fst_none (dnsSeqno : BitVec 8) {es : List DnsTableEntry} (i lseq lseqi : ℕ) :
    (searchEntries dnsSeqno es i lseq lseqi).1 = none ↔ ∀ e ∈ es, e.state ≠ .unused := by
  induction es generalizing i lseq lseqi with
  | nil => simp [searchEntries]
  | cons e es ih =>
    rw [searchEntries, List.forall_mem_cons]
    split_ifs with hunused hdone
    · simp [hunused]
    · rw [ih, and_iff_right hunused]
    · rw [ih, and_iff_right hunused]

/-- **The greatest difference**, of those that are not negative or zero. -/
theorem searchEntries_snd (dnsSeqno : BitVec 8) {es : List DnsTableEntry} (h : ∀ e ∈ es, e.state ≠ .unused)
    (i lseq lseqi : ℕ) :
    (searchEntries dnsSeqno es i lseq lseqi).2 = lseqi ∧
        (∀ e ∈ es, e.state = .done → dnsSeqno.toNat - e.seqno.toNat ≤ lseq) ∨
      ∃ k e, (searchEntries dnsSeqno es i lseq lseqi).2 = i + k ∧ es[k]? = some e ∧ e.state = .done ∧
        lseq < dnsSeqno.toNat - e.seqno.toNat ∧
        ∀ e' ∈ es, e'.state = .done → dnsSeqno.toNat - e'.seqno.toNat ≤ dnsSeqno.toNat - e.seqno.toNat := by
  induction es generalizing i lseq lseqi with
  | nil => exact .inl ⟨rfl, nofun⟩
  | cons e es ih =>
    obtain ⟨he, hes⟩ := List.forall_mem_cons.1 h
    rw [searchEntries, if_neg he]
    split_ifs with hmore
    · obtain ⟨hdone, hlt⟩ := hmore
      rcases ih hes (i + 1) (dnsSeqno.toNat - e.seqno.toNat) i with
        ⟨hres, hall⟩ | ⟨k, e', hres, hget, hdone', hlt', hall⟩
      · exact .inr ⟨0, e, hres, rfl, hdone, hlt, List.forall_mem_cons.2 ⟨fun _ ↦ le_rfl, hall⟩⟩
      · exact .inr ⟨k + 1, e', by rw [hres]; omega, hget, hdone', hlt.trans hlt',
          List.forall_mem_cons.2 ⟨fun _ ↦ hlt'.le, hall⟩⟩
    · have hle : e.state = .done → dnsSeqno.toNat - e.seqno.toNat ≤ lseq :=
        fun hdone ↦ Nat.le_of_not_lt fun hlt ↦ hmore ⟨hdone, hlt⟩
      rcases ih hes (i + 1) lseq lseqi with ⟨hres, hall⟩ | ⟨k, e', hres, hget, hdone', hlt', hall⟩
      · exact .inl ⟨hres, List.forall_mem_cons.2 ⟨hle, hall⟩⟩
      · exact .inr ⟨k + 1, e', by rw [hres]; omega, hget, hdone', hlt',
          List.forall_mem_cons.2 ⟨fun hdone ↦ (hle hdone).trans hlt'.le, hall⟩⟩

/-! ### The entry -/

theorem uses_iff : s.Uses i ↔ s.dnsSlot = some i := by
  refine ⟨fun h ↦ ?_, fun h name found ↦ ?_⟩
  · obtain ⟨hres, hlog⟩ := h [] none
    rcases hslot : s.dnsSlot with - | k
    · rw [dnsEnqueue_none hslot] at hres
      cases hres
    · obtain ⟨-, -, -, hlog', -⟩ := dnsEnqueue_some hslot [] none
      have hevent := List.append_cancel_left (hlog'.symm.trans hlog)
      obtain ⟨rfl, -⟩ := SlotEvent.took.inj (List.cons.inj hevent).1
      rfl
  · obtain ⟨hres, -, -, hlog, -⟩ := dnsEnqueue_some h name found
    exact ⟨hres, hlog⟩

theorem not_refuses (h : s.Uses i) : ¬s.Refuses := by
  intro hrefuses
  have hres := (h [] none).1
  rw [hrefuses] at hres
  cases hres

theorem entry_mem (h : i < s.dnsTable.length) : s.entry i ∈ s.dnsTable := by
  rw [entry, List.getD_eq_getElem?_getD, List.getElem?_eq_getElem h]
  exact List.getElem_mem h

/-- An unused entry is used, if there is one. -/
theorem dnsSlot_unused (hlt : i < s.dnsTable.length) (hunused : (s.entry i).state = .unused) :
    ∃ k < s.dnsTable.length, (s.entry k).state = .unused ∧ s.dnsSlot = some k := by
  rcases hsearch : (searchEntries s.dnsSeqno s.dnsTable 0 0 0).1 with - | k
  · exact absurd hunused ((searchEntries_fst_none _ _ _ _).1 hsearch _ (entry_mem hlt))
  · obtain ⟨e, hget, he, -⟩ := searchEntries_unused hsearch
    rw [Nat.sub_zero] at hget
    refine ⟨k, (List.getElem?_eq_some_iff.1 hget).1, ?_, ?_⟩
    · rw [entry, List.getD_eq_getElem?_getD, hget]
      exact he
    · rw [dnsSlot]
      rcases hpair : searchEntries s.dnsSeqno s.dnsTable 0 0 0 with ⟨o, lseqi⟩
      rw [hpair] at hsearch
      dsimp only at hsearch
      rw [hsearch]

/-- **Without an unused entry**, the completed one with the greatest difference is used; or the first one, if it is completed
and no difference is positive. -/
theorem dnsSlot_used (h : ∀ i < s.dnsTable.length, (s.entry i).state ≠ .unused) :
    (∀ i, (s.entry i).state = .done → s.dnsSeqno.toNat ≤ (s.entry i).seqno.toNat) ∧
        s.dnsSlot = (if (s.entry 0).state = .done then some 0 else none) ∨
      ∃ k, s.dnsSlot = some k ∧ (s.entry k).state = .done ∧ (s.entry k).seqno.toNat < s.dnsSeqno.toNat ∧
        ∀ i, (s.entry i).state = .done →
          s.dnsSeqno.toNat - (s.entry i).seqno.toNat ≤ s.dnsSeqno.toNat - (s.entry k).seqno.toNat := by
  have hall : ∀ e ∈ s.dnsTable, e.state ≠ .unused := by
    intro e he
    obtain ⟨i, hlt, rfl⟩ := List.getElem_of_mem he
    have hi := h i hlt
    rwa [entry, List.getD_eq_getElem?_getD, List.getElem?_eq_getElem hlt] at hi
  have hlt : ∀ i, (s.entry i).state = .done → i < s.dnsTable.length := fun i hi ↦ lt_of_state (by rw [hi]; decide)
  have hfst := (searchEntries_fst_none s.dnsSeqno 0 0 0).2 hall
  rw [dnsSlot]
  rcases hpair : searchEntries s.dnsSeqno s.dnsTable 0 0 0 with ⟨o, lseqi⟩
  have hsnd := searchEntries_snd s.dnsSeqno hall 0 0 0
  rw [hpair] at hfst hsnd
  obtain rfl : o = none := hfst
  dsimp only at hsnd ⊢
  rcases hsnd with ⟨rfl, hnone⟩ | ⟨k, e, rfl, hget, hdone, hpos, hmax⟩
  · refine .inl ⟨fun i hi ↦ ?_, ?_⟩
    · have hle := hnone _ (entry_mem (hlt i hi)) hi
      omega
    · rcases Decidable.em ((s.entry 0).state = .done) with hzero | hzero
      · rw [if_pos hzero, if_neg (by simpa [hzero] using Nat.ne_of_gt (hlt 0 hzero))]
      · rw [if_neg hzero, if_pos (.inr hzero)]
  · have hentry : s.entry k = e := by rw [entry, List.getD_eq_getElem?_getD, hget, Option.getD_some]
    subst hentry
    rw [Nat.zero_add]
    refine .inr ⟨k, ?_, hdone, by omega, fun i hi ↦ hmax _ (entry_mem (hlt i hi)) hi⟩
    rw [if_neg (by simpa [hdone] using hlt k hdone)]

/-- **`dns_enqueue` uses the right entry** exactly if the table is of one of these kinds. -/
theorem dnsEnqueue_right_iff {ls : List DnsLabel} (hrun : runLabels dnsStep ls (.init n) = some s)
    (hage : ∀ i, (s.entry i).state = .done → s.since i ≤ 255) : s.EnqueuesRight ↔ s.FindsOldest := by
  have hnumbered := run_numbered hrun
  have hused : ∀ i, (s.entry i).state = .done → (s.entry i).state ≠ .unused := fun i hi ↦ by rw [hi]; decide
  rcases Decidable.em (∃ i < s.dnsTable.length, (s.entry i).state = .unused) with hunused | hfull
  · -- there is an unused entry
    obtain ⟨i, hlt, hi⟩ := hunused
    obtain ⟨k, hk, hstate, hslot⟩ := dnsSlot_unused hlt hi
    refine iff_of_true ⟨fun _ ↦ ⟨k, hk, hstate, uses_iff.2 hslot⟩, fun hall ↦ absurd hi (hall i hlt), fun hrefuses ↦ ?_⟩
      (.inl ⟨i, hlt, hi⟩)
    exact absurd hrefuses (not_refuses (uses_iff.2 hslot))
  have hall : ∀ i < s.dnsTable.length, (s.entry i).state ≠ .unused := fun i hlt hi ↦ hfull ⟨i, hlt, hi⟩
  -- the oldest one is the only one to be used
  have hright : ∀ o, s.Oldest o → s.dnsSlot = some o → s.EnqueuesRight := by
    refine fun o ho hslot ↦ ⟨fun h ↦ absurd h hfull, fun _ i hi ↦ ?_, fun hrefuses ↦ ?_⟩
    · have hsame : o = i := hnumbered.eq_of_since (hused o ho.1) (le_antisymm (hi.2 o ho.1) (ho.2 i hi.1))
      exact uses_iff.2 (hsame ▸ hslot)
    · exact absurd hrefuses (not_refuses (uses_iff.2 hslot))
  refine ⟨fun h ↦ ?_, fun h ↦ ?_⟩
  · rcases em (∃ i, (s.entry i).state = .done) with ⟨i, hi⟩ | hnone
    · obtain ⟨o, ho⟩ := exists_oldest hi
      have hslot := uses_iff.1 (h.oldest hall o ho)
      rcases dnsSlot_used hall with ⟨hround, hfirst⟩ | ⟨k, hk, hdone, hlt, -⟩
      · rw [hfirst] at hslot
        obtain ⟨-, hzero⟩ := Option.ite_none_right_eq_some.1 hslot
        exact .inr (.inr (.inr ⟨Option.some.inj hzero ▸ ho, hround⟩))
      · obtain rfl := Option.some.inj (hk.symm.trans hslot)
        exact .inr (.inr (.inl ⟨k, ho, hlt⟩))
    · exact .inr (.inl fun i hi ↦ hnone ⟨i, hi⟩)
  · rcases h with hunused | hnone | ⟨o, ho, hlt⟩ | ⟨hzero, hround⟩
    · exact absurd hunused hfull
    · refine ⟨fun h ↦ absurd h hfull, fun _ i hi ↦ absurd hi.1 (hnone i), fun _ i hlt ↦ ?_⟩
      rcases hstate : (s.entry i).state with - | - | - | -
      · exact absurd hstate (hall i hlt)
      · exact .inl rfl
      · exact .inr rfl
      · exact absurd hstate (hnone i)
    · rcases dnsSlot_used hall with ⟨hround, -⟩ | ⟨k, hk, hdone, hklt, hmax⟩
      · exact absurd (hround o ho.1) (Nat.not_le.2 hlt)
      · -- the greatest difference is the greatest age
        have hage₁ := hnumbered.age (hused o ho.1) (hage o ho.1) hlt
        have hage₂ := hnumbered.age (hused k hdone) (hage k hdone) hklt
        have hle := hmax o ho.1
        have hge := ho.2 k hdone
        have hsame : k = o := hnumbered.eq_of_since (hused k hdone) (by omega)
        exact hright o ho (hsame ▸ hk)
    · rcases dnsSlot_used hall with ⟨-, hfirst⟩ | ⟨k, hk, hdone, hklt, -⟩
      · rw [if_pos hzero.1] at hfirst
        exact hright 0 hzero hfirst
      · exact absurd (hround k hdone) (Nat.not_le.2 hklt)

set_option maxRecDepth 4000 in
/-- Of two entries, the first is completed: it is used for the next request. -/
theorem dnsEnqueue_right_completed : ∃ s, runLabels dnsStep [.init true, .gethostbyname (some [0x61]) true none,
      .recv (answerMessage 9) [] [], .gethostbyname (some [0x62]) true none] (.init 2) = some s ∧ s.EnqueuesRight := by
  refine exists_run_of_observe (fun s ↦ decide (requests s.log = [1, 0] ∧ s.dnsTable.length = 2 ∧
    (s.entry 0).state = .done ∧ (s.entry 1).state = .asking ∧ (s.entry 0).seqno.toNat < s.dnsSeqno.toNat)) true
    (by decide) fun s hrun hobs ↦ ?_
  obtain ⟨hrequests, hlen, hzero, hone, hlt⟩ := of_decide_eq_true hobs
  have honly : ∀ i, (s.entry i).state = .done → i = 0 := by
    intro i hi
    have hi' : i < s.dnsTable.length := lt_of_state (by rw [hi]; decide)
    rcases i with - | - | i
    · rfl
    · cases hone.symm.trans hi
    · omega
  refine (dnsEnqueue_right_iff hrun fun i hi ↦ ?_).2 (.inr (.inr (.inl ⟨0, ⟨hzero, fun j hj ↦ ?_⟩, hlt⟩)))
  · rw [honly i hi, since, hrequests]
    decide
  · rw [honly j hj]

/-- A request for `"a"` that is refused at once. -/
def refusedRequest : List DnsLabel := [.gethostbyname (some [0x61]) true none, .recv (List.replicate 26 0) [] []]

/-- A response to `"b"`, which is in the second entry. -/
def secondAnswer : List (BitVec 8) :=
  [0, 1, 0x80, 0, 0, 1, 0, 1, 0, 0, 0, 0] ++ [1, 0x62, 0] ++ [0, 1, 0, 1] ++
    [0xc0, 12] ++ [0, 1, 0, 1, 0, 0, 0, 9, 0, 4] ++ [10, 0, 0, 1]

set_option maxRecDepth 16000 in
/-- **`dns_seqno` has come round**: of two entries, one is asked for and the other is completed, and a request is refused. -/
theorem run_refuses : ∃ s, runLabels dnsStep (.init true :: (List.replicate 254 refusedRequest).flatten ++
      [.gethostbyname (some [0x61]) true none, .gethostbyname (some [0x62]) true none, .recv secondAnswer [] []])
        (.init 2) = some s ∧
    s.since 1 = 0 ∧ (s.entry 1).state = .done ∧ s.Refuses ∧ ¬s.EnqueuesRight := by
  refine exists_run_of_observe (fun s ↦ decide (s.since 1 = 0 ∧ (s.entry 1).state = .done ∧ s.dnsSlot = none)) true
    (by decide) fun s _ hobs ↦ ?_
  obtain ⟨hsince, hdone, hslot⟩ := of_decide_eq_true hobs
  have hrefuses : s.Refuses := fun name found ↦ dnsEnqueue_none hslot name found
  refine ⟨hsince, hdone, hrefuses, fun hright ↦ ?_⟩
  rcases hright.full hrefuses 1 (lt_of_state (by rw [hdone]; decide)) with h | h
  · cases hdone.symm.trans h
  · cases hdone.symm.trans h

end Lwip.Dns
