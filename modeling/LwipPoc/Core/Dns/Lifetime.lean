import LwipPoc.Core.Dns.Requests

/-!
# How long an answer is kept

`dns_recv` stores the time to live of an answer, and `dns_check_entry` counts it down: "if the time to live is nul", the
entry is flushed. A time to live that **is** zero is counted down first, to 2 ^ 32 - 1 (`run_keeps_zero`). Any other one is
kept for so many calls of `dns_tmr`, at most (`run_expires`): a call goes over the entries in their order, and
where a callback is called it waits for its return, so that an entry behind it has its turn later.
-/

namespace Lwip.Dns

/-- The time to live in the first of so many answers that has an Internet address. -/
def answerTtl : ℕ → List (BitVec 8) → Option U32
  | 0, _ => none
  | nanswers + 1, p =>
    (dnsParseName p).bind fun p ↦
      (DnsAnswer.read p).bind fun ans ↦
        if ans.type = 1 ∧ ans.cls = 1 ∧ ans.len = 4 then some ans.ttl
        else answerTtl nanswers (p.drop (sizeofDnsAnswer + ans.len))

/-- The time to live in the answer of a message. -/
def messageTtl (payload : List (BitVec 8)) : Option U32 :=
  (u16At payload 6).bind fun nanswers ↦
    (dnsParseName (payload.drop sizeofDnsHdr)).bind fun p ↦ answerTtl nanswers (p.drop sizeofDnsQuery)

namespace DnsClient

/-- The entry whose address `dns_lookup` returns. -/
def lookupEntry (s : DnsClient) (name : List (BitVec 8)) : Option ℕ :=
  s.dnsTable.findIdx? fun e ↦ e.state = .done ∧ name = e.hostname

/-- **An entry is resolved**, by an answer with a time to live. -/
structure Resolves (s : DnsClient) (msg behindName behind : List (BitVec 8)) (i : ℕ) (t : U32) (s' : DnsClient) : Prop where
  step : dnsStep (.recv msg behindName behind) s = some s'
  size : ¬(dnsMsgSize < msg.length ∨ msg.length < sizeofDnsHdr + sizeofDnsQuery + sizeofDnsAnswer)
  id : u16At (msg ++ s.payload.drop msg.length) 0 = some i
  asking : (s.entry i).state = .asking
  answer : ∃ err r, dnsResponse ((s.entry i).name ++ behindName) (msg ++ s.payload.drop msg.length ++ behind) =
    some (err, some r)
  ttl : messageTtl (msg ++ s.payload.drop msg.length ++ behind) = some t

end DnsClient

/-- A call of `dns_tmr`. -/
def DnsLabel.isTmr : DnsLabel → Bool
  | .tmr => true
  | _ => false

/-- The calls of `dns_tmr` that have returned: in a callback of `dns_check_entry`, the last one has not. -/
def ticks (ls : List DnsLabel) (s : DnsClient) : ℕ :=
  ls.countP DnsLabel.isTmr - match s.ctl with
    | .expired _ => 1
    | _ => 0

variable {s s' s₁ s₂ : DnsClient} {i j k n v c : ℕ} {t : U32}

/-! ### The answer -/

theorem dnsAnswers_ttl {p : List (BitVec 8)} {r : U32 × U32} (h : dnsAnswers n p = some (some r)) (ht : answerTtl n p = some t) :
    r.1 = if dnsMaxTtl < t then dnsMaxTtl else t := by
  induction n generalizing p with
  | zero => cases ht
  | succ n ih =>
    obtain ⟨q, hq, h⟩ := Option.bind_eq_some_iff.1 h
    obtain ⟨ans, hans, h⟩ := Option.bind_eq_some_iff.1 h
    rw [answerTtl, hq, Option.bind_some, hans, Option.bind_some] at ht
    rcases Decidable.em (ans.type = 1 ∧ ans.cls = 1 ∧ ans.len = 4) with haddr | haddr
    · rw [if_pos haddr] at h ht
      obtain ⟨ipaddr, -, h⟩ := Option.map_eq_some_iff.1 h
      obtain rfl := Option.some.inj ht
      exact (congrArg Prod.fst (Option.some.inj h)).symm
    · rw [if_neg haddr] at h ht
      exact ih h ht

theorem dnsResponse_ttl {name payload : List (BitVec 8)} {err : BitVec 8} {r : U32 × U32}
    (h : dnsResponse name payload = some (err, some r)) (ht : messageTtl payload = some t) :
    r.1 = if dnsMaxTtl < t then dnsMaxTtl else t := by
  obtain ⟨_, _, h⟩ := Option.bind_eq_some_iff.1 h
  obtain ⟨_, _, h⟩ := Option.bind_eq_some_iff.1 h
  obtain ⟨_, _, h⟩ := Option.bind_eq_some_iff.1 h
  obtain ⟨nanswers, hanswers, h⟩ := Option.bind_eq_some_iff.1 h
  dsimp only at h
  split_ifs at h with hrefuse
  · cases h
  obtain ⟨differs, _, h⟩ := Option.bind_eq_some_iff.1 h
  split_ifs at h with hdiff
  · cases h
  obtain ⟨q, hq, h⟩ := Option.bind_eq_some_iff.1 h
  obtain ⟨a, ha, h⟩ := Option.map_eq_some_iff.1 h
  obtain ⟨-, rfl⟩ := Prod.mk.inj h
  rw [messageTtl, hanswers, Option.bind_some, hq, Option.bind_some] at ht
  exact dnsAnswers_ttl ha ht

theorem lookupEntry_state {name : List (BitVec 8)} (h : s.lookupEntry name = some i) : (s.entry i).state = .done := by
  obtain ⟨hlt, hfound, -⟩ := List.findIdx?_eq_some_iff_getElem.1 h
  rw [decide_eq_true_iff] at hfound
  rw [DnsClient.entry, List.getD_eq_getElem?_getD, List.getElem?_eq_getElem hlt]
  exact hfound.1

/-! ### What goes on as before -/

namespace DnsClient

/-- What no function undoes: the client is initialised, and what has happened has happened. -/
structure GoesOn (s s' : DnsClient) : Prop where
  dnsPcb : s.dnsPcb = true → s'.dnsPcb = true
  log : s.log <+: s'.log

theorem GoesOn.refl (s : DnsClient) : GoesOn s s := ⟨id, List.prefix_refl _⟩

theorem GoesOn.trans (h : GoesOn s s₁) (h' : GoesOn s₁ s') : GoesOn s s' := ⟨h'.dnsPcb ∘ h.dnsPcb, h.log.trans h'.log⟩

/-- The table does not matter. -/
theorem goesOn_put (s : DnsClient) (i : ℕ) (e : DnsTableEntry) : GoesOn s (s.put i e) := ⟨id, List.prefix_refl _⟩

theorem goesOn_note (s : DnsClient) (e : DnsEvent) : GoesOn s (s.note e) := ⟨id, List.prefix_append _ _⟩

theorem goesOn_flush (s : DnsClient) (i : ℕ) : GoesOn s (s.flush i) := (goesOn_put s i _).trans (goesOn_note _ _)

theorem goesOn_call (s : DnsClient) (i : ℕ) (f : Found) (r : Option U32) (ctl : DnsCtl) : GoesOn s (s.call i f r ctl) :=
  ⟨id, List.prefix_append _ _⟩

theorem goesOn_dnsSend (s : DnsClient) (i : ℕ) : GoesOn s (s.dnsSend i) := ⟨id, List.prefix_refl _⟩

/-- Only this entry changes, and only its callback can be called. -/
structure Checks (j : ℕ) (s s' : DnsClient) : Prop where
  goesOn : GoesOn s s'
  ctl : s'.ctl = s.ctl ∨ s'.ctl = .expired j
  entry : ∀ i ≠ j, s'.entry i = s.entry i

theorem checks_put (s : DnsClient) (j : ℕ) (e : DnsTableEntry) : Checks j s (s.put j e) :=
  ⟨goesOn_put s j e, .inl rfl, fun _ hi ↦ entry_put_of_ne e hi⟩

theorem checks_put_flush (s : DnsClient) (j : ℕ) (e : DnsTableEntry) : Checks j s ((s.put j e).flush j) := by
  refine ⟨(goesOn_put s j e).trans (goesOn_flush _ j), .inl rfl, fun i hi ↦ ?_⟩
  exact (entry_put_of_ne _ hi).trans (entry_put_of_ne e hi)

theorem checks_put_dnsSend (s : DnsClient) (j : ℕ) (e : DnsTableEntry) : Checks j s ((s.put j e).dnsSend j) :=
  ⟨(goesOn_put s j e).trans (goesOn_dnsSend _ j), .inl rfl, fun _ hi ↦ entry_put_of_ne e hi⟩

theorem checks_put_call (s : DnsClient) (j : ℕ) (e : DnsTableEntry) (f : Found) (r : Option U32) :
    Checks j s ((s.put j e).call j f r (.expired j)) :=
  ⟨(goesOn_put s j e).trans (goesOn_call _ j f r _), .inr rfl, fun _ hi ↦ entry_put_of_ne e hi⟩

theorem dnsCheckEntry_checks (j : ℕ) (s : DnsClient) : Checks j s (s.dnsCheckEntry j) := by
  rcases s.dnsCheckEntry_cases j with heq | ⟨e, -, -, -, heq | heq | ⟨-, heq⟩ | ⟨f, -, -, heq⟩⟩ <;> rw [heq]
  · exact ⟨.refl s, .inl rfl, fun _ _ ↦ rfl⟩
  · exact checks_put s j e
  · exact checks_put_dnsSend s j e
  · exact checks_put_flush s j e
  · exact checks_put_call s j e f none

theorem dnsCheckEntries_goesOn (n j : ℕ) (s : DnsClient) : GoesOn s (dnsCheckEntries n j s) := by
  induction n generalizing j s with
  | zero => exact .refl s
  | succ n ih =>
    have hfirst := (dnsCheckEntry_checks j s).goesOn
    rw [dnsCheckEntries]
    split_ifs
    · exact hfirst.trans (ih (j + 1) _)
    · exact hfirst

/-! ### An entry that is counted down -/

/-- **An entry that had `v` ticks left and has had `c` of them**, or is not used any more. -/
def Aged (v i c : ℕ) (s : DnsClient) : Prop :=
  (s.entry i).state = .unused ∨ (s.entry i).state = .done ∧ (s.entry i).ttl.toNat + c = v ∧ 1 ≤ (s.entry i).ttl.toNat

theorem Aged.of_entry (h : s.Aged v i c) (hentry : s'.entry i = s.entry i) : s'.Aged v i c := by
  rw [Aged, hentry]
  exact h

/-- The entry is checked: one tick more. -/
theorem Aged.checked (h : s.Aged v i c) : (s.dnsCheckEntry i).Aged v i (c + 1) ∧ (s.dnsCheckEntry i).ctl = s.ctl := by
  rw [dnsCheckEntry]
  rcases h with hunused | ⟨hdone, hsum, hpos⟩
  · rw [hunused]
    exact ⟨.inl hunused, rfl⟩
  · have hlt : i < s.dnsTable.length := lt_of_state (by rw [hdone]; decide)
    rw [hdone]
    dsimp only
    have hsub : ((s.entry i).ttl - 1).toNat = (s.entry i).ttl.toNat - 1 := by
      rw [BitVec.toNat_sub_of_le (by simpa [BitVec.le_def] using hpos)]
      rfl
    split_ifs with hzero
    · refine ⟨.inl ?_, rfl⟩
      exact congrArg DnsTableEntry.state (entry_put_self _ (by simpa [put] using hlt))
    · refine ⟨.inr ?_, rfl⟩
      rw [entry_put_self _ hlt]
      have hne : ((s.entry i).ttl - 1).toNat ≠ 0 := fun h ↦ hzero (BitVec.eq_of_toNat_eq h)
      rw [hsub] at hne
      refine ⟨rfl, ?_, ?_⟩
      · dsimp only
        omega
      · dsimp only
        omega

/-- An entry that is counted down is not asked for. -/
theorem Aged.not_asking (h : s.Aged v i c) : (s.entry i).state ≠ .asking := by
  rintro hasking
  rcases h with h | ⟨h, -⟩ <;> cases h.symm.trans hasking

/-- **Behind the entry** the loop leaves it alone. -/
theorem Aged.passed (h : s.Aged v i c) (hidle : s.ctl = .idle) (hij : i < j) (n : ℕ) :
    (dnsCheckEntries n j s).Aged v i c ∧ ∀ k, (dnsCheckEntries n j s).ctl = .expired k → i ≤ k := by
  induction n generalizing j s with
  | zero => exact ⟨h, fun k hk ↦ by cases hidle.symm.trans hk⟩
  | succ n ih =>
    obtain ⟨-, hctl, hentry⟩ := dnsCheckEntry_checks j s
    have hnext := h.of_entry (hentry i hij.ne)
    rw [dnsCheckEntries]
    split_ifs with hgo
    · exact ih hnext hgo (Nat.lt_succ_of_lt hij)
    · refine ⟨hnext, fun k hk ↦ ?_⟩
      rcases hctl with hctl | hctl
      · exact absurd (hctl.trans hidle) hgo
      · cases hctl.symm.trans hk
        exact hij.le

/-- **The loop comes to the entry**, unless a callback is called before. -/
theorem Aged.reached (h : s.Aged v i c) (hidle : s.ctl = .idle) (hji : j ≤ i) (hin : i < j + n) :
    (dnsCheckEntries n j s).Aged v i (c + 1) ∧ (∀ k, (dnsCheckEntries n j s).ctl = .expired k → i ≤ k) ∨
      (dnsCheckEntries n j s).Aged v i c ∧ ∃ k < i, (dnsCheckEntries n j s).ctl = .expired k := by
  induction n generalizing j s with
  | zero => exact absurd hji (Nat.not_le.2 hin)
  | succ n ih =>
    rw [dnsCheckEntries]
    rcases hji.eq_or_lt with rfl | hlt
    · obtain ⟨hchecked, hctl⟩ := h.checked
      rw [if_pos (hctl.trans hidle)]
      exact .inl (hchecked.passed (hctl.trans hidle) (Nat.lt_succ_self j) n)
    · obtain ⟨-, hctl, hentry⟩ := dnsCheckEntry_checks j s
      have hnext := h.of_entry (hentry i hlt.ne')
      split_ifs with hgo
      · exact ih hnext hgo hlt (by omega)
      · refine .inr ⟨hnext, j, hlt, ?_⟩
        rcases hctl with hctl | hctl
        · exact absurd (hctl.trans hidle) hgo
        · exact hctl

/-- An entry that is not used is left alone. -/
theorem dnsCheckEntries_unused (h : (s.entry i).state = .unused) (n j : ℕ) :
    ((dnsCheckEntries n j s).entry i).state = .unused := by
  induction n generalizing j s with
  | zero => exact h
  | succ n ih =>
    have hfirst : ((s.dnsCheckEntry j).entry i).state = .unused := by
      rcases eq_or_ne i j with rfl | hne
      · rw [dnsCheckEntry, h]
        exact h
      · rw [(dnsCheckEntry_checks j s).entry i hne, h]
    rw [dnsCheckEntries]
    split_ifs
    · exact ih hfirst (j + 1)
    · exact hfirst

/-! ### The other functions -/

/-- The servers do not matter. -/
theorem dnsSetserver_frame (s : DnsClient) (numdns : ℕ) (dnsserver : Option U32) :
    GoesOn s (s.dnsSetserver numdns dnsserver) ∧ (s.dnsSetserver numdns dnsserver).ctl = s.ctl ∧
      (s.dnsSetserver numdns dnsserver).dnsTable = s.dnsTable := by
  rcases dnsserver with - | addr
  · exact ⟨.refl s, rfl, rfl⟩
  · rw [dnsSetserver]
    split_ifs
    · exact ⟨⟨id, List.prefix_refl _⟩, rfl, rfl⟩
    · exact ⟨.refl s, rfl, rfl⟩

theorem dnsInit_frame (s : DnsClient) (pcb : Bool) :
    GoesOn s (s.dnsInit pcb) ∧ (s.dnsInit pcb).ctl = s.ctl ∧ (s.dnsInit pcb).dnsTable = s.dnsTable := by
  rw [dnsInit]
  split_ifs
  · exact ⟨.refl s, rfl, rfl⟩
  · obtain ⟨hgoes, hctl, htable⟩ := dnsSetserver_frame { s with dnsPcb := true } 0 (some dnsServerAddress)
    exact ⟨⟨fun _ ↦ hgoes.dnsPcb rfl, hgoes.log⟩, hctl, htable⟩
  · exact ⟨.refl s, rfl, rfl⟩

/-- **A request takes an entry**, and it is asked for. -/
theorem dnsEnqueue_some (h : s.dnsSlot = some k) (name : List (BitVec 8)) (found : Option Found) :
    (s.dnsEnqueue name found).1 = .inprogress ∧ (s.dnsEnqueue name found).2.dnsPcb = s.dnsPcb ∧
      (s.dnsEnqueue name found).2.ctl = s.ctl ∧ (s.dnsEnqueue name found).2.log = s.log ++ [.took k found] ∧
      (s.dnsEnqueue name found).2.dnsSeqno = s.dnsSeqno + 1 ∧
      ((s.dnsEnqueue name found).2.entry k).seqno = s.dnsSeqno ∧
      ∀ i ≠ k, (s.dnsEnqueue name found).2.entry i = s.entry i := by
  rw [dnsEnqueue, h]
  dsimp only
  set e : DnsTableEntry :=
    { s.entry k with
      state := .new
      seqno := s.dnsSeqno
      found := found
      name := name.take (min name.length (dnsMaxNameLength - 1)) ++
        0 :: (s.entry k).name.drop (min name.length (dnsMaxNameLength - 1) + 1) }
  set u := ({ s with dnsSeqno := s.dnsSeqno + 1 }.put k e).note (.took k found) with hu
  have hlt : k < s.dnsTable.length := (dnsSlot_spec h).1
  have hself : u.entry k = e := entry_put_self (s := { s with dnsSeqno := s.dnsSeqno + 1 }) e hlt
  have hsent : u.dnsCheckEntry k =
      (u.put k { u.entry k with state := .asking, numdns := 0, tmr := 1, retries := 0 }).dnsSend k := by
    rw [dnsCheckEntry, hself]
  have hlt' : k < u.dnsTable.length := by
    rw [hu]
    exact hlt.trans_eq List.length_set.symm
  rw [hsent]
  refine ⟨rfl, rfl, rfl, rfl, rfl, ?_, fun i hne ↦ ?_⟩
  · refine (congrArg DnsTableEntry.seqno (entry_put_self _ hlt')).trans ?_
    rw [hself]
  · have hfirst : u.entry i = s.entry i := entry_put_of_ne (s := { s with dnsSeqno := s.dnsSeqno + 1 }) e hne
    exact (entry_put_of_ne _ hne).trans hfirst

theorem dnsEnqueue_none (h : s.dnsSlot = none) (name : List (BitVec 8)) (found : Option Found) :
    s.dnsEnqueue name found = (.mem, s) := by
  rw [dnsEnqueue, h]

/-- A request changes the entry that it takes, and no other. -/
theorem dnsEnqueue_frame (s : DnsClient) (name : List (BitVec 8)) (found : Option Found) :
    GoesOn s (s.dnsEnqueue name found).2 ∧ (s.dnsEnqueue name found).2.ctl = s.ctl ∧
      ∀ i, (s.dnsEnqueue name found).2.entry i = s.entry i ∨
        (s.dnsEnqueue name found).2.log = s.log ++ [.took i found] := by
  rcases hslot : s.dnsSlot with - | k
  · rw [dnsEnqueue_none hslot]
    exact ⟨.refl s, rfl, fun _ ↦ .inl rfl⟩
  · obtain ⟨-, hpcb, hctl, hlog, -, -, hentry⟩ := dnsEnqueue_some hslot name found
    refine ⟨⟨fun h ↦ hpcb.trans h, hlog ▸ List.prefix_append _ _⟩, hctl, fun i ↦ ?_⟩
    rcases eq_or_ne i k with rfl | hne
    · exact .inr hlog
    · exact .inl (hentry i hne)

theorem dnsGethostbyname_frame (s : DnsClient) (hostname : Option (List (BitVec 8))) (addr : Bool) (found : Option Found) :
    GoesOn s (s.dnsGethostbyname hostname addr found).2.2 ∧ (s.dnsGethostbyname hostname addr found).2.2.ctl = s.ctl ∧
      ∀ i, (s.dnsGethostbyname hostname addr found).2.2.entry i = s.entry i ∨
        (s.dnsGethostbyname hostname addr found).2.2.log = s.log ++ [.took i found] := by
  rw [dnsGethostbyname]
  dsimp only
  split_ifs
  · exact ⟨.refl s, rfl, fun _ ↦ .inl rfl⟩
  · exact dnsEnqueue_frame s _ found
  · exact ⟨.refl s, rfl, fun _ ↦ .inl rfl⟩

/-- A message changes an entry that is asked for, and no callback of `dns_check_entry` is called. -/
theorem dnsRecv_frame {msg behindName behind : List (BitVec 8)} (hidle : s.ctl = .idle)
    (h : s.dnsRecv msg behindName behind = some s') :
    GoesOn s s' ∧ (∀ k, s'.ctl ≠ .expired k) ∧ ∀ i, (s.entry i).state ≠ .asking → s'.entry i = s.entry i := by
  have hnone : ∀ k, s.ctl ≠ .expired k := fun k hk ↦ by cases hidle.symm.trans hk
  obtain ⟨t, ⟨payload, rfl⟩, rfl | ⟨k, e, -, hasking, -, -, hwhat⟩⟩ := dnsRecv_cases h
  · exact ⟨⟨id, List.prefix_refl _⟩, hnone, fun _ _ ↦ rfl⟩
  set t : DnsClient := { s with payload := payload }
  have hput : GoesOn s (t.put k e) := ⟨id, List.prefix_refl _⟩
  have hother : ∀ i, (s.entry i).state ≠ .asking → i ≠ k := by
    rintro i hi rfl
    exact hi hasking
  have hkeep : ∀ i, (s.entry i).state ≠ .asking → (t.put k e).entry i = s.entry i :=
    fun i hi ↦ entry_put_of_ne e (hother i hi)
  rcases hwhat with ⟨-, rfl | rfl⟩ | ⟨f, r, ctl, -, hctl, rfl⟩
  · exact ⟨hput, hnone, hkeep⟩
  · refine ⟨hput.trans (goesOn_flush _ k), hnone, fun i hi ↦ ?_⟩
    exact (entry_put_of_ne _ (hother i hi)).trans (hkeep i hi)
  · refine ⟨hput.trans (goesOn_call _ k f r ctl), fun j hj ↦ ?_, hkeep⟩
    rcases hctl with rfl | rfl <;> cases hj

/-- **An entry that is resolved** has the time to live of the answer, or the greatest one. -/
theorem Resolves.ttl_eq {msg behindName behind : List (BitVec 8)} (h : s.Resolves msg behindName behind i t s₁) :
    s₁.dnsPcb = true ∧ (∀ k, s₁.ctl ≠ .expired k) ∧ (s₁.entry i).state = .done ∧
      (s₁.entry i).ttl = if dnsMaxTtl < t then dnsMaxTtl else t := by
  obtain ⟨hstep, hsize, hid, hasking, ⟨err, ⟨ttl, ipaddr⟩, hanswer⟩, httl⟩ := h
  obtain ⟨⟨hpcb, hidle⟩, hrecv⟩ := Option.ite_none_right_eq_some.1 hstep
  obtain ⟨hgoes, hctl, -⟩ := dnsRecv_frame hidle hrecv
  refine ⟨hgoes.dnsPcb hpcb, hctl, ?_⟩
  have hlt : i < s.dnsTable.length := lt_of_state (by rw [hasking]; decide)
  rw [dnsRecv, if_neg hsize] at hrecv
  set u : DnsClient := { s with payload := msg ++ s.payload.drop msg.length } with hu
  dsimp only at hrecv
  have hasking' : i < u.dnsTable.length ∧ (u.entry i).state = .asking := ⟨hlt, hasking⟩
  rw [show u.payload = msg ++ s.payload.drop msg.length from rfl, hid, Option.bind_some, if_pos hasking',
    show u.entry i = s.entry i from rfl, hanswer, Option.map_some, Option.some.injEq] at hrecv
  rw [← dnsResponse_ttl hanswer httl]
  have hput : ∀ e, (u.put i e).entry i = e := fun e ↦ entry_put_self e hlt
  rcases hfound : (s.entry i).found with - | f <;> simp only [hfound] at hrecv <;> subst hrecv
  · exact ⟨congrArg DnsTableEntry.state (hput _), congrArg DnsTableEntry.ttl (hput _)⟩
  · exact ⟨congrArg DnsTableEntry.state (hput _), congrArg DnsTableEntry.ttl (hput _)⟩

theorem flush_self (s : DnsClient) (i : ℕ) : ((s.flush i).entry i).state = .unused := by
  by_contra hused
  have hlt : i < s.dnsTable.length := by simpa [flush, note, put] using lt_of_state hused
  exact hused (congrArg DnsTableEntry.state (entry_put_self _ hlt))

theorem flush_unused (h : (s.entry i).state = .unused) : (({ s with ctl := .idle }.flush k).entry i).state = .unused := by
  rcases eq_or_ne i k with rfl | hne
  · exact flush_self _ i
  · exact (congrArg DnsTableEntry.state (entry_put_of_ne _ hne)).trans h

/-! ### Whole runs -/

/-- The entry has been used for another request since. -/
def Taken (s₁ : DnsClient) (i : ℕ) (s : DnsClient) : Prop := ∃ found, .took i found ∈ s.log.drop s₁.log.length

/-- **The invariant**: the entry has had all the ticks but the one in which the loop has not come to it. -/
structure Counted (s₁ : DnsClient) (v i n : ℕ) (s : DnsClient) : Prop where
  dnsPcb : s.dnsPcb = true
  log : s₁.log <+: s.log
  aged : Taken s₁ i s ∨ (s.entry i).state = .unused ∨ s.Aged v i n ∧ (∀ k, s.ctl = .expired k → i ≤ k) ∨
    ∃ c, c + 1 = n ∧ s.Aged v i c ∧ ∃ k < i, s.ctl = .expired k

theorem Taken.goesOn (h : Taken s₁ i s) (hgoes : GoesOn s s') : Taken s₁ i s' := by
  obtain ⟨found, hmem⟩ := h
  exact ⟨found, (hgoes.log.drop _).subset hmem⟩

/-- What leaves the entry alone, and the callback. -/
theorem Counted.keep (h : Counted s₁ v i n s) (hgoes : GoesOn s s') (hctl : s'.ctl = s.ctl)
    (hentry : s'.entry i = s.entry i ∨ Taken s₁ i s') : Counted s₁ v i n s' := by
  refine ⟨hgoes.dnsPcb h.dnsPcb, h.log.trans hgoes.log, ?_⟩
  rcases hentry with hentry | htaken
  · rw [hentry, hctl]
    rcases h.aged with htaken | hunused | ⟨haged, hpass⟩ | ⟨c, hc, haged, hpass⟩
    · exact .inl (htaken.goesOn hgoes)
    · exact .inr (.inl hunused)
    · exact .inr (.inr (.inl ⟨haged.of_entry hentry, hpass⟩))
    · exact .inr (.inr (.inr ⟨c, hc, haged.of_entry hentry, hpass⟩))
  · exact .inl htaken

/-- The loop goes on from entry `j`, in the same call. -/
theorem Counted.loop (hpcb : s.dnsPcb = true) (hlog : s₁.log <+: s.log) (hidle : s.ctl = .idle) (j : ℕ)
    (haged : Taken s₁ i s ∨ (s.entry i).state = .unused ∨ i < j ∧ s.Aged v i n ∨ j ≤ i ∧ ∃ c, c + 1 = n ∧ s.Aged v i c) :
    Counted s₁ v i n (dnsCheckEntries (s.dnsTable.length - j) j s) := by
  have hgoes := dnsCheckEntries_goesOn (s.dnsTable.length - j) j s
  refine ⟨hgoes.dnsPcb hpcb, hlog.trans hgoes.log, ?_⟩
  rcases haged with htaken | hunused | ⟨hij, haged⟩ | ⟨hji, c, hc, haged⟩
  · exact .inl (htaken.goesOn hgoes)
  · exact .inr (.inl (dnsCheckEntries_unused hunused _ j))
  · exact .inr (.inr (.inl (haged.passed hidle hij _)))
  · rcases Decidable.em ((s.entry i).state = .unused) with hunused | hused
    · exact .inr (.inl (dnsCheckEntries_unused hunused _ j))
    · have hlt := lt_of_state hused
      rcases haged.reached hidle hji (n := s.dnsTable.length - j) (by omega) with ⟨h, hpass⟩ | ⟨h, hpass⟩
      · exact .inr (.inr (.inl ⟨hc ▸ h, hpass⟩))
      · exact .inr (.inr (.inr ⟨c, hc, h, hpass⟩))

end DnsClient

open DnsClient

/-- **One step** counts what it is to count. -/
theorem dnsStep_counted {l : DnsLabel} (h : Counted s₁ v i n s) (hl : dnsStep l s = some s') :
    Counted s₁ v i (n + if l.isTmr then 1 else 0) s' := by
  -- outside a callback of the timer, the entry has had all its ticks
  have hall : (∀ k, s.ctl ≠ .expired k) → Taken s₁ i s ∨ (s.entry i).state = .unused ∨ s.Aged v i n := by
    intro hnot
    rcases h.aged with htaken | hunused | ⟨haged, -⟩ | ⟨-, -, -, k, -, hk⟩
    · exact .inl htaken
    · exact .inr (.inl hunused)
    · exact .inr (.inr haged)
    · exact absurd hk (hnot k)
  have hidleAll : s.ctl = .idle → Taken s₁ i s ∨ (s.entry i).state = .unused ∨ s.Aged v i n :=
    fun hidle ↦ hall fun k hk ↦ DnsCtl.noConfusion (hidle.symm.trans hk)
  rcases l with pcb | ⟨numdns, dnsserver⟩ | ⟨hostname, addr, found⟩ | ⟨msg, behindName, behind⟩ | - | -
  case init =>
    obtain rfl := Option.some.inj hl
    obtain ⟨hgoes, hctl, htable⟩ := dnsInit_frame s pcb
    exact h.keep hgoes hctl (.inl (by rw [entry, entry, htable]))
  case setserver =>
    obtain rfl := Option.some.inj hl
    obtain ⟨hgoes, hctl, htable⟩ := dnsSetserver_frame s numdns dnsserver
    exact h.keep hgoes hctl (.inl (by rw [entry, entry, htable]))
  case gethostbyname =>
    obtain rfl := Option.some.inj hl
    obtain ⟨hgoes, hctl, hentry⟩ := dnsGethostbyname_frame s hostname addr found
    refine h.keep hgoes hctl ((hentry i).imp id fun hlog ↦ ⟨found, ?_⟩)
    rw [hlog, List.drop_append_of_le_length h.log.length_le]
    exact List.mem_append_right _ List.mem_cons_self
  case recv =>
    obtain ⟨⟨-, hidle⟩, hrecv⟩ := Option.ite_none_right_eq_some.1 hl
    obtain ⟨hgoes, hctl, hentry⟩ := dnsRecv_frame hidle hrecv
    refine ⟨hgoes.dnsPcb h.dnsPcb, h.log.trans hgoes.log, ?_⟩
    rcases hidleAll hidle with htaken | hunused | haged
    · exact .inl (htaken.goesOn hgoes)
    · refine .inr (.inl ?_)
      rw [hentry i (by rw [hunused]; decide), hunused]
    · exact .inr (.inr (.inl ⟨haged.of_entry (hentry i haged.not_asking), fun k hk ↦ absurd hk (hctl k)⟩))
  case tmr =>
    obtain ⟨hidle, hl⟩ := Option.ite_none_right_eq_some.1 hl
    obtain rfl := Option.some.inj hl
    rw [dnsTmr, if_pos h.dnsPcb]
    have hloop := Counted.loop (v := v) (i := i) (n := n + 1) h.dnsPcb h.log hidle 0 ?_
    · exact hloop
    rcases hidleAll hidle with htaken | hunused | haged
    · exact .inl htaken
    · exact .inr (.inl hunused)
    · exact .inr (.inr (.inr ⟨Nat.zero_le i, n, rfl, haged⟩))
  case ret =>
    replace hl : s.ret = some s' := hl
    rw [ret] at hl
    rcases hctl : s.ctl with - | k | k | k <;> rw [hctl] at hl <;> simp only [Option.some.injEq, reduceCtorEq] at hl
    · -- from `found` with an address
      subst hl
      have hgoes : GoesOn s { s with ctl := .idle } := ⟨id, List.prefix_refl _⟩
      refine ⟨h.dnsPcb, h.log, ?_⟩
      rcases hall (by simp [hctl]) with htaken | hunused | haged
      · exact .inl htaken
      · exact .inr (.inl hunused)
      · exact .inr (.inr (.inl ⟨haged.of_entry rfl, fun j hj ↦ DnsCtl.noConfusion hj⟩))
    · -- an entry that is refused is flushed
      subst hl
      have hgoes : GoesOn s ({ s with ctl := .idle }.flush k) := ⟨id, List.prefix_append _ _⟩
      refine ⟨h.dnsPcb, h.log.trans hgoes.log, ?_⟩
      rcases hall (by simp [hctl]) with htaken | hunused | haged
      · exact .inl (htaken.goesOn hgoes)
      · exact .inr (.inl (flush_unused hunused))
      · rcases eq_or_ne i k with rfl | hne
        · exact .inr (.inl (flush_self _ i))
        · exact .inr (.inr (.inl ⟨haged.of_entry (entry_put_of_ne _ hne), fun j hj ↦ DnsCtl.noConfusion hj⟩))
    · -- the loop goes on behind an entry that has expired
      subst hl
      set w := { s with ctl := .idle }.flush k with hw
      have hgoes : GoesOn s w := ⟨id, List.prefix_append _ _⟩
      have hlen : w.dnsTable.length = s.dnsTable.length := List.length_set
      rw [← hlen]
      refine Counted.loop (hgoes.dnsPcb h.dnsPcb) (h.log.trans hgoes.log) rfl (k + 1) ?_
      rcases h.aged with htaken | hunused | ⟨haged, hpass⟩ | ⟨c, hc, haged, j, hj, hjctl⟩
      · exact .inl (htaken.goesOn hgoes)
      · exact .inr (.inl (flush_unused hunused))
      · rcases eq_or_ne i k with rfl | hne
        · exact .inr (.inl (flush_self _ i))
        · exact .inr (.inr (.inl ⟨Nat.lt_succ_of_le (hpass k hctl), haged.of_entry (entry_put_of_ne _ hne)⟩))
      · cases hctl.symm.trans hjctl
        exact .inr (.inr (.inr ⟨hj, c, hc, haged.of_entry (entry_put_of_ne _ hj.ne')⟩))

theorem run_counted {ls : List DnsLabel} (h : Counted s₁ v i 0 s₁) (hrun : runLabels dnsStep ls s₁ = some s₂) :
    Counted s₁ v i (ls.countP DnsLabel.isTmr) s₂ := by
  refine runLabels_induction (I := fun ls s ↦ Counted s₁ v i (ls.countP DnsLabel.isTmr) s) h (fun ls l s s' _ hs hl ↦ ?_)
    hrun
  rw [List.countP_append, List.countP_singleton]
  exact dnsStep_counted hs hl

/-- **An answer is not returned any more** after so many calls of `dns_tmr`, if its time to live is not zero: then its
entry is not used, or it is another request's. -/
theorem run_expires {msg behindName behind : List (BitVec 8)} {ls : List DnsLabel}
    (h : s.Resolves msg behindName behind i t s₁) (ht : t ≠ 0) (hrun : runLabels dnsStep ls s₁ = some s₂)
    (hticks : max 1 (min t.toNat dnsMaxTtl.toNat) ≤ ticks ls s₂) :
    Taken s₁ i s₂ ∨ ∀ name, s₂.lookupEntry name ≠ some i := by
  obtain ⟨hpcb, hctl, hdone, httl⟩ := h.ttl_eq
  have hv : (s₁.entry i).ttl.toNat = min t.toNat dnsMaxTtl.toNat := by
    rw [httl]
    split_ifs with hlt
    · exact (min_eq_right (BitVec.lt_def.1 hlt).le).symm
    · exact (min_eq_left (Nat.le_of_not_lt fun h ↦ hlt (BitVec.lt_def.2 h))).symm
  have hpos : 1 ≤ (s₁.entry i).ttl.toNat := by
    have hne : t.toNat ≠ 0 := fun h ↦ ht (BitVec.eq_of_toNat_eq h)
    have hmax : dnsMaxTtl.toNat = 604800 := rfl
    omega
  have hstart : Counted s₁ (s₁.entry i).ttl.toNat i 0 s₁ :=
    ⟨hpcb, List.prefix_refl _, .inr (.inr (.inl ⟨.inr ⟨hdone, rfl, hpos⟩, fun k hk ↦ absurd hk (hctl k)⟩))⟩
  have hdead : ∀ c, (s₁.entry i).ttl.toNat ≤ c → s₂.Aged (s₁.entry i).ttl.toNat i c → (s₂.entry i).state = .unused := by
    rintro c hc (hunused | ⟨-, hsum, hleft⟩)
    · exact hunused
    · omega
  rw [← hv] at hticks
  rw [ticks] at hticks
  have hunused : Taken s₁ i s₂ ∨ (s₂.entry i).state = .unused := by
    rcases (run_counted hstart hrun).aged with htaken | hunused | ⟨haged, -⟩ | ⟨c, hc, haged, k, -, hk⟩
    · exact .inl htaken
    · exact .inr hunused
    · exact .inr (hdead _ (by omega) haged)
    · rw [hk] at hticks
      dsimp only at hticks
      exact .inr (hdead c (by omega) haged)
  refine hunused.imp id fun hunused name hname ↦ ?_
  cases hunused.symm.trans (lookupEntry_state hname)

/-! ### Two answers -/

/-- A response to `"a"` with an address and a time to live. -/
def answerMessage (ttl : BitVec 8) : List (BitVec 8) :=
  [0, 0, 0x80, 0, 0, 1, 0, 1, 0, 0, 0, 0] ++ [1, 0x61, 0] ++ [0, 1, 0, 1] ++
    [0xc0, 12] ++ [0, 1, 0, 1, 0, 0, 0, ttl, 0, 4] ++ [10, 0, 0, 1]

/-- The memory that `dns_recv` reads for it. -/
def answerPayload (ttl : BitVec 8) (s : DnsClient) : List (BitVec 8) :=
  answerMessage ttl ++ s.payload.drop (answerMessage ttl).length

/-- What is to be evaluated for an answer. -/
def AnswerTest (ttl : BitVec 8) (t : U32) (s : DnsClient) : Prop :=
  u16At (answerPayload ttl s) 0 = some 0 ∧ (s.entry 0).state = .asking ∧
    dnsResponse ((s.entry 0).name ++ []) (answerPayload ttl s ++ []) = some (0, some (t, 0x0100000a)) ∧
    messageTtl (answerPayload ttl s ++ []) = some t

instance (ttl : BitVec 8) (t : U32) (s : DnsClient) : Decidable (AnswerTest ttl t s) :=
  inferInstanceAs (Decidable (_ ∧ _ ∧ _ ∧ _))

theorem AnswerTest.resolves {ttl : BitVec 8} (h : AnswerTest ttl t s)
    (hstep : dnsStep (.recv (answerMessage ttl) [] []) s = some s₁) : s.Resolves (answerMessage ttl) [] [] 0 t s₁ := by
  obtain ⟨hid, hasking, hanswer, httl⟩ := h
  exact ⟨hstep, by simp [answerMessage, dnsMsgSize, sizeofDnsHdr, sizeofDnsQuery, sizeofDnsAnswer], hid, hasking,
    ⟨0, _, hanswer⟩, httl⟩

set_option maxRecDepth 4000 in
/-- An answer with a time to live of 2 is gone after two ticks. -/
theorem run_expires_two : ∃ s, runLabels dnsStep [.init true, .gethostbyname (some [0x61]) true none] (.init 1) = some s ∧
    ∃ s₁ s₂, s.Resolves (answerMessage 2) [] [] 0 2 s₁ ∧ runLabels dnsStep [.tmr, .tmr] s₁ = some s₂ ∧
      (Taken s₁ 0 s₂ ∨ ∀ name, s₂.lookupEntry name ≠ some 0) := by
  refine exists_run_of_observe
    (fun s ↦ (decide (AnswerTest 2 2 s), (dnsStep (.recv (answerMessage 2) [] []) s).bind fun s₁ ↦
      (runLabels dnsStep [.tmr, .tmr] s₁).map fun s₂ ↦ ticks [.tmr, .tmr] s₂))
    (true, some 2) (by decide) fun s _ hobs ↦ ?_
  obtain ⟨htest, hrun⟩ := Prod.mk.inj hobs
  obtain ⟨s₁, hs₁, hrun⟩ := Option.bind_eq_some_iff.1 hrun
  obtain ⟨s₂, hs₂, hticks⟩ := Option.map_eq_some_iff.1 hrun
  have hres := (of_decide_eq_true htest).resolves hs₁
  exact ⟨s₁, s₂, hres, hs₂, run_expires hres (by decide) hs₂ (by rw [hticks]; decide)⟩

set_option maxRecDepth 4000 in
/-- **An answer with a time to live of 0 is still returned** after the next tick, and its entry has 2 ^ 32 - 1 ticks left. -/
theorem run_keeps_zero : ∃ s, runLabels dnsStep [.init true, .gethostbyname (some [0x61]) true none] (.init 1) = some s ∧
    ∃ s₁ s₂, s.Resolves (answerMessage 0) [] [] 0 0 s₁ ∧ runLabels dnsStep [.tmr] s₁ = some s₂ ∧
      max 1 (min (0 : U32).toNat dnsMaxTtl.toNat) ≤ ticks [.tmr] s₂ ∧ ¬Taken s₁ 0 s₂ ∧
      s₂.lookupEntry [0x61] = some 0 ∧ (s₂.entry 0).ttl = 0xffffffff := by
  refine exists_run_of_observe
    (fun s ↦ (decide (AnswerTest 0 0 s), (dnsStep (.recv (answerMessage 0) [] []) s).bind fun s₁ ↦
      (runLabels dnsStep [.tmr] s₁).map fun s₂ ↦
        decide (ticks [.tmr] s₂ = 1 ∧ (s₂.log.drop s₁.log.length).length = 0 ∧ s₂.lookupEntry [0x61] = some 0 ∧
          (s₂.entry 0).ttl = 0xffffffff)))
    (true, some true) (by decide) fun s _ hobs ↦ ?_
  obtain ⟨htest, hrun⟩ := Prod.mk.inj hobs
  obtain ⟨s₁, hs₁, hrun⟩ := Option.bind_eq_some_iff.1 hrun
  obtain ⟨s₂, hs₂, hseen⟩ := Option.map_eq_some_iff.1 hrun
  obtain ⟨hticks, hlog, hlookup, httl⟩ := of_decide_eq_true hseen
  refine ⟨s₁, s₂, (of_decide_eq_true htest).resolves hs₁, hs₂, by rw [hticks]; decide, ?_, hlookup, httl⟩
  rintro ⟨found, hmem⟩
  rw [List.length_eq_zero_iff.1 hlog] at hmem
  cases hmem

end Lwip.Dns
