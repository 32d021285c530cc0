import LwipPoc.Core.Dns.Table

/-!
# Every DNS request gets its answer

A request that `dns_gethostbyname` has enqueued with a callback has an entry that is new or asked for, and the
callback in it: that is what the entry **owes** (`DnsClient.owed`), except while the callback of an entry that has expired
is being called. `Tracks` says that the ledger agrees, and every function keeps it.

There is one way in which a request loses its answer. Behind `responseerr` the entry is completed and so may be used
again while its callback runs; `dns_recv` then flushes it, whoever has it now. The condition of
`dns_requests_answered` is that a callback's request with a callback does not get the entry that is being refused.
-/

namespace Lwip.Dns

open SlotEvent

/-- The callback of an entry that is new or asked for. -/
def DnsTableEntry.live (e : DnsTableEntry) : Option Found :=
  match e.state with
  | .new | .asking => e.found
  | .unused | .done => none

namespace DnsClient

/-- The callback that is still to be called for an entry. -/
def owed (s : DnsClient) (i : ℕ) : Option Found := if s.ctl = .expired i then none else (s.entry i).live

/-- **The ledger agrees with the table.** -/
structure Tracks (s : DnsClient) : Prop where
  proper : Proper s.log
  waiting : ∀ i, waiting i s.log = s.owed i
  /-- An entry whose last retry is over is not used again before it is flushed. -/
  expired : ∀ i, s.ctl = .expired i → (s.entry i).state = .asking
  /-- An entry that is refused owes nothing when it is flushed. -/
  refused : ∀ i, s.ctl = .refused i → (s.entry i).live = none

variable {s s' : DnsClient} {i j : ℕ} {e : DnsTableEntry} {f : Found}

/-! ### Entries -/

theorem entry_put (s : DnsClient) (i : ℕ) (e : DnsTableEntry) (j : ℕ) :
    (s.put i e).entry j = if i = j ∧ i < s.dnsTable.length then e else s.entry j := by
  rw [put, entry, entry, List.getD_eq_getElem?_getD, List.getD_eq_getElem?_getD, List.getElem?_set]
  by_cases hij : i = j
  · subst hij
    by_cases hlt : i < s.dnsTable.length
    · simp [hlt]
    · simp [hlt]
  · simp [hij]

theorem entry_put_self (e : DnsTableEntry) (h : i < s.dnsTable.length) : (s.put i e).entry i = e := by
  rw [entry_put, if_pos ⟨rfl, h⟩]

theorem entry_put_of_ne (e : DnsTableEntry) (h : j ≠ i) : (s.put i e).entry j = s.entry j := by
  rw [entry_put, if_neg fun hij ↦ h hij.1.symm]

/-- Nothing is behind the table. -/
theorem lt_of_state (h : (s.entry i).state ≠ .unused) : i < s.dnsTable.length := by
  by_contra hle
  rw [entry, List.getD_eq_getElem?_getD, List.getElem?_eq_none (Nat.le_of_not_lt hle)] at h
  exact h rfl

theorem live_state (h : (s.entry i).live ≠ none) : (s.entry i).state ≠ .unused := by
  intro hunused
  rw [DnsTableEntry.live, hunused] at h
  exact h rfl

/-- A field of the entries that a `put` does not change. -/
theorem put_agree {α : Type*} (p : DnsTableEntry → α) (h : p e = p (s.entry i)) (j : ℕ) :
    p ((s.put i e).entry j) = p (s.entry j) := by
  rw [entry_put]
  split_ifs with hij
  · rw [h, hij.1]
  · rfl

/-! ### What a function does to an entry -/

/-- **`dns_check_entry`** writes an entry that is in use, and sends its request, flushes it or calls its callback; what
the entry owes, and its number, are what they were. -/
theorem dnsCheckEntry_cases (s : DnsClient) (i : ℕ) : s.dnsCheckEntry i = s ∨ ∃ e : DnsTableEntry,
    (s.entry i).state ≠ .unused ∧ e.live = (s.entry i).live ∧ e.seqno = (s.entry i).seqno ∧
    (s.dnsCheckEntry i = s.put i e ∨ s.dnsCheckEntry i = (s.put i e).dnsSend i ∨
      e.live = none ∧ s.dnsCheckEntry i = (s.put i e).flush i ∨
      ∃ f, e.live = some f ∧ e.state = .asking ∧ s.dnsCheckEntry i = (s.put i e).call i f none (.expired i)) := by
  have hasking : (s.entry i).live = (s.entry i).found → ∀ e : DnsTableEntry, e.state = .asking →
      e.found = (s.entry i).found → e.live = (s.entry i).live :=
    fun hlive e he hf ↦ by rw [hlive, DnsTableEntry.live, he, hf]
  have hdone : (s.entry i).live = none → ∀ e : DnsTableEntry, e.state = .done → e.live = (s.entry i).live :=
    fun hlive e he ↦ by rw [hlive, DnsTableEntry.live, he]
  rw [dnsCheckEntry]
  rcases hstate : (s.entry i).state with - | - | - | -
  · exact .inl rfl
  · refine .inr ⟨_, nofun, ?_, ?_, .inr (.inl rfl)⟩
    · exact hasking (by rw [DnsTableEntry.live, hstate]) _ rfl rfl
    · rfl
  · have hkeep := hasking (by rw [DnsTableEntry.live, hstate])
    dsimp only
    split_ifs
    · refine .inr ⟨_, nofun, ?_, ?_, .inl rfl⟩
      · exact hkeep _ rfl rfl
      · rfl
    · rcases hfound : (s.entry i).found with - | f
      · refine .inr ⟨_, nofun, ?_, ?_, .inr (.inr (.inl ⟨?_, rfl⟩))⟩
        · exact hkeep _ rfl hfound.symm
        · rfl
        · rfl
      · refine .inr ⟨_, nofun, ?_, ?_, .inr (.inr (.inr ⟨f, ?_, ?_, rfl⟩))⟩
        · exact hkeep _ rfl hfound.symm
        · rfl
        · rfl
        · rfl
    · refine .inr ⟨_, nofun, ?_, ?_, .inr (.inl rfl)⟩
      · exact hkeep _ rfl rfl
      · rfl
    · refine .inr ⟨_, nofun, ?_, ?_, .inl rfl⟩
      · exact hkeep _ rfl rfl
      · rfl
  · have hkeep := hdone (by rw [DnsTableEntry.live, hstate])
    dsimp only
    split_ifs
    · refine .inr ⟨_, nofun, ?_, ?_, .inr (.inr (.inl ⟨?_, rfl⟩))⟩
      · exact hkeep _ rfl
      · rfl
      · rfl
    · refine .inr ⟨_, nofun, ?_, ?_, .inl rfl⟩
      · exact hkeep _ rfl
      · rfl

/-- **`dns_recv`** completes the entry that a message is for, and flushes it or calls its callback. -/
theorem dnsRecv_cases {msg behindName behind : List (BitVec 8)} (h : s.dnsRecv msg behindName behind = some s') :
    ∃ t : DnsClient, (∃ payload, t = { s with payload := payload }) ∧ (s' = t ∨ ∃ k e, k < t.dnsTable.length ∧
      (t.entry k).state = .asking ∧ e.state = .done ∧ e.seqno = (t.entry k).seqno ∧
      ((t.entry k).found = none ∧ (s' = t.put k e ∨ s' = (t.put k e).flush k) ∨
        ∃ f r ctl, (t.entry k).found = some f ∧ (ctl = .refused k ∨ ctl = .answered k) ∧
          s' = (t.put k e).call k f r ctl)) := by
  rw [dnsRecv] at h
  split_ifs at h with hsize
  · exact ⟨s, ⟨s.payload, rfl⟩, .inl (Option.some.inj h).symm⟩
  set t : DnsClient := { s with payload := msg ++ s.payload.drop msg.length } with ht
  refine ⟨t, ⟨_, ht⟩, ?_⟩
  dsimp only at h
  obtain ⟨k, -, h⟩ := Option.bind_eq_some_iff.1 h
  split_ifs at h with hasking
  · obtain ⟨⟨err, r⟩, -, h⟩ := Option.map_eq_some_iff.1 h
    refine .inr ⟨k, ?_⟩
    rcases r with - | ⟨ttl, ipaddr⟩ <;> rcases hfound : (t.entry k).found with - | f <;> simp only [hfound] at h <;>
      subst h
    · refine ⟨_, hasking.1, hasking.2, ?_, ?_, .inl ⟨rfl, .inr rfl⟩⟩ <;> rfl
    · refine ⟨_, hasking.1, hasking.2, ?_, ?_, .inr ⟨f, none, _, rfl, .inl rfl, rfl⟩⟩ <;> rfl
    · refine ⟨_, hasking.1, hasking.2, ?_, ?_, .inl ⟨rfl, .inl rfl⟩⟩ <;> rfl
    · refine ⟨_, hasking.1, hasking.2, ?_, ?_, .inr ⟨f, some ipaddr, _, rfl, .inr rfl, rfl⟩⟩ <;> rfl
  · exact .inl (Option.some.inj h).symm

/-! ### What keeps the ledger right -/

theorem tracks_init (n : ℕ) : (init n).Tracks := by
  have hunused : ∀ i, ((init n).entry i).state = .unused := by
    intro i
    by_contra h
    have hlt := lt_of_state h
    rw [entry, List.getD_eq_getElem?_getD, List.getElem?_eq_getElem hlt] at h
    exact h (by simp [init, DnsTableEntry.zero])
  refine ⟨proper_nil, fun i ↦ ?_, fun i h ↦ ?_, fun i h ↦ ?_⟩
  · rw [owed, if_neg (by simp [init]), DnsTableEntry.live, hunused]
    rfl
  · simp [init] at h
  · simp [init] at h

/-- What changes neither the ledger nor what the entries owe. -/
theorem Tracks.of_agree (h : s.Tracks) (hlog : s'.log = s.log) (hctl : s'.ctl = s.ctl)
    (hlive : ∀ j, (s'.entry j).live = (s.entry j).live)
    (hstate : ∀ j, s.ctl = .expired j → (s'.entry j).state = .asking) : s'.Tracks := by
  refine ⟨hlog ▸ h.proper, fun j ↦ ?_, fun j hj ↦ hstate j (hctl ▸ hj), fun j hj ↦ ?_⟩
  · rw [hlog, h.waiting j, owed, owed, hctl, hlive]
  · rw [hlive]
    exact h.refused j (hctl ▸ hj)

/-- An entry goes on owing what it owed. -/
theorem Tracks.put (h : s.Tracks) (hlive : e.live = (s.entry i).live) (hctl : ∀ j, s.ctl ≠ .expired j) :
    (s.put i e).Tracks :=
  h.of_agree rfl rfl (put_agree DnsTableEntry.live hlive) fun j hj ↦ absurd hj (hctl j)

/-- A request is sent for an entry. -/
theorem Tracks.dnsSend (h : s.Tracks) (i : ℕ) : (s.dnsSend i).Tracks :=
  h.of_agree rfl rfl (fun _ ↦ rfl) h.expired

/-- An entry that owes nothing is flushed, and no callback is being called any more. -/
theorem Tracks.flush (h : s.Tracks) (howed : s.owed i = none) (hctl : ∀ j, j ≠ i → s.ctl ≠ .expired j) :
    ({ s with ctl := .idle }.flush i).Tracks := by
  set e : DnsTableEntry := { s.entry i with state := .unused, found := none } with he
  refine ⟨h.proper.concat (?_ : SlotEvent.waiting i s.log = none), fun j ↦ ?_, fun j hj ↦ ?_, fun j hj ↦ ?_⟩
  · rw [h.waiting, howed]
  · have hlog : ({ s with ctl := .idle }.flush i).log = s.log ++ [.freed i] := rfl
    have howes : ({ s with ctl := .idle }.flush i).owed j = ((s.put i e).entry j).live :=
      if_neg (by simp [DnsClient.flush, note, DnsClient.put])
    rw [hlog, waiting_freed, h.waiting, howes]
    by_cases hj : j = i
    · subst hj
      rw [howed]
      by_cases hlt : j < s.dnsTable.length
      · rw [entry_put_self e hlt, he, DnsTableEntry.live]
      · rw [entry_put, if_neg fun hj ↦ hlt hj.2]
        by_contra hne
        exact hlt (lt_of_state (live_state fun heq ↦ hne heq.symm))
    · rw [owed, if_neg (hctl j hj), entry_put_of_ne e hj]
  · cases hj
  · cases hj

theorem Tracks.flush_idle (h : s.Tracks) (hidle : s.ctl = .idle) (howed : s.owed i = none) : (s.flush i).Tracks := by
  have hflush := h.flush howed fun j _ ↦ by simp [hidle]
  rwa [show ({ s with ctl := .idle } : DnsClient) = s by rw [← hidle]] at hflush

/-- The callback of an entry is called; then either the entry is completed, or it is about to be flushed. -/
theorem Tracks.call (h : s.Tracks) (hidle : s.ctl = .idle) (hlive : (s.entry i).live = some f) (r : Option U32)
    {ctl : DnsCtl}
    (hctl : ctl = .expired i ∧ e.state = .asking ∨ (ctl = .refused i ∨ ctl = .answered i) ∧ e.live = none) :
    ((s.put i e).call i f r ctl).Tracks := by
  have hlt : i < s.dnsTable.length := lt_of_state (live_state (by rw [hlive]; exact Option.some_ne_none _))
  have howed : s.owed i = some f := by rw [owed, hidle, if_neg (by simp), hlive]
  have hself : ((s.put i e).call i f r ctl).entry i = e := entry_put_self e hlt
  have hexpired : ∀ j, ctl = .expired j → j = i := by
    rcases hctl with ⟨rfl, -⟩ | ⟨rfl | rfl, -⟩ <;> rintro j ⟨⟩
    rfl
  refine ⟨h.proper.concat (?_ : SlotEvent.waiting i s.log = some f), fun j ↦ ?_, fun j hj ↦ ?_, fun j hj ↦ ?_⟩
  · rw [h.waiting, howed]
  · rw [show ((s.put i e).call i f r ctl).log = s.log ++ [.called i f r] from rfl, waiting_called]
    by_cases hj : i = j
    · subst hj
      rw [if_pos rfl, owed, hself]
      rcases hctl with ⟨rfl, -⟩ | ⟨-, hnone⟩
      · exact (if_pos rfl).symm
      · rw [hnone, ite_self]
    · have hne : ((s.put i e).call i f r ctl).ctl ≠ .expired j := fun heq ↦ hj (hexpired j heq).symm
      rw [if_neg hj, h.waiting, owed, hidle, if_neg (by simp), owed, if_neg hne]
      exact congrArg _ (entry_put_of_ne e (Ne.symm hj)).symm
  · obtain rfl := hexpired j hj
    rcases hctl with ⟨-, hstate⟩ | ⟨rfl | rfl, -⟩
    · rw [hself, hstate]
    · cases hj
    · cases hj
  · rcases hctl with ⟨rfl, -⟩ | ⟨rfl | rfl, hnone⟩
    · cases hj
    · cases hj
      rw [hself, hnone]
    · cases hj

/-! ### Timer -/

theorem Tracks.dnsCheckEntry (h : s.Tracks) (hidle : s.ctl = .idle) (i : ℕ) :
    (s.dnsCheckEntry i).Tracks := by
  have hctl : ∀ j, s.ctl ≠ .expired j := by simp [hidle]
  have hflush : ∀ {e : DnsTableEntry}, e.live = (s.entry i).live → e.live = none → ((s.put i e).flush i).Tracks := by
    intro e hlive hnone
    refine (h.put (e := e) hlive hctl).flush_idle hidle ?_
    rw [owed, if_neg (show (s.put i e).ctl ≠ .expired i from hctl i), entry_put]
    split_ifs
    · exact hnone
    · exact hlive ▸ hnone
  rcases s.dnsCheckEntry_cases i with heq | ⟨e, -, hlive, -, heq | heq | ⟨hnone, heq⟩ | ⟨f, hf, hasking, heq⟩⟩ <;>
    rw [heq]
  · exact h
  · exact h.put hlive hctl
  · exact (h.put hlive hctl).dnsSend i
  · exact hflush hlive hnone
  · exact h.call hidle (hlive ▸ hf) none (Or.inl ⟨rfl, hasking⟩)


theorem Tracks.dnsCheckEntries (n : ℕ) : ∀ {s : DnsClient} {i : ℕ}, s.Tracks → s.ctl = .idle → (dnsCheckEntries n i s).Tracks := by
  induction n with
  | zero => exact fun h _ ↦ h
  | succ n ih =>
    intro s i h hidle
    rw [DnsClient.dnsCheckEntries]
    split_ifs with hctl
    · exact ih (h.dnsCheckEntry hidle i) hctl
    · exact h.dnsCheckEntry hidle i

/-! ### Requests -/

theorem searchEntries_unused {dnsSeqno : BitVec 8} {es : List DnsTableEntry} {i lseq lseqi k : ℕ}
    (h : (searchEntries dnsSeqno es i lseq lseqi).1 = some k) :
    ∃ e, es[k - i]? = some e ∧ e.state = .unused ∧ i ≤ k := by
  induction es generalizing i lseq lseqi with
  | nil => cases h
  | cons e es ih =>
    have hrest : ∀ {lseq lseqi}, (searchEntries dnsSeqno es (i + 1) lseq lseqi).1 = some k →
        ∃ e', (e :: es)[k - i]? = some e' ∧ e'.state = .unused ∧ i ≤ k := by
      intro lseq lseqi hk
      obtain ⟨e', hget, hunused, hle⟩ := ih hk
      refine ⟨e', ?_, hunused, by omega⟩
      rwa [show k - i = k - (i + 1) + 1 by omega, List.getElem?_cons_succ]
    rw [searchEntries] at h
    split_ifs at h with hunused hdone
    · cases h
      exact ⟨e, by simp, hunused, le_rfl⟩
    · exact hrest h
    · exact hrest h

/-- `dns_enqueue` uses an entry that is unused or completed. -/
theorem dnsSlot_spec (h : s.dnsSlot = some i) :
    i < s.dnsTable.length ∧ ((s.entry i).state = .unused ∨ (s.entry i).state = .done) := by
  rw [dnsSlot] at h
  rcases hsearch : searchEntries s.dnsSeqno s.dnsTable 0 0 0 with ⟨_ | k, lseqi⟩ <;> rw [hsearch] at h
  · dsimp only at h
    split_ifs at h with hfull
    cases h
    rw [not_or, not_le, not_not] at hfull
    exact ⟨hfull.1, Or.inr hfull.2⟩
  · cases h
    obtain ⟨e, hget, hunused, -⟩ := searchEntries_unused (congrArg Prod.fst hsearch)
    rw [Nat.sub_zero] at hget
    refine ⟨(List.getElem?_eq_some_iff.1 hget).1, Or.inl ?_⟩
    rw [entry, List.getD_eq_getElem?_getD, hget]
    exact hunused

/-- An entry that is new is asked for, at once. -/
theorem Tracks.dnsCheckEntry_new (h : s.Tracks) (hstate : (s.entry i).state = .new) : (s.dnsCheckEntry i).Tracks := by
  rw [DnsClient.dnsCheckEntry]
  simp only [hstate]
  set e : DnsTableEntry := { s.entry i with state := .asking, numdns := 0, tmr := 1, retries := 0 }
  refine Tracks.dnsSend (s := s.put i e) (h.of_agree rfl rfl (put_agree DnsTableEntry.live ?_) fun j hj ↦ ?_) i
  · rw [DnsTableEntry.live, DnsTableEntry.live, hstate]
  · have hasking := h.expired j hj
    have hne : j ≠ i := by
      rintro rfl
      cases hstate.symm.trans hasking
    rw [entry_put_of_ne _ hne, hasking]

/-- A request takes an entry; it must not be the one that is being refused, if it leaves a callback. -/
theorem Tracks.dnsEnqueue (h : s.Tracks) (name : List (BitVec 8)) {found : Option Found}
    (hspared : ∀ i, s.ctl = .refused i → s.dnsSlot = some i → found = none) : (s.dnsEnqueue name found).2.Tracks := by
  rw [DnsClient.dnsEnqueue]
  cases hslot : s.dnsSlot with
  | none => exact h
  | some i =>
    obtain ⟨hlt, hfree⟩ := dnsSlot_spec hslot
    dsimp only
    set e : DnsTableEntry :=
      { s.entry i with
        state := .new
        seqno := s.dnsSeqno
        found := found
        name := name.take (min name.length (dnsMaxNameLength - 1)) ++
          0 :: (s.entry i).name.drop (min name.length (dnsMaxNameLength - 1) + 1) } with he
    set t := ({ s with dnsSeqno := s.dnsSeqno + 1 }.put i e).note (.took i found) with ht
    have hself : t.entry i = e := entry_put_self (s := { s with dnsSeqno := s.dnsSeqno + 1 }) e hlt
    have hother : ∀ {j}, j ≠ i → t.entry j = s.entry j := fun hj ↦
      entry_put_of_ne (s := { s with dnsSeqno := s.dnsSeqno + 1 }) e hj
    have hexpired : ∀ {j}, s.ctl = .expired j → j ≠ i := by
      rintro j hj rfl
      rcases hfree with hfree | hfree <;> cases hfree.symm.trans (h.expired j hj)
    have hnone : (s.entry i).live = none := by
      rcases hfree with hfree | hfree <;> rw [DnsTableEntry.live, hfree]
    refine Tracks.dnsCheckEntry_new ⟨h.proper.concat (?_ : SlotEvent.waiting i s.log = none), fun j ↦ ?_,
      fun j hj ↦ ?_, fun j hj ↦ ?_⟩ (by rw [hself])
    · rw [h.waiting, owed, hnone, ite_self]
    · rw [show t.log = s.log ++ [.took i found] from rfl, waiting_took, owed, show t.ctl = s.ctl from rfl]
      by_cases hj : i = j
      · subst hj
        rw [if_pos rfl, if_neg fun hctl ↦ hexpired hctl rfl, hself]
        rfl
      · rw [if_neg hj, h.waiting, hother (Ne.symm hj), owed]
    · rw [hother (hexpired hj), h.expired j hj]
    · by_cases heq : j = i
      · subst heq
        rw [hself]
        exact hspared j hj hslot
      · rw [hother heq, h.refused j hj]

/-! ### Responses and returns -/

theorem Tracks.dnsRecv (h : s.Tracks) (hidle : s.ctl = .idle) (msg behindName behind : List (BitVec 8))
    (hs : s.dnsRecv msg behindName behind = some s') : s'.Tracks := by
  obtain ⟨t, ⟨payload, rfl⟩, rfl | ⟨k, e, hlt, hasking, hdone, -, ⟨hfound, heq⟩ | ⟨f, r, ctl, hfound, hctl, rfl⟩⟩⟩ :=
    dnsRecv_cases hs
  · exact h.of_agree rfl rfl (fun _ ↦ rfl) h.expired
  all_goals
    set t : DnsClient := { s with payload := payload }
    have htracks : t.Tracks := h.of_agree rfl rfl (fun _ ↦ rfl) h.expired
    have hlive : (t.entry k).live = (t.entry k).found := by rw [DnsTableEntry.live, hasking]
    have hnone : e.live = none := by rw [DnsTableEntry.live, hdone]
  · have hput : (t.put k e).Tracks :=
      htracks.put (hnone.trans (hlive.trans hfound).symm) fun j hj ↦ by cases hidle.symm.trans hj
    rcases heq with rfl | rfl
    · exact hput
    · refine hput.flush_idle hidle ?_
      rw [owed, entry_put_self _ hlt, hnone, ite_self]
  · exact htracks.call hidle (hlive.trans hfound) r (Or.inr ⟨hctl, hnone⟩)


theorem Tracks.ret (h : s.Tracks) (hs : s.ret = some s') : s'.Tracks := by
  rw [DnsClient.ret] at hs
  cases hctl : s.ctl with
  | idle =>
    rw [hctl] at hs
    cases hs
  | answered i =>
    rw [hctl] at hs
    cases hs
    refine ⟨h.proper, fun j ↦ ?_, fun j hj ↦ ?_, fun j hj ↦ ?_⟩
    · rw [h.waiting, owed, hctl, if_neg (by simp)]
      exact (if_neg (by simp)).symm
    · cases hj
    · cases hj
  | refused i =>
    rw [hctl] at hs
    cases hs
    refine h.flush ?_ fun j _ ↦ by simp [hctl]
    rw [owed, h.refused i hctl, ite_self]
  | expired i =>
    rw [hctl] at hs
    cases hs
    refine (h.flush ?_ fun j hj ↦ ?_).dnsCheckEntries _ rfl
    · rw [owed, if_pos hctl]
    · rw [hctl]
      simpa using Ne.symm hj

end DnsClient

/-! ### Runs -/

/-- **The condition.** A callback that is told that its request was refused does not put a request with a callback
into the entry of the refused one: it calls `dns_gethostbyname` for a host that is known, or another entry will be
used. -/
def SparesRefused : DnsLabel → DnsClient → Prop
  | .gethostbyname hostname addr found, s =>
    match s.ctl with
    | .refused i =>
      s.validArgs hostname addr → s.knownAddr (hostname.getD []) = Ipv4.ipaddrNone → s.dnsSlot = some i → found = none
    | _ => True
  | _, _ => True

instance : ∀ l s, Decidable (SparesRefused l s)
  | .gethostbyname hostname addr found, s => by
    rw [SparesRefused]
    cases s.ctl <;> dsimp only <;> infer_instance
  | .init _, _ | .setserver .., _ | .recv .., _ | .tmr, _ | .ret, _ => .isTrue trivial

variable {s s' : DnsClient}

theorem dnsSetserver_tracks (h : s.Tracks) (numdns : ℕ) (dnsserver : Option U32) :
    (s.dnsSetserver numdns dnsserver).Tracks := by
  cases dnsserver with
  | none => exact h
  | some addr =>
    rw [DnsClient.dnsSetserver]
    split_ifs
    · exact h.of_agree rfl rfl (fun _ ↦ rfl) h.expired
    · exact h

/-- Every step that meets the condition keeps the ledger right. -/
theorem dnsStep_tracks {l : DnsLabel} (h : s.Tracks) (hspares : SparesRefused l s) (hs : dnsStep l s = some s') :
    s'.Tracks := by
  cases l with
  | init pcb =>
    cases hs
    rw [DnsClient.dnsInit]
    split_ifs
    · exact h
    · exact dnsSetserver_tracks (s := { s with dnsPcb := true }) (h.of_agree rfl rfl (fun _ ↦ rfl) h.expired) 0 _
    · exact h
  | setserver numdns dnsserver =>
    cases hs
    exact dnsSetserver_tracks h numdns dnsserver
  | gethostbyname hostname addr found =>
    cases hs
    rw [DnsClient.dnsGethostbyname]
    by_cases hvalid : s.validArgs hostname addr
    · rw [if_pos hvalid]
      dsimp only
      by_cases hknown : s.knownAddr (hostname.getD []) = Ipv4.ipaddrNone
      · rw [if_neg (not_not.2 hknown)]
        refine h.dnsEnqueue _ fun i hctl hslot ↦ ?_
        rw [SparesRefused, hctl] at hspares
        exact hspares hvalid hknown hslot
      · rw [if_pos hknown]
        exact h
    · rw [if_neg hvalid]
      exact h
  | recv msg behindName behind =>
    rw [dnsStep] at hs
    split_ifs at hs with hidle
    exact h.dnsRecv hidle.2 msg behindName behind hs
  | tmr =>
    rw [dnsStep] at hs
    split_ifs at hs with hidle
    cases hs
    rw [DnsClient.dnsTmr]
    split_ifs
    · exact h.dnsCheckEntries _ hidle
    · exact h
  | ret => exact h.ret hs

/-- **Every request gets its answer**, in every run in which no callback's request takes the entry that is being
refused: while an entry is a request's, the request's callback and no other is called, at most once, and before
the entry is released or used again it has been called. -/
theorem dns_requests_answered (n : ℕ) {ls : List DnsLabel} {s : DnsClient}
    (h : runLabels (guardStep SparesRefused dnsStep) ls (.init n) = some s) : SlotEvent.Answered s.log := by
  refine (runLabels_invariant (I := DnsClient.Tracks) (DnsClient.tracks_init n) ?_ h).proper.answered
  intro l s s' hs hl
  obtain ⟨hspares, hl⟩ := guardStep_eq_some.1 hl
  exact dnsStep_tracks hs hspares hl

/-- The callback of a refused request asks for another host, and gets another entry; then that is answered. -/
theorem dns_requests_answered_retry :
    ∃ s, runLabels (guardStep SparesRefused dnsStep)
        [.init true, .gethostbyname (some [0x61]) true (some ⟨1, 0⟩), .recv (List.replicate 26 0) [] [],
          .gethostbyname (some [0x62]) true (some ⟨1, 1⟩), .ret, .tmr] (.init 4) = some s ∧
      s.log = [.took 0 (some ⟨1, 0⟩), .called 0 ⟨1, 0⟩ none, .took 1 (some ⟨1, 1⟩), .freed 0] ∧
      SlotEvent.Answered s.log :=
  exists_run_of_observe DnsClient.log _ (by decide) fun _ hs hlog ↦ ⟨hlog, dns_requests_answered 4 hs⟩

/-- With the table full, the callback of a refused request gets the entry of the refused one, which is then flushed:
the callback of the new request is **never called**. -/
theorem dns_request_lost :
    ∃ s, runLabels dnsStep
        [.init true, .gethostbyname (some [0x61]) true (some ⟨1, 0⟩), .gethostbyname (some [0x62]) true (some ⟨1, 1⟩),
          .gethostbyname (some [0x63]) true (some ⟨1, 2⟩), .gethostbyname (some [0x64]) true (some ⟨1, 3⟩),
          .recv (List.replicate 26 0) [] [], .gethostbyname (some [0x65]) true (some ⟨1, 4⟩), .ret] (.init 4) = some s ∧
      ¬SlotEvent.Answered s.log := by
  refine exists_run_of_observe DnsClient.log
    [.took 0 (some ⟨1, 0⟩), .took 1 (some ⟨1, 1⟩), .took 2 (some ⟨1, 2⟩), .took 3 (some ⟨1, 3⟩), .called 0 ⟨1, 0⟩ none,
      .took 0 (some ⟨1, 4⟩), .freed 0] (by decide) fun s hs hlog hanswered ↦ ?_
  have hcalled := (hanswered (s.log.take 5) 0 ⟨1, 4⟩ [] [.freed 0] (by rw [hlog]; rfl) (by simp)).2 _ _ rfl rfl
  cases hcalled

end Lwip.Dns
