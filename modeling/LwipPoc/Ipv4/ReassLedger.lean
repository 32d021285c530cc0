import LwipPoc.Ipv4.ReassSound

/-!
# Who holds the pbufs of fragments

`ip_reass` takes over the caller's reference to every pbuf it is given, and must release it, keep it in
the queue, or give it back in a reassembled packet. The ledger says which: beside the datagrams it has
the **names of the pbufs** that each of them holds, and every function also returns the names of those
on which it calls `pbuf_free`.

The ledger's functions are the functions of the reassembly with the frees written down; forgetting the
names gives these functions back (`ipReass_erase`, `ipReassTmr_erase`). No pbuf gets lost and none is
released twice: `ipReass_conserves`.
-/

namespace Lwip.Ipv4

open Lwip.Core

/-- The reassembly, and the pbufs that each datagram of its list holds. -/
structure ReassLedger (ι : Type*) where
  reass : Reass
  owners : List (List ι)

variable {ι : Type*}

namespace ReassLedger

/-- The pbufs in the queue. -/
def held (s : ReassLedger ι) : List ι := s.owners.flatten

/-- Before the first fragment. -/
def init : ReassLedger ι := ⟨Reass.init, []⟩

/-- `ip_reass_free_complete_datagram`: all pbufs of the datagram are released. -/
def freeCompleteDatagram (s : ReassLedger ι) (i : ℕ) (prev : Option ℕ) :
    Option (ℕ × ReassLedger ι × List ι) :=
  (s.reass.freeCompleteDatagram i prev).map fun r ↦
    (r.1, ⟨r.2, s.owners.eraseIdx i⟩, (s.owners[i]?).getD [])

/-- `ip_reass_remove_oldest_datagram`. -/
def removeOldestDatagram (fraghdr : IpHdr) (needed : ℕ) :
    ℕ → ℕ → ReassLedger ι → Option (ℕ × ReassLedger ι × List ι)
  | 0, _, _ => none
  | fuel + 1, freed, s =>
    match Reass.findOldest fraghdr s.reass.datagrams 0 none 0 with
    | (none, _) => some (freed, s, [])
    | (some i, others) =>
      (s.freeCompleteDatagram i (Reass.searchPrev s.reass.datagrams)).bind fun r ↦
        if freed + r.1 < needed ∧ 1 < others then
          (removeOldestDatagram fraghdr needed fuel (freed + r.1) r.2.1).map fun q ↦
            (q.1, q.2.1, r.2.2 ++ q.2.2)
        else some (freed + r.1, r.2.1, r.2.2)

/-- `ip_reass_remove_oldest_datagram`, with as many rounds as there can be. -/
def removeOldest (s : ReassLedger ι) (fraghdr : IpHdr) (needed : ℕ) :
    Option (ℕ × ReassLedger ι × List ι) :=
  removeOldestDatagram fraghdr needed (s.reass.datagrams.length + 1) 0 s

/-- The loop of `ip_reass_tmr`: behind it and ahead of it, datagrams and what they hold. -/
def tmrLoop : List ReassData → List (List ι) → List ReassData → List (List ι) → ℕ →
    Option (ReassLedger ι × List ι)
  | done, doneOwners, [], _, count => some (⟨⟨done, count⟩, doneOwners⟩, [])
  | done, doneOwners, r :: rs, owners, count =>
    if 0 < r.timer then
      tmrLoop (done ++ [{ r with timer := r.timer - 1 }]) (doneOwners ++ owners.take 1) rs
        (owners.drop 1) count
    else
      (freeCompleteDatagram ⟨⟨done ++ r :: rs, count⟩, doneOwners ++ owners⟩ done.length
        (if done = [] then none else some (done.length - 1))).bind fun res ↦
          (tmrLoop done doneOwners rs (owners.drop 1) res.2.1.reass.pbufcount).map fun q ↦
            (q.1, res.2.2 ++ q.2)

/-- `ip_reass_tmr`. -/
def ipReassTmr (s : ReassLedger ι) : Option (ReassLedger ι × List ι) :=
  tmrLoop [] [] s.reass.datagrams s.owners s.reass.pbufcount

/-- `ip_reass_enqueue_new_datagram`. -/
def enqueueNewDatagram (s : ReassLedger ι) (fraghdr : IpHdr) (clen : ℕ) :
    Option (Bool × ReassLedger ι × List ι) :=
  let enqueue (s : ReassLedger ι) : ReassLedger ι :=
    ⟨{ s.reass with datagrams := ⟨[], fraghdr, 0, false, ipReassMaxage⟩ :: s.reass.datagrams },
      [] :: s.owners⟩
  if s.reass.datagrams.length < mempNumReassdata then some (true, enqueue s, [])
  else
    (s.removeOldest fraghdr clen).map fun r ↦
      if clen ≤ r.1 ∧ r.2.1.reass.datagrams.length < mempNumReassdata then
        (true, enqueue r.2.1, r.2.2)
      else (false, r.2.1, r.2.2)

/-- `ip_reass` from the point on where the datagram is known: a fragment that overlaps is released, any
other one is held by its datagram, or given back with it. -/
def reassAt (s : ReassLedger ι) (p : IpPacket) (ids : List ι) (i : ℕ) (d : ReassData) :
    Option (Option (IpPacket × List ι) × ReassLedger ι × List ι) :=
  (s.reass.reassAt p i d).map fun r ↦
    match r.1, Reass.place (Reass.helper p) [] true d.frags with
    | some q, _ => (some (q, (s.owners[i]?).getD [] ++ ids), ⟨r.2, s.owners.eraseIdx i⟩, [])
    | none, some .dropped => (none, ⟨r.2, s.owners⟩, ids)
    | none, _ => (none, ⟨r.2, s.owners.set i ((s.owners[i]?).getD [] ++ ids)⟩, [])

/-- The check for room. -/
def makeRoom (s : ReassLedger ι) (p : IpPacket) : Option (Bool × ReassLedger ι × List ι) :=
  let clen := pbufClen p.pbufs
  if ipReassMaxPbufs < s.reass.pbufcount + clen then
    (s.removeOldest p.hdr clen).map fun r ↦
      (r.1 ≠ 0 ∧ ¬ ipReassMaxPbufs < r.2.1.reass.pbufcount + clen, r.2.1, r.2.2)
  else some (true, s, [])

/-- **`ip_reass`** with the names of its pbufs: the packet it returns, and what it releases. -/
def ipReass (s : ReassLedger ι) (p : IpPacket) (ids : List ι) :
    Option (Option (IpPacket × List ι) × ReassLedger ι × List ι) :=
  if p.hdr.hl * 4 ≠ ipHlen then some (none, s, ids)
  else
    (s.makeRoom p).bind fun
      | (false, s, freed) => some (none, s, freed ++ ids)
      | (true, s, freed) =>
        match s.reass.datagrams.findIdx? fun d ↦ Reass.addressesAndIdMatch d.iphdr p.hdr with
        | some i => (s.reass.datagrams[i]?).bind fun d ↦
            (s.reassAt p ids i (Reass.adoptHdr d p.hdr)).map fun r ↦ (r.1, r.2.1, freed ++ r.2.2)
        | none => (s.enqueueNewDatagram p.hdr (pbufClen p.pbufs)).bind fun
            | (false, s, freed') => some (none, s, freed ++ freed' ++ ids)
            | (true, s, freed') => (s.reass.datagrams[0]?).bind fun d ↦
                (s.reassAt p ids 0 d).map fun r ↦ (r.1, r.2.1, freed ++ freed' ++ r.2.2)

/-! ### Forgetting the names -/

variable {s s' : ReassLedger ι} {p : IpPacket} {ids freed : List ι} {i n : ℕ} {d : ReassData}
  {h : IpHdr} {needed fuel count : ℕ}

theorem freeCompleteDatagram_erase (s : ReassLedger ι) (i : ℕ) (prev : Option ℕ) :
    (s.freeCompleteDatagram i prev).map (fun r ↦ (r.1, r.2.1.reass)) =
      s.reass.freeCompleteDatagram i prev := by
  rw [freeCompleteDatagram, Option.map_map]
  exact Option.map_id'

theorem removeOldestDatagram_erase (h : IpHdr) (needed fuel count : ℕ) (s : ReassLedger ι) :
    (removeOldestDatagram h needed fuel count s).map (fun r ↦ (r.1, r.2.1.reass)) =
      Reass.removeOldestDatagram h needed fuel count s.reass := by
  induction fuel generalizing count s with
  | zero => rfl
  | succ fuel ih =>
    rw [removeOldestDatagram, Reass.removeOldestDatagram]
    rcases Reass.findOldest h s.reass.datagrams 0 none 0 with ⟨- | i, others⟩
    · rfl
    · simp only
      rw [Option.map_bind, ← freeCompleteDatagram_erase s, Option.bind_map]
      refine congrArg _ (funext fun r ↦ ?_)
      simp only [Function.comp_apply]
      split_ifs
      · rw [← ih, Option.map_map]
        rfl
      · rfl

theorem tmrLoop_erase (done : List ReassData) (doneOwners : List (List ι)) (todo : List ReassData)
    (owners : List (List ι)) (count : ℕ) :
    (tmrLoop done doneOwners todo owners count).map (fun r ↦ r.1.reass) =
      Reass.tmrLoop done todo count := by
  induction todo generalizing done doneOwners owners count with
  | nil => rfl
  | cons r rs ih =>
    rw [tmrLoop, Reass.tmrLoop]
    split_ifs
    · exact ih _ _ _ _
    all_goals
      rw [Option.map_bind, ← freeCompleteDatagram_erase
        (⟨⟨done ++ r :: rs, count⟩, doneOwners ++ owners⟩ : ReassLedger ι), Option.bind_map]
      refine congrArg _ (funext fun q ↦ ?_)
      rw [Function.comp_apply, Option.map_map]
      exact ih _ _ _ _

/-- **A tick** is a tick of the reassembly. -/
theorem ipReassTmr_erase (s : ReassLedger ι) :
    s.ipReassTmr.map (fun r ↦ r.1.reass) = s.reass.ipReassTmr :=
  tmrLoop_erase _ _ _ _ _

theorem enqueueNewDatagram_erase (s : ReassLedger ι) (h : IpHdr) (n : ℕ) :
    (s.enqueueNewDatagram h n).map (fun r ↦ (r.1, r.2.1.reass)) = s.reass.enqueueNewDatagram h n := by
  simp only [enqueueNewDatagram, Reass.enqueueNewDatagram]
  split_ifs
  · rfl
  · rw [Option.map_map, Reass.removeOldest, ← removeOldestDatagram_erase, Option.map_map]
    refine congrArg (fun f ↦ Option.map f _) (funext fun r ↦ ?_)
    simp only [Function.comp_apply]
    split_ifs <;> rfl

theorem reassAt_erase (s : ReassLedger ι) (p : IpPacket) (ids : List ι) (i : ℕ) (d : ReassData) :
    (s.reassAt p ids i d).map (fun r ↦ (r.1.map Prod.fst, r.2.1.reass)) = s.reass.reassAt p i d := by
  rw [reassAt, Option.map_map]
  refine (congrArg (fun f ↦ Option.map f _) (funext fun r ↦ ?_)).trans Option.map_id'
  obtain ⟨o, t⟩ := r
  cases o with
  | some q => rfl
  | none =>
    simp only [Function.comp_apply]
    split <;> simp_all

theorem makeRoom_erase (s : ReassLedger ι) (p : IpPacket) :
    (s.makeRoom p).map (fun r ↦ (r.1, r.2.1.reass)) = s.reass.makeRoom p := by
  simp only [makeRoom, Reass.makeRoom]
  split_ifs
  · rw [Option.map_map, Reass.removeOldest, ← removeOldestDatagram_erase, Option.map_map]
    rfl
  · rfl

/-- **A fragment** is a fragment of the reassembly. -/
theorem ipReass_erase (s : ReassLedger ι) (p : IpPacket) (ids : List ι) :
    (s.ipReass p ids).map (fun r ↦ (r.1.map Prod.fst, r.2.1.reass)) = s.reass.ipReass p := by
  rw [ipReass, Reass.ipReass]
  split_ifs
  · rfl
  rw [Option.map_bind, ← makeRoom_erase, Option.bind_map]
  refine congrArg _ (funext fun r ↦ ?_)
  obtain ⟨b, t, freed⟩ := r
  cases b with
  | false => rfl
  | true =>
    simp only [Function.comp_apply]
    cases t.reass.datagrams.findIdx? fun d ↦ Reass.addressesAndIdMatch d.iphdr p.hdr with
    | some i =>
      simp only
      rw [Option.map_bind]
      refine congrArg _ (funext fun d ↦ ?_)
      rw [Function.comp_apply, Option.map_map, ← reassAt_erase _ _ ids]
      rfl
    | none =>
      simp only
      rw [Option.map_bind, ← enqueueNewDatagram_erase, Option.bind_map]
      refine congrArg _ (funext fun r ↦ ?_)
      obtain ⟨b, t, freed'⟩ := r
      cases b with
      | false => rfl
      | true =>
        simp only [Function.comp_apply]
        rw [Option.map_bind]
        refine congrArg _ (funext fun d ↦ ?_)
        rw [Function.comp_apply, Option.map_map, ← reassAt_erase _ _ ids]
        rfl

/-! ### Conservation -/

/-- The pbufs of the fragments of a datagram. -/
def pbufCount (d : ReassData) : ℕ := (d.frags.map fun q ↦ q.frag.pbufs.length).sum

/-- **The names fit**: as many for each datagram as its fragments have pbufs. -/
def Fits (s : ReassLedger ι) : Prop :=
  s.owners.map List.length = s.reass.datagrams.map pbufCount

theorem Fits.length_eq (hs : s.Fits) : s.owners.length = s.reass.datagrams.length := by
  have := congrArg List.length hs
  rwa [List.length_map, List.length_map] at this

theorem map_eraseIdx {α β : Type*} (f : α → β) (l : List α) (i : ℕ) :
    (l.eraseIdx i).map f = (l.map f).eraseIdx i := by
  induction l generalizing i with
  | nil => rfl
  | cons a l ih =>
    cases i with
    | zero => rfl
    | succ i => simp [ih]

theorem Fits.eraseIdx (hs : s.Fits) {t : ReassLedger ι} (i : ℕ)
    (hds : t.reass.datagrams = s.reass.datagrams.eraseIdx i)
    (howners : t.owners = s.owners.eraseIdx i) : t.Fits := by
  rw [Fits, hds, howners, map_eraseIdx, map_eraseIdx, hs]

/-- Taking out an element of a list of lists. -/
theorem perm_flatten_eraseIdx {α : Type*} (l : List (List α)) (i : ℕ) :
    l.flatten.Perm ((l.eraseIdx i).flatten ++ (l[i]?).getD []) := by
  induction l generalizing i with
  | nil => simp
  | cons a l ih =>
    cases i with
    | zero => simpa using List.perm_append_comm
    | succ i =>
      simp only [List.flatten_cons, List.eraseIdx_cons_succ, List.getElem?_cons_succ,
        List.append_assoc]
      exact (ih i).append_left a

/-- Adding to an element of a list of lists. -/
theorem perm_flatten_set {α : Type*} {l : List (List α)} {i : ℕ} (hi : i < l.length) (as : List α) :
    (l.flatten ++ as).Perm (l.set i ((l[i]?).getD [] ++ as)).flatten := by
  induction l generalizing i with
  | nil => exact absurd hi (Nat.not_lt_zero i)
  | cons a l ih =>
    cases i with
    | zero =>
      simp only [List.set_cons_zero, List.getElem?_cons_zero, Option.getD_some, List.flatten_cons,
        List.append_assoc]
      exact List.perm_append_comm.append_left a
    | succ i =>
      simp only [List.set_cons_succ, List.getElem?_cons_succ, List.flatten_cons, List.append_assoc]
      exact (ih (Nat.lt_of_succ_lt_succ hi)).append_left a

/-- **What a function that gives up datagrams does**: what is no longer held has been released. -/
structure Releases (s s' : ReassLedger ι) (freed : List ι) : Prop where
  fits : s'.Fits
  perm : s.held.Perm (s'.held ++ freed)

theorem Releases.refl (hs : s.Fits) : Releases s s [] := ⟨hs, by simp⟩

theorem Releases.trans {t : ReassLedger ι} {freed' : List ι} (h : Releases s t freed)
    (h' : Releases t s' freed') : Releases s s' (freed ++ freed') := by
  refine ⟨h'.fits, h.perm.trans ((h'.perm.append_right freed).trans ?_)⟩
  rw [List.append_assoc]
  exact List.perm_append_comm.append_left _

theorem releases_freeCompleteDatagram (hs : s.Fits) {prev : Option ℕ}
    (hcall : s.freeCompleteDatagram i prev = some (n, s', freed)) : Releases s s' freed := by
  obtain ⟨⟨m, t⟩, hfree, heq⟩ := Option.map_eq_some_iff.1 hcall
  obtain ⟨rfl, hrest⟩ := Prod.mk.inj heq
  obtain ⟨rfl, rfl⟩ := Prod.mk.inj hrest
  exact ⟨hs.eraseIdx i (Reass.freeCompleteDatagram_datagrams hfree) rfl,
    perm_flatten_eraseIdx s.owners i⟩

theorem releases_removeOldestDatagram (hs : s.Fits)
    (hcall : removeOldestDatagram h needed fuel count s = some (n, s', freed)) :
    Releases s s' freed := by
  induction fuel generalizing s count n s' freed with
  | zero => cases hcall
  | succ fuel ih =>
    rw [removeOldestDatagram] at hcall
    split at hcall
    · cases hcall
      exact Releases.refl hs
    · obtain ⟨⟨m, t, freed'⟩, hfree, hcall⟩ := Option.bind_eq_some_iff.1 hcall
      have hrel := releases_freeCompleteDatagram hs hfree
      split_ifs at hcall
      · obtain ⟨⟨m', t', freed''⟩, hrem, heq⟩ := Option.map_eq_some_iff.1 hcall
        cases heq
        exact hrel.trans (ih hrel.fits hrem)
      · cases hcall
        exact hrel

theorem releases_makeRoom (hs : s.Fits) {b : Bool}
    (hcall : s.makeRoom p = some (b, s', freed)) : Releases s s' freed := by
  simp only [makeRoom] at hcall
  split_ifs at hcall
  · obtain ⟨⟨m, t, freed'⟩, hrem, heq⟩ := Option.map_eq_some_iff.1 hcall
    cases heq
    exact releases_removeOldestDatagram hs hrem
  · cases hcall
    exact Releases.refl hs

/-- A new datagram holds nothing. -/
theorem Fits.enqueue (hs : s.Fits) : Fits (⟨{ s.reass with
    datagrams := ⟨[], h, 0, false, ipReassMaxage⟩ :: s.reass.datagrams }, [] :: s.owners⟩ :
    ReassLedger ι) := by
  show List.map List.length ([] :: s.owners) = _
  rw [List.map_cons, List.map_cons, hs]
  rfl

theorem releases_enqueueNewDatagram (hs : s.Fits) {b : Bool}
    (hcall : s.enqueueNewDatagram h n = some (b, s', freed)) : Releases s s' freed := by
  simp only [enqueueNewDatagram] at hcall
  split_ifs at hcall
  · cases hcall
    exact ⟨hs.enqueue, by simp [held]⟩
  · obtain ⟨⟨m, t, freed'⟩, hrem, heq⟩ := Option.map_eq_some_iff.1 hcall
    have hrel := releases_removeOldestDatagram hs hrem
    split_ifs at heq <;> cases heq
    · exact ⟨hrel.fits.enqueue, hrel.perm⟩
    · exact hrel

theorem releases_tmrLoop {done todo : List ReassData} {doneOwners owners : List (List ι)}
    (hdone : doneOwners.map List.length = done.map pbufCount)
    (htodo : owners.map List.length = todo.map pbufCount)
    (hcall : tmrLoop done doneOwners todo owners count = some (s', freed)) :
    s'.Fits ∧ (doneOwners.flatten ++ owners.flatten).Perm (s'.held ++ freed) := by
  induction todo generalizing done doneOwners owners count s' freed with
  | nil =>
    obtain rfl := List.map_eq_nil_iff.1 htodo
    cases hcall
    exact ⟨hdone, by simp [held]⟩
  | cons r rs ih =>
    obtain ⟨o, os, rfl, ho, hos⟩ := List.map_eq_cons_iff.1 htodo
    rw [tmrLoop] at hcall
    by_cases htimer : 0 < r.timer
    · rw [if_pos htimer] at hcall
      have hdone' : (doneOwners ++ [o]).map List.length =
          (done ++ [{ r with timer := r.timer - 1 }]).map pbufCount := by
        rw [List.map_append, List.map_append, hdone, List.map_singleton, ho]
        rfl
      have hnext := ih hdone' hos hcall
      simpa [List.append_assoc] using hnext
    · rw [if_neg htimer] at hcall
      obtain ⟨⟨m, t, freed'⟩, hfree, hcall⟩ := Option.bind_eq_some_iff.1 hcall
      obtain ⟨⟨t', freed''⟩, hloop, heq⟩ := Option.map_eq_some_iff.1 hcall
      cases heq
      obtain ⟨hfits, hperm⟩ := ih hdone hos hloop
      -- what the datagram held is what was released
      have hfreed : freed' = o := by
        obtain ⟨⟨m', t''⟩, -, heq⟩ := Option.map_eq_some_iff.1 hfree
        cases heq
        have hlen : done.length = doneOwners.length := by
          have := congrArg List.length hdone
          simpa using this.symm
        simp [hlen]
      refine ⟨hfits, ?_⟩
      rw [hfreed, List.flatten_cons]
      calc List.Perm (doneOwners.flatten ++ (o ++ os.flatten))
            ((doneOwners.flatten ++ os.flatten) ++ o) := by
            rw [List.append_assoc]
            exact List.perm_append_comm.append_left _
        List.Perm _ ((t'.held ++ freed'') ++ o) := hperm.append_right o
        List.Perm _ (t'.held ++ (o ++ freed'')) := by
            rw [List.append_assoc]
            exact List.perm_append_comm.append_left _

/-- **A tick** releases what it gives up. -/
theorem releases_ipReassTmr (hs : s.Fits) (hcall : s.ipReassTmr = some (s', freed)) :
    Releases s s' freed := by
  have hdone : ([] : List (List ι)).map List.length = ([] : List ReassData).map pbufCount := rfl
  obtain ⟨hfits, hperm⟩ := releases_tmrLoop hdone hs hcall
  rw [List.flatten_nil, List.nil_append] at hperm
  exact ⟨hfits, hperm⟩

/-- **What becomes of the pbufs of a fragment**, and of those in the queue: they are in the queue, have
been released, or are given back, in exactly one of these. -/
structure Conserves (s s' : ReassLedger ι) (ids freed : List ι)
    (o : Option (IpPacket × List ι)) : Prop where
  fits : s'.Fits
  perm : (s.held ++ ids).Perm (s'.held ++ freed ++ (o.map Prod.snd).getD [])

theorem Releases.conserves {t : ReassLedger ι} {freed' : List ι} {o : Option (IpPacket × List ι)}
    (h : Releases s t freed) (h' : Conserves t s' ids freed' o) :
    Conserves s s' ids (freed ++ freed') o := by
  refine ⟨h'.fits, (h.perm.append_right ids).trans ?_⟩
  calc List.Perm (t.held ++ freed ++ ids) (freed ++ (t.held ++ ids)) := by
        rw [← List.append_assoc]
        exact List.perm_append_comm.append_right _
    List.Perm _ (freed ++ (s'.held ++ freed' ++ (o.map Prod.snd).getD [])) := h'.perm.append_left _
    List.Perm _ (s'.held ++ (freed ++ freed') ++ (o.map Prod.snd).getD []) := by
        simp only [← List.append_assoc]
        exact (List.perm_append_comm.append_right _).append_right _

/-- A fragment that is released on the way out. -/
theorem Releases.drop (h : Releases s s' freed) (ids : List ι) :
    Conserves s s' ids (freed ++ ids) none := by
  refine ⟨h.fits, (h.perm.append_right ids).trans ?_⟩
  simp

/-- **What a fragment does to its datagram**: nothing, if it is thrown away; or it is put among the
others, and then it may complete the datagram. -/
theorem reassAt_cases {t t' : Reass} {o : Option IpPacket} (hcall : t.reassAt p i d = some (o, t')) :
    (Reass.place (Reass.helper p) [] true d.frags = some .dropped ∧ o = none ∧
      ∃ d', t'.datagrams = t.datagrams.set i d' ∧ d'.frags = d.frags) ∨
    ∃ pre post v, Reass.place (Reass.helper p) [] true d.frags = some (.kept pre post v) ∧
      ((o = none ∧ ∃ d', t'.datagrams = t.datagrams.set i d' ∧
        d'.frags = pre ++ Reass.helper p :: post) ∨
        o ≠ none ∧ t'.datagrams = t.datagrams.eraseIdx i) := by
  obtain ⟨ch, hplace, hcall⟩ := Option.bind_eq_some_iff.1
    (show (Reass.place (Reass.helper p) [] true (Reass.noteLast d p).frags).bind _ = _ from hcall)
  rw [Reass.noteLast_frags] at hplace
  cases ch with
  | dropped =>
    cases hcall
    exact Or.inl ⟨hplace, rfl, Reass.noteLast d p, rfl, Reass.noteLast_frags d p⟩
  | kept pre post v =>
    refine Or.inr ⟨pre, post, v, hplace, ?_⟩
    obtain ⟨ok, -, hcall⟩ := Option.bind_eq_some_iff.1
      (show (Reass.validate (Reass.noteLast d p) (Reass.helper p) pre post v).bind _ = _ from hcall)
    cases ok with
    | false =>
      cases hcall
      exact Or.inl ⟨rfl, { Reass.noteLast d p with frags := pre ++ Reass.helper p :: post }, rfl, rfl⟩
    | true =>
      obtain ⟨r, -, heq⟩ := Option.map_eq_some_iff.1
        (show (Reass.assemble (Reass.noteLast d p) (pre ++ Reass.helper p :: post)).map _ = _
          from hcall)
      cases heq
      exact Or.inr ⟨by simp, rfl⟩

/-- The names fit after a datagram got another fragment, or none. -/
theorem Fits.set (hs : s.Fits) {t : ReassLedger ι} {d₀ d' : ReassData}
    (hd : s.reass.datagrams[i]? = some d₀) (hds : t.reass.datagrams = s.reass.datagrams.set i d')
    (howners : t.owners = s.owners.set i ((s.owners[i]?).getD [] ++ ids))
    (hcount : pbufCount d' = pbufCount d₀ + ids.length) : t.Fits := by
  have hi : ((s.owners[i]?).getD []).length = pbufCount d₀ := by
    have hget := congrArg (fun l ↦ l[i]?) hs
    simp only [List.getElem?_map, hd, Option.map_some] at hget
    obtain ⟨o, ho, hlen⟩ := Option.map_eq_some_iff.1 hget
    rw [ho, Option.getD_some, hlen]
  rw [Fits, hds, howners, List.map_set, List.map_set, hs, List.length_append, hi, hcount]

/-- **One fragment, once its datagram is known.** -/
theorem conserves_reassAt (hs : s.Fits) {d₀ : ReassData} {o : Option (IpPacket × List ι)}
    (hd : s.reass.datagrams[i]? = some d₀) (hfrags : d.frags = d₀.frags)
    (hids : ids.length = p.pbufs.length) (hcall : s.reassAt p ids i d = some (o, s', freed)) :
    Conserves s s' ids freed o := by
  have hi : i < s.owners.length := by
    rw [hs.length_eq]
    exact (List.getElem?_eq_some_iff.1 hd).1
  obtain ⟨⟨r, t⟩, hreass, heq⟩ := Option.map_eq_some_iff.1 hcall
  rcases reassAt_cases hreass with ⟨hplace, rfl, d', hds, hd'⟩ |
    ⟨pre, post, v, hplace, ⟨rfl, d', hds, hd'⟩ | ⟨hr, hds⟩⟩
  · -- thrown away
    simp only [hplace] at heq
    cases heq
    refine ⟨?_, by simp [held]⟩
    have hnothing : s.owners = s.owners.set i ((s.owners[i]?).getD [] ++ []) := by
      rw [List.append_nil, List.getElem?_eq_getElem hi, Option.getD_some, List.set_getElem_self]
    exact hs.set hd hds hnothing (by rw [pbufCount, hd', hfrags]; rfl)
  · -- kept
    simp only [hplace] at heq
    cases heq
    obtain ⟨hsplit, -⟩ := Reass.place_kept hplace (fun _ ↦ List.isChain_nil) (by simp)
    rw [List.nil_append] at hsplit
    refine ⟨hs.set hd hds rfl ?_, ?_⟩
    · rw [pbufCount, hd', hids, pbufCount, ← hfrags, ← hsplit]
      simp only [List.map_append, List.map_cons, List.sum_append, List.sum_cons]
      show _ + (p.pbufs.length + _) = _
      omega
    · simpa [held] using perm_flatten_set hi ids
  · -- the datagram is complete
    obtain ⟨q, rfl⟩ := Option.ne_none_iff_exists'.1 hr
    simp only at heq
    cases heq
    refine ⟨hs.eraseIdx i hds rfl, ?_⟩
    have hperm := (perm_flatten_eraseIdx s.owners i).append_right ids
    simpa [held, List.append_assoc] using hperm

/-- **One fragment**: its pbufs, and those in the queue, are conserved. -/
theorem ipReass_conserves (hs : s.Fits) {o : Option (IpPacket × List ι)}
    (hids : ids.length = p.pbufs.length) (hcall : s.ipReass p ids = some (o, s', freed)) :
    Conserves s s' ids freed o := by
  rw [ipReass] at hcall
  split_ifs at hcall
  · cases hcall
    exact (Releases.refl hs).drop ids
  obtain ⟨⟨b, t, freed₁⟩, hroom, hcall⟩ := Option.bind_eq_some_iff.1 hcall
  have hrel := releases_makeRoom hs hroom
  cases b with
  | false =>
    cases hcall
    exact hrel.drop ids
  | true =>
    simp only at hcall
    split at hcall
    · next i _ =>
      obtain ⟨d, hd, hcall⟩ := Option.bind_eq_some_iff.1 hcall
      obtain ⟨⟨o', t', freed₂⟩, hreass, heq⟩ := Option.map_eq_some_iff.1 hcall
      cases heq
      have hfrags : (Reass.adoptHdr d p.hdr).frags = d.frags := by
        rw [Reass.adoptHdr]
        split_ifs <;> rfl
      exact hrel.conserves (conserves_reassAt hrel.fits hd hfrags hids hreass)
    · obtain ⟨⟨b, t', freed₂⟩, henq, hcall⟩ := Option.bind_eq_some_iff.1 hcall
      have hrel' := hrel.trans (releases_enqueueNewDatagram hrel.fits henq)
      cases b with
      | false =>
        cases hcall
        exact hrel'.drop ids
      | true =>
        obtain ⟨d, hd, hcall⟩ := Option.bind_eq_some_iff.1 hcall
        obtain ⟨⟨o', t'', freed₃⟩, hreass, heq⟩ := Option.map_eq_some_iff.1 hcall
        cases heq
        exact hrel'.conserves (conserves_reassAt hrel'.fits hd rfl hids hreass)

/-- What is given back contains the fragment. -/
theorem length_le_of_ipReass {r : IpPacket} {back : List ι}
    (hcall : s.ipReass p ids = some (some (r, back), s', freed)) : ids.length ≤ back.length := by
  have hreass : ∀ {t : ReassLedger ι} {i d freed'},
      t.reassAt p ids i d = some (some (r, back), s', freed') → ids.length ≤ back.length := by
    intro t i d freed' h
    obtain ⟨⟨o, t'⟩, -, heq⟩ := Option.map_eq_some_iff.1 h
    split at heq
    · cases heq
      rw [List.length_append]
      exact Nat.le_add_left _ _
    · cases heq
    · cases heq
  rw [ipReass] at hcall
  split_ifs at hcall
  · cases hcall
  obtain ⟨⟨b, t, freed₁⟩, -, hcall⟩ := Option.bind_eq_some_iff.1 hcall
  cases b with
  | false => cases hcall
  | true =>
    simp only at hcall
    split at hcall
    · obtain ⟨d, -, hcall⟩ := Option.bind_eq_some_iff.1 hcall
      obtain ⟨⟨o, t', freed₂⟩, hre, heq⟩ := Option.map_eq_some_iff.1 hcall
      cases heq
      exact hreass hre
    · obtain ⟨⟨b, t', freed₂⟩, -, hcall⟩ := Option.bind_eq_some_iff.1 hcall
      cases b with
      | false => cases hcall
      | true =>
        obtain ⟨d, -, hcall⟩ := Option.bind_eq_some_iff.1 hcall
        obtain ⟨⟨o, t'', freed₃⟩, hre, heq⟩ := Option.map_eq_some_iff.1 hcall
        cases heq
        exact hreass hre

end ReassLedger

end Lwip.Ipv4
