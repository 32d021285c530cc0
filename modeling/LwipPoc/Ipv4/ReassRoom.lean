import LwipPoc.Ipv4.ReassIsolation
import LwipPoc.Ipv4.ReassOldest

/-!
# Room for a fragment

A fragment finds room if there is room already, or if enough can be given up for it. The latter works as long as the
fragment's own datagram is in front of all others, since then each round of `ip_reass_remove_oldest_datagram` gives up
the last datagram on the list: `removeOldest_evicts`. All others are given up if it takes that, so in the end it is
only the pbufs of the own datagram that count (`Leading.finds`).
-/

namespace Lwip.Ipv4

open Lwip.Core

namespace Reass

variable {s s' t : Reass} {p : IpPacket} {d : ReassData} {h : IpHdr} {ds : List ReassData} {i n needed fuel : ℕ}
  {o : Option IpPacket}

/-- There is room for a fragment, without a datagram being given up. -/
def Room (s : Reass) (p : IpPacket) : Prop :=
  s.pbufcount + pbufClen p.pbufs ≤ ipReassMaxPbufs ∧
    (s.datagramOf p = none → s.datagrams.length < mempNumReassdata)

/-- **A fragment finds room**, whatever is given up for it. -/
def Finds (s : Reass) (p : IpPacket) : Prop :=
  ∃ s₁, s.makeRoom p = some (true, s₁) ∧ (matching p.hdr s.datagrams = [] →
    ∃ s₂, s₁.enqueueNewDatagram p.hdr (pbufClen p.pbufs) = some (true, s₂))

theorem Room.makeRoom (hroom : Room s p) : s.makeRoom p = some (true, s) := by
  rw [Reass.makeRoom]
  exact if_neg (Nat.not_lt_of_le hroom.1)

theorem enqueue_of_lt (hlt : s.datagrams.length < mempNumReassdata) (p : IpPacket) (n : ℕ) :
    s.enqueueNewDatagram p.hdr n = some (true, { s with datagrams := freshDatagram p :: s.datagrams }) := by
  rw [enqueueNewDatagram]
  exact if_pos hlt

theorem Room.finds (hroom : Room s p) : Finds s p := by
  refine ⟨s, hroom.makeRoom, fun hnone ↦ ⟨_, enqueue_of_lt (hroom.2 ?_) p _⟩⟩
  rw [datagramOf_eq_head?, hnone, List.head?_nil]

/-! ### What is given up -/

/-- The fragment's own datagram is in front of all others. -/
def Leading (h : IpHdr) (s : Reass) : Prop := s.datagrams.Pairwise fun a b ↦
  addressesAndIdMatch b.iphdr h = true → addressesAndIdMatch a.iphdr h = true

/-- **The list in a run**: counted, in the order of age, and no longer than it can be. -/
structure Sized (s : Reass) : Prop where
  counted : Counted s
  aged : Aged s
  pos : ∀ d ∈ s.datagrams, 0 < clenSum d
  few : s.datagrams.length ≤ mempNumReassdata

theorem length_le_total (hpos : ∀ d ∈ ds, 0 < clenSum d) : ds.length ≤ total ds := by
  have hle := List.length_le_sum_of_one_le (ds.map clenSum) fun n hn ↦ by
    obtain ⟨d, hd, rfl⟩ := List.mem_map.1 hn
    exact hpos d hd
  rwa [List.length_map] at hle

/-- The fragment's own, and the others. -/
theorem total_matching_add_others (h : IpHdr) (ds : List ReassData) :
    total (matching h ds) + total (others h ds) = total ds := by
  have hperm := (List.filter_append_perm (fun d : ReassData ↦ addressesAndIdMatch d.iphdr h) ds).map clenSum
  rw [List.map_append] at hperm
  have hsum := hperm.sum_eq
  rwa [List.sum_append] at hsum

theorem matching_eq_self (hnone : others h ds = []) : matching h ds = ds :=
  List.filter_eq_self.2 fun d hd ↦ by
    by_contra hne
    exact absurd (mem_others.2 ⟨hd, by simpa using hne⟩) (by simp [hnone])

/-- Something other than the fragment's own is freed. -/
theorem freeCompleteDatagram_eq {prev : Option ℕ} (hfree : s.freeCompleteDatagram i prev = some (n, t)) :
    ∃ d, s.datagrams[i]? = some d ∧ n = clenSum d ∧ clenSum d ≤ s.pbufcount ∧
      t = ⟨s.datagrams.eraseIdx i, s.pbufcount - clenSum d⟩ := by
  rw [freeCompleteDatagram] at hfree
  split at hfree
  · cases hfree
  · next d hd =>
    split_ifs at hfree with hchecks
    cases hfree
    exact ⟨d, hd, rfl, hchecks.2.2.2.2.2, rfl⟩

/-- What a round gives up. -/
theorem removeRound_cases (hround : s.removeRound h = some (n, t)) :
    (others h s.datagrams = [] ∧ n = 0 ∧ t = s) ∨
      ∃ i d prev, s.datagrams[i]? = some d ∧ addressesAndIdMatch d.iphdr h = false ∧
        s.freeCompleteDatagram i prev = some (n, t) := by
  rw [removeRound] at hround
  rcases findOldest_cases h s.datagrams with ⟨hfind, hnone⟩ | ⟨i, d, hfind, hl⟩
  · split at hround
    · cases hround
      exact .inl ⟨hnone, rfl, rfl⟩
    · next j m hsome =>
      rw [hsome] at hfind
      cases hfind
  · split at hround
    · next m hnone =>
      rw [hnone] at hfind
      cases hfind
    · next j m hsome =>
      rw [hsome] at hfind
      cases hfind
      exact .inr ⟨i, d, _, hl.get, hl.other, hround⟩

/-- What has been given up for a fragment. -/
structure Evicts (h : IpHdr) (s : Reass) (n : ℕ) (t : Reass) : Prop where
  sized : Sized t
  leading : Leading h t
  count : n + t.pbufcount = s.pbufcount
  fewer : others h s.datagrams ≠ [] → 0 < n ∧ t.datagrams.length < s.datagrams.length

theorem Sized.free {prev : Option ℕ} (hs : Sized s) (hfree : s.freeCompleteDatagram i prev = some (n, t)) :
    Sized t := by
  have hsub : t.datagrams.Sublist s.datagrams := freeCompleteDatagram_datagrams hfree ▸ List.eraseIdx_sublist _ _
  exact ⟨(hs.counted.free hfree).1, hs.aged.free hfree, fun d hd ↦ hs.pos d (hsub.subset hd),
    hsub.length_le.trans hs.few⟩

/-- **One round**, for a datagram in front of all others. -/
theorem Leading.removeRound (hl : Leading h s) (hs : Sized s) :
    ∃ n t, s.removeRound h = some (n, t) ∧ Evicts h s n t ∧
      (others h s.datagrams).length = (others h t.datagrams).length + if 0 < n then 1 else 0 := by
  have hworks : s.RemovesOldest h := (hs.counted.removesOldest_iff_last h).2 (by
    rcases hothers : others h s.datagrams with _ | ⟨e, es⟩
    · exact .inl rfl
    · -- the last one is not the fragment's own, since there are others
      obtain ⟨he, hother⟩ := mem_others.1 (hothers ▸ List.mem_cons_self : e ∈ others h s.datagrams)
      obtain ⟨front, d, hfront⟩ := (List.eq_nil_or_concat' s.datagrams).resolve_left (List.ne_nil_of_mem he)
      have hlast : s.datagrams.getLast? = some d := by rw [hfront, List.getLast?_concat]
      refine .inr ⟨d, hlast, Bool.eq_false_iff.2 fun hd ↦ ?_, fun x hx ↦ ?_⟩
      · rw [Leading, hfront, List.pairwise_append] at hl
        rw [hfront, List.mem_append, List.mem_singleton] at he
        rcases he with he | rfl
        · rw [hl.2.2 e he d (List.mem_singleton_self d) hd] at hother
          cases hother
        · rw [hd] at hother
          cases hother
      · exact hs.aged.last_le hlast (mem_others.1 (hothers ▸ hx)).1)
  obtain ⟨n, t, hround, -⟩ := hworks
  refine ⟨n, t, hround, ?_⟩
  rcases removeRound_cases hround with ⟨hnone, rfl, rfl⟩ | ⟨i, d, prev, hi, hother, hfree⟩
  · exact ⟨⟨hs, hl, Nat.zero_add _, fun hsome ↦ absurd hnone hsome⟩, rfl⟩
  obtain ⟨d', hi', rfl, hle, rfl⟩ := freeCompleteDatagram_eq hfree
  obtain rfl := Option.some.inj (hi.symm.trans hi')
  have hpos := hs.pos d (List.mem_of_getElem? hi)
  have hlen := List.length_eraseIdx_of_lt (List.getElem?_eq_some_iff.1 hi).1
  refine ⟨⟨hs.free hfree, hl.sublist (List.eraseIdx_sublist _ _), Nat.add_sub_of_le hle, fun _ ↦ ⟨hpos, ?_⟩⟩, ?_⟩
  · have := (List.getElem?_eq_some_iff.1 hi).1
    dsimp only
    omega
  · rw [if_pos hpos]
    have hperm := (List.getElem_cons_eraseIdx_perm (List.getElem?_eq_some_iff.1 hi).1).filter
      fun d ↦ !addressesAndIdMatch d.iphdr h
    rw [(List.getElem?_eq_some_iff.1 hi).2, List.filter_cons_of_pos (by simpa using hother)] at hperm
    exact hperm.length_eq.symm

/-- **All rounds** of a call. -/
theorem removeOldestDatagram_evicts (hl : Leading h s) (hs : Sized s) (needed freed : ℕ)
    (hfuel : (others h s.datagrams).length < fuel) :
    ∃ n t, removeOldestDatagram h needed fuel freed s = some (freed + n, t) ∧ Evicts h s n t ∧
      (needed ≤ freed + n ∨ others h t.datagrams = []) := by
  induction fuel generalizing s freed with
  | zero => exact absurd hfuel (Nat.not_lt_zero _)
  | succ fuel ih =>
    obtain ⟨n, t, hround, hev, hcount⟩ := hl.removeRound hs
    rw [removeOldestDatagram_succ, hround, Option.bind_some]
    dsimp only
    by_cases hmore : freed + n < needed ∧ 1 < (others h s.datagrams).length
    · rw [if_pos hmore]
      have hsome : others h s.datagrams ≠ [] := List.ne_nil_of_length_pos (Nat.zero_lt_of_lt hmore.2)
      obtain ⟨hpos, hlt⟩ := hev.fewer hsome
      rw [if_pos hpos] at hcount
      obtain ⟨m, u, hrest, hev', henough⟩ := ih hev.leading hev.sized (freed + n) (by omega)
      refine ⟨n + m, u, by rw [hrest, Nat.add_assoc], ⟨hev'.sized, hev'.leading, ?_, fun _ ↦ ⟨by omega, ?_⟩⟩,
        by rwa [← Nat.add_assoc]⟩
      · have := hev.count
        have := hev'.count
        omega
      · rcases hrest' : others h t.datagrams with _ | ⟨e, es⟩
        · rw [hrest'] at hcount
          exact absurd hmore.2 (by simp [hcount])
        · exact (hev'.fewer (by simp [hrest'])).2.trans hlt
    · rw [if_neg hmore]
      refine ⟨n, t, rfl, hev, ?_⟩
      rcases Nat.lt_or_ge (freed + n) needed with hlt | hge
      · -- the last one of the others was given up
        refine .inr (List.length_eq_zero_iff.1 ?_)
        rcases hothers : others h s.datagrams with _ | ⟨e, es⟩
        · rw [hothers, List.length_nil] at hcount
          omega
        · rw [if_pos (hev.fewer (by simp [hothers])).1] at hcount
          have := fun hone ↦ hmore ⟨hlt, hone⟩
          omega
      · exact .inl hge

theorem removeOldest_evicts (hl : Leading h s) (hs : Sized s) (needed : ℕ) :
    ∃ n t, s.removeOldest h needed = some (n, t) ∧ Evicts h s n t ∧
      (needed ≤ n ∨ others h t.datagrams = []) := by
  have hfuel : (others h s.datagrams).length < s.datagrams.length + 1 :=
    Nat.lt_succ_of_le (List.length_filter_le _ _)
  obtain ⟨n, t, hrem, hev, henough⟩ := removeOldestDatagram_evicts hl hs needed 0 hfuel
  rw [Nat.zero_add] at hrem henough
  exact ⟨n, t, hrem, hev, henough⟩

/-! ### Room is found -/

/-- There is room for the pbufs. -/
theorem Leading.makeRoom (hl : Leading p.hdr s) (hs : Sized s)
    (hfits : total (matching p.hdr s.datagrams) + pbufClen p.pbufs ≤ ipReassMaxPbufs) :
    ∃ t, s.makeRoom p = some (true, t) ∧ Sized t ∧ Leading p.hdr t := by
  rcases Nat.lt_or_ge ipReassMaxPbufs (s.pbufcount + pbufClen p.pbufs) with hfull | hroom
  swap
  · exact ⟨s, by rw [Reass.makeRoom, if_neg (Nat.not_lt_of_ge hroom)], hs, hl⟩
  obtain ⟨n, t, hrem, hev, henough⟩ := removeOldest_evicts hl hs (pbufClen p.pbufs)
  have hown : matching p.hdr t.datagrams = matching p.hdr s.datagrams := (removeOldestDatagram_spec hrem).2
  have hcount := hev.count
  have hmax := hs.counted.le
  have htotal := total_matching_add_others p.hdr s.datagrams
  rw [← hs.counted.count] at htotal
  have hpos : 0 < n := (hev.fewer fun hnone ↦ by
    rw [hnone] at htotal
    have : total [] = 0 := rfl
    omega).1
  have hleft : t.pbufcount + pbufClen p.pbufs ≤ ipReassMaxPbufs := by
    rcases henough with hn | hnone
    · omega
    · rw [hev.sized.counted.count, ← matching_eq_self hnone, hown]
      exact hfits
  refine ⟨t, ?_, hev.sized, hev.leading⟩
  rw [Reass.makeRoom]
  rw [if_pos hfull, hrem, Option.map_some]
  simp only [ne_eq, Nat.not_lt, hpos.ne', not_false_eq_true, hleft, and_self, decide_true]

/-- There is room for a new datagram. -/
theorem Leading.enqueue (hl : Leading p.hdr s) (hs : Sized s) (hnone : matching p.hdr s.datagrams = [])
    (hroom : s.pbufcount + pbufClen p.pbufs ≤ ipReassMaxPbufs) :
    ∃ t, s.enqueueNewDatagram p.hdr (pbufClen p.pbufs) = some (true, t) := by
  rcases Nat.lt_or_ge s.datagrams.length mempNumReassdata with hlt | hge
  · exact ⟨_, enqueue_of_lt hlt p _⟩
  obtain ⟨n, t, hrem, hev, henough⟩ := removeOldest_evicts hl hs (pbufClen p.pbufs)
  have hle := length_le_total hs.pos
  rw [← hs.counted.count] at hle
  have hfew := hs.few
  have hcount := hev.count
  have hsome : others p.hdr s.datagrams ≠ [] := fun hothers ↦ by
    have heq := matching_eq_self hothers
    rw [hnone] at heq
    rw [← heq] at hge
    exact absurd hge (by decide)
  have hfewer := (hev.fewer hsome).2
  have hn : pbufClen p.pbufs ≤ n := by
    rcases henough with hn | hothers
    · exact hn
    · -- all were given up, each of which had a pbuf
      have hempty : t.datagrams = [] := by
        rw [← matching_eq_self hothers, (removeOldestDatagram_spec hrem).2, hnone]
      have hzero : t.pbufcount = 0 := by
        rw [hev.sized.counted.count, hempty]
        rfl
      have hmax : ipReassMaxPbufs = 10 := rfl
      have hmin : mempNumReassdata = 5 := rfl
      omega
  refine ⟨{ t with datagrams := freshDatagram p :: t.datagrams }, ?_⟩
  rw [enqueueNewDatagram, if_neg (Nat.not_lt_of_ge hge), hrem, Option.map_some]
  dsimp only
  rw [if_pos ⟨hn, hfewer.trans_le hfew⟩]
  rfl

/-- **A fragment whose datagram is in front of all others** finds room, if its datagram is not too large. -/
theorem Leading.finds (hl : Leading p.hdr s) (hs : Sized s)
    (hfits : total (matching p.hdr s.datagrams) + pbufClen p.pbufs ≤ ipReassMaxPbufs) : Finds s p := by
  obtain ⟨t, hmake, ht, hlt⟩ := hl.makeRoom hs hfits
  exact ⟨t, hmake, fun hnone ↦ hlt.enqueue ht ((makeRoom_spec hmake).2.trans hnone) (makeRoom_room hmake)⟩

/-! ### Every run -/

/-- What a fragment does to the list, once its datagram is known. -/
theorem reassAt_datagrams (hcall : s.reassAt p i d = some (o, s')) :
    (∃ d', d'.iphdr = d.iphdr ∧ s'.datagrams = s.datagrams.set i d') ∨
      s'.datagrams = s.datagrams.eraseIdx i := by
  obtain ⟨ch, -, hcall⟩ := Option.bind_eq_some_iff.1
    (show (place (helper p) [] true (noteLast d p).frags).bind _ = _ from hcall)
  rcases ch with _ | ⟨pre, post, v⟩
  · cases hcall
    exact .inl ⟨noteLast d p, noteLast_iphdr d p, rfl⟩
  · obtain ⟨ok, -, hcall⟩ := Option.bind_eq_some_iff.1
      (show (validate (noteLast d p) (helper p) pre post v).bind _ = _ from hcall)
    rcases ok with _ | _
    · cases hcall
      exact .inl ⟨{ noteLast d p with frags := pre ++ helper p :: post }, noteLast_iphdr d p, rfl⟩
    · obtain ⟨r, -, heq⟩ := Option.map_eq_some_iff.1
        (show (assemble (noteLast d p) (pre ++ helper p :: post)).map _ = _ from hcall)
      cases heq
      exact .inr rfl

theorem reassAt_length (hcall : s.reassAt p i d = some (o, s')) : s'.datagrams.length ≤ s.datagrams.length := by
  rcases reassAt_datagrams hcall with ⟨d', -, hs'⟩ | hs'
  · rw [hs', List.length_set]
  · rw [hs']
    exact (List.eraseIdx_sublist _ _).length_le

/-- A new datagram is there only if there was room for it. -/
theorem enqueueNewDatagram_length {b : Bool} (henq : s.enqueueNewDatagram p.hdr n = some (b, t)) :
    t.datagrams.length ≤ mempNumReassdata ∨ t.datagrams.length ≤ s.datagrams.length := by
  simp only [enqueueNewDatagram] at henq
  split_ifs at henq with hlt
  · cases henq
    exact .inl hlt
  · obtain ⟨⟨m, u⟩, hrem, heq⟩ := Option.map_eq_some_iff.1 henq
    dsimp only at heq
    split_ifs at heq with hlt
    · cases heq
      exact .inl hlt.2
    · cases heq
      exact .inr (removeOldestDatagram_spec hrem).1.length_le

theorem run_few {es : List Event} (hrun : runLabels anyStep es init = some s) :
    s.datagrams.length ≤ mempNumReassdata := by
  refine runLabels_invariant (I := fun s ↦ s.datagrams.length ≤ mempNumReassdata) (Nat.zero_le _)
    (fun e t t' ht hstep ↦ ?_) hrun
  rcases e with p | _
  · obtain ⟨⟨o, u⟩, hcall, rfl⟩ := Option.map_eq_some_iff.1 hstep
    rcases ipReass_cases hcall with ⟨-, rfl⟩ | ⟨-, hmake⟩ | ⟨s₁, -, hmake, hcall⟩
    · exact ht
    · exact (makeRoom_spec hmake).1.length_le.trans ht
    have ht₁ := (makeRoom_spec hmake).1.length_le.trans ht
    have henq : ∀ {b t}, s₁.enqueueNewDatagram p.hdr (pbufClen p.pbufs) = some (b, t) →
        t.datagrams.length ≤ mempNumReassdata := fun henq ↦
      (enqueueNewDatagram_length henq).elim id fun hle ↦ hle.trans ht₁
    rcases hcall with ⟨i, d, -, -, hcall⟩ | ⟨-, ⟨-, hfull⟩ | ⟨s₂, hnew, hcall⟩⟩
    · exact (reassAt_length hcall).trans ht₁
    · exact henq hfull
    · exact (reassAt_length hcall).trans (henq hnew)
  · -- a tick makes no datagrams
    have htimers := congrArg List.length (tmrLoop_timers (show tmrLoop [] t.datagrams t.pbufcount = some t' from hstep))
    have hle := List.length_filter_le (fun t ↦ decide (0 < t)) (t.datagrams.map ReassData.timer)
    simp only [timers, ticked, List.map_nil, List.nil_append, List.length_map] at htimers hle
    omega

theorem anyRun_isolated {es : List Event} (hrun : runLabels anyStep es init = some s) : Isolated es s := by
  refine runLabels_induction (I := Isolated) (fun d hd ↦ absurd hd List.not_mem_nil)
    (fun ls e u u' _ hu hstep ↦ ?_) hrun
  have hu' : Isolated (ls ++ [e]) u := hu.mono (List.subset_append_left _ _)
  rcases e with p | _
  · obtain ⟨⟨o, u₁⟩, hcall, rfl⟩ := Option.map_eq_some_iff.1 hstep
    exact (hu'.ipReass (by simp) hcall).1
  · exact tmrLoop_isolated (by simp) hu' hstep

/-- **The list in every run** in which each fragment has pbufs that count. -/
theorem run_sized {es : List Event} (hrun : runLabels anyStep es init = some s)
    (hpos : ∀ p, Event.input p ∈ es → 0 < pbufClen p.pbufs) : Sized s := by
  have hcounted := run_counted hrun
  refine ⟨hcounted, run_aged hrun, fun d hd ↦ ?_, run_few hrun⟩
  obtain ⟨q, qs, hfrags⟩ := List.exists_cons_of_ne_nil (hcounted.frags d hd)
  have hq := hpos _ (anyRun_isolated hrun d hd q (hfrags ▸ List.mem_cons_self)).1
  rw [clenSum, hfrags, List.map_cons, List.sum_cons]
  omega

end Reass

end Lwip.Ipv4
