import LwipPoc.Ipv4.ReassCount
import Mathlib.Logic.Relation

/-!
# Giving up the oldest datagram

When there is no room for a fragment, `ip_reass_remove_oldest_datagram` gives up datagrams in rounds. The
search of a round remembers the oldest datagram other than the fragment's own, and in `prev` the last
datagram that has a next one. This is the predecessor of **the last datagram on the list**, whatever the
oldest one is. So a round works if and only if the oldest one is the last (`Counted.removesOldest_iff_last`).

New datagrams are put in front, so the list is in the order of age in every run (`run_aged`), and the last
datagram is the oldest one unless it is the fragment's own: `removesOldest_iff`.
-/

namespace Lwip.Ipv4

open Lwip.Core

namespace Reass

variable {s s' t : Reass} {p : IpPacket} {d e : ReassData} {h : IpHdr} {ds : List ReassData} {i k n : ℕ}
  {o : Option IpPacket}

/-! ### The rounds -/

/-- One round of `ip_reass_remove_oldest_datagram`: the number of pbufs freed. -/
def removeRound (s : Reass) (fraghdr : IpHdr) : Option (ℕ × Reass) :=
  match findOldest fraghdr s.datagrams 0 none 0 with
  | (none, _) => some (0, s)
  | (some i, _) => s.freeCompleteDatagram i (searchPrev s.datagrams)

/-- What a round leaves, if it does not fail. -/
def RoundTo (h : IpHdr) (s t : Reass) : Prop := ∃ n, s.removeRound h = some (n, t)

/-- The datagrams other than the fragment's own. -/
def others (h : IpHdr) (ds : List ReassData) : List ReassData :=
  ds.filter fun d ↦ !addressesAndIdMatch d.iphdr h

theorem mem_others : d ∈ others h ds ↔ d ∈ ds ∧ addressesAndIdMatch d.iphdr h = false := by
  simp [others]

/-- **A round does what it is for**: no assertion fails, and if there are datagrams other than the
fragment's own, then one of the oldest of them is removed from the list, and nothing else. -/
def RemovesOldest (s : Reass) (h : IpHdr) : Prop :=
  ∃ n s', s.removeRound h = some (n, s') ∧
    (others h s.datagrams = [] ∧ s' = s ∨
      ∃ i d, s.datagrams[i]? = some d ∧ addressesAndIdMatch d.iphdr h = false ∧
        (∀ e ∈ others h s.datagrams, d.timer ≤ e.timer) ∧ s'.datagrams = s.datagrams.eraseIdx i)

/-! ### The search -/

/-- **What the search finds**: the last one of the oldest. -/
structure LastOldest (h : IpHdr) (ds : List ReassData) (i : ℕ) (d : ReassData) : Prop where
  get : ds[i]? = some d
  other : addressesAndIdMatch d.iphdr h = false
  le : ∀ e ∈ others h ds, d.timer ≤ e.timer
  lt : ∀ j e, i < j → ds[j]? = some e → addressesAndIdMatch e.iphdr h = false → d.timer < e.timer

theorem lastOldest_head (hd : addressesAndIdMatch d.iphdr h = false)
    (hlt : ∀ e ∈ others h ds, d.timer < e.timer) : LastOldest h (d :: ds) 0 d := by
  refine ⟨rfl, hd, fun e he ↦ ?_, fun j e hj he hother ↦ ?_⟩
  · obtain ⟨he, hother⟩ := mem_others.1 he
    rcases List.mem_cons.1 he with rfl | he
    · exact le_refl _
    · exact (hlt e (mem_others.2 ⟨he, hother⟩)).le
  · obtain ⟨j, rfl⟩ := Nat.exists_eq_succ_of_ne_zero hj.ne'
    exact hlt e (mem_others.2 ⟨List.mem_of_getElem? (by simpa using he), hother⟩)

theorem LastOldest.cons {r : ReassData} (hl : LastOldest h ds i d)
    (hr : addressesAndIdMatch r.iphdr h = false → d.timer ≤ r.timer) : LastOldest h (r :: ds) (i + 1) d := by
  refine ⟨by simpa using hl.get, hl.other, fun e he ↦ ?_, fun j e hj he hother ↦ ?_⟩
  · obtain ⟨he, hother⟩ := mem_others.1 he
    rcases List.mem_cons.1 he with rfl | he
    · exact hr hother
    · exact hl.le e (mem_others.2 ⟨he, hother⟩)
  · obtain ⟨j, rfl⟩ := Nat.exists_eq_succ_of_ne_zero (Nat.ne_of_gt (Nat.zero_lt_of_lt hj))
    exact hl.lt j e (by omega) (by simpa using he) hother

/-- **The search** from position `k` on, behind an oldest one that was found before. -/
theorem findOldest_last (h : IpHdr) (ds : List ReassData) (k : ℕ) (oldest : Option (ℕ × ℕ)) (n : ℕ) :
    ((findOldest h ds k oldest n).1 = oldest.map Prod.fst ∧
      ∀ e ∈ others h ds, ∃ j t, oldest = some (j, t) ∧ t < e.timer) ∨
    ∃ i d, (findOldest h ds k oldest n).1 = some (k + i) ∧ LastOldest h ds i d ∧
      ∀ j t, oldest = some (j, t) → d.timer ≤ t := by
  induction ds generalizing k oldest n with
  | nil => exact .inl ⟨rfl, by simp [others]⟩
  | cons r rs ih =>
    -- the rest, behind the one that is the oldest so far
    have hlater : ∀ i d, LastOldest h rs i d → ∀ {m}, m = some (k + 1 + i) →
        (addressesAndIdMatch r.iphdr h = false → d.timer ≤ r.timer) →
        (∀ j t, oldest = some (j, t) → d.timer ≤ t) →
        ∃ i d, m = some (k + i) ∧ LastOldest h (r :: rs) i d ∧
          ∀ j t, oldest = some (j, t) → d.timer ≤ t := fun i d hl m hm hr hold ↦
      ⟨i + 1, d, hm.trans (congrArg some (by omega)), hl.cons hr, hold⟩
    rcases hr : addressesAndIdMatch r.iphdr h with _ | _
    · -- another datagram, which may be the oldest so far
      have hnew : (∀ j t, oldest = some (j, t) → r.timer ≤ t) →
          ∃ i d, (findOldest h rs (k + 1) (some (k, r.timer)) (n + 1)).1 = some (k + i) ∧
            LastOldest h (r :: rs) i d ∧ ∀ j t, oldest = some (j, t) → d.timer ≤ t := by
        intro hold
        rcases ih (k + 1) (some (k, r.timer)) (n + 1) with ⟨hfind, hlt⟩ | ⟨i, d, hfind, hl, hle⟩
        · refine ⟨0, r, hfind, lastOldest_head hr fun e he ↦ ?_, hold⟩
          obtain ⟨j, t, heq, hlt⟩ := hlt e he
          cases heq
          exact hlt
        · have hd := hle k r.timer rfl
          exact hlater i d hl hfind (fun _ ↦ hd) fun j t heq ↦ hd.trans (hold j t heq)
      simp only [findOldest, hr, Bool.false_eq_true, if_false]
      rcases oldest with _ | ⟨j, t⟩
      · exact .inr (hnew (by simp))
      · dsimp only
        split_ifs with ht
        · refine .inr (hnew fun j' t' heq ↦ ?_)
          cases heq
          exact ht
        · have hlt : t < r.timer := Nat.lt_of_not_le ht
          rcases ih (k + 1) (some (j, t)) (n + 1) with ⟨hfind, hall⟩ | ⟨i, d, hfind, hl, hle⟩
          · refine .inl ⟨hfind, fun e he ↦ ?_⟩
            obtain ⟨he, hother⟩ := mem_others.1 he
            rcases List.mem_cons.1 he with rfl | he
            · exact ⟨j, t, rfl, hlt⟩
            · exact hall e (mem_others.2 ⟨he, hother⟩)
          · exact .inr (hlater i d hl hfind (fun _ ↦ (hle j t rfl).trans hlt.le) hle)
    · -- the fragment's own
      simp only [findOldest, hr, if_true]
      have hothers : others h (r :: rs) = others h rs := by simp [others, hr]
      rw [hothers]
      rcases ih (k + 1) oldest n with hnone | ⟨i, d, hfind, hl, hle⟩
      · exact .inl hnone
      · exact .inr (hlater i d hl hfind (by simp [hr]) hle)

/-- The search as it is called. -/
theorem findOldest_cases (h : IpHdr) (ds : List ReassData) :
    ((findOldest h ds 0 none 0).1 = none ∧ others h ds = []) ∨
      ∃ i d, (findOldest h ds 0 none 0).1 = some i ∧ LastOldest h ds i d := by
  rcases findOldest_last h ds 0 none 0 with ⟨hfind, hall⟩ | ⟨i, d, hfind, hl, -⟩
  · refine .inl ⟨hfind, List.eq_nil_iff_forall_not_mem.2 fun e he ↦ ?_⟩
    obtain ⟨j, t, heq, -⟩ := hall e he
    cases heq
  · exact .inr ⟨i, d, hfind.trans (congrArg some (Nat.zero_add i)), hl⟩

theorem findOldest_snd (h : IpHdr) (ds : List ReassData) (k : ℕ) (oldest : Option (ℕ × ℕ)) (n : ℕ) :
    (findOldest h ds k oldest n).2 = n + (others h ds).length := by
  induction ds generalizing k oldest n with
  | nil => rfl
  | cons r rs ih =>
    simp only [findOldest]
    split_ifs with hr
    · rw [ih]
      simp [others, hr]
    · have hlen : (others h (r :: rs)).length = (others h rs).length + 1 := by simp [others, hr]
      rw [hlen]
      split
      · rw [ih]
        omega
      · split_ifs <;> rw [ih] <;> omega

/-- **The loop is made of rounds**, as long as there are more of the others. -/
theorem removeOldestDatagram_succ (h : IpHdr) (needed fuel freed : ℕ) (s : Reass) :
    removeOldestDatagram h needed (fuel + 1) freed s = (s.removeRound h).bind fun r ↦
      if freed + r.1 < needed ∧ 1 < (others h s.datagrams).length then
        removeOldestDatagram h needed fuel (freed + r.1) r.2
      else some (freed + r.1, r.2) := by
  have hsnd := findOldest_snd h s.datagrams 0 none 0
  rw [Nat.zero_add] at hsnd
  rw [removeOldestDatagram, removeRound]
  rcases hfind : findOldest h s.datagrams 0 none 0 with ⟨_ | i, n⟩
  · have hnone : others h s.datagrams = [] := by
      rcases findOldest_cases h s.datagrams with ⟨-, hnone⟩ | ⟨i, d, hsome, -⟩
      · exact hnone
      · rw [hfind] at hsome
        cases hsome
    simp [hnone]
  · rw [hfind] at hsnd
    dsimp only at hsnd ⊢
    rw [hsnd]

/-! ### One round -/

/-- The predecessor that is passed on is that of the last datagram. -/
theorem searchPrev_iff (hi : i < ds.length) :
    (searchPrev ds ≠ some i ∧ (∀ j ∈ searchPrev ds, j + 1 = i) ∧ (i ≠ 0 → searchPrev ds ≠ none)) ↔
      i + 1 = ds.length := by
  rw [searchPrev]
  split_ifs with hlen
  · simp only [ne_eq, Option.some.injEq, Option.mem_def, forall_eq', reduceCtorEq, not_false_eq_true,
      implies_true, and_true]
    omega
  · simp only [ne_eq, reduceCtorEq, not_false_eq_true, Option.mem_def, IsEmpty.forall_iff, implies_true,
      not_true_eq_false, imp_false, true_and, not_not]
    omega

/-- **One round**: it works if and only if there are no other datagrams, or the last one on the list is one
of the oldest of them. -/
theorem Counted.removesOldest_iff_last (hs : Counted s) (h : IpHdr) :
    s.RemovesOldest h ↔ others h s.datagrams = [] ∨
      ∃ d, s.datagrams.getLast? = some d ∧ addressesAndIdMatch d.iphdr h = false ∧
        ∀ e ∈ others h s.datagrams, d.timer ≤ e.timer := by
  rcases findOldest_cases h s.datagrams with ⟨hfind, hnone⟩ | ⟨i, d, hfind, hl⟩
  · have hround : s.removeRound h = some (0, s) := by
      rw [removeRound]
      split
      · rfl
      · next j n hsome =>
        rw [hsome] at hfind
        cases hfind
    exact ⟨fun _ ↦ .inl hnone, fun _ ↦ ⟨0, s, hround, .inl ⟨hnone, rfl⟩⟩⟩
  have hround : s.removeRound h = s.freeCompleteDatagram i (searchPrev s.datagrams) := by
    rw [removeRound]
    split
    · next n hnone =>
      rw [hnone] at hfind
      cases hfind
    · next j n hsome =>
      rw [hsome] at hfind
      cases hfind
      rfl
  obtain ⟨hi, hd⟩ := List.getElem?_eq_some_iff.1 hl.get
  have hmem : d ∈ s.datagrams := List.mem_of_getElem? hl.get
  have hsome : others h s.datagrams ≠ [] := List.ne_nil_of_mem (mem_others.2 ⟨hmem, hl.other⟩)
  have hlast : s.datagrams.getLast? = s.datagrams[s.datagrams.length - 1]? := List.getLast?_eq_getElem?
  obtain ⟨hfrags, hlt, hle⟩ := hs.checks hmem
  constructor
  · rintro ⟨n, s', hfree, -⟩
    rw [hround, freeCompleteDatagram, hl.get] at hfree
    dsimp only at hfree
    split_ifs at hfree with hchecks
    have hend := (searchPrev_iff hi).1 ⟨hchecks.1, hchecks.2.1, hchecks.2.2.2.1⟩
    refine .inr ⟨d, ?_, hl.other, hl.le⟩
    rw [hlast, ← hl.get]
    congr 1
    omega
  · rintro (hnone | ⟨e, he, hother, hmin⟩)
    · exact absurd hnone hsome
    -- nothing behind the one that was found is as old
    have hend : i + 1 = s.datagrams.length := by
      by_contra hne
      have hlater := hl.lt (s.datagrams.length - 1) e (by omega) (hlast ▸ he) hother
      exact absurd (hmin d (mem_others.2 ⟨hmem, hl.other⟩)) (Nat.not_le_of_lt hlater)
    obtain ⟨hne, hprev, hfirst⟩ := (searchPrev_iff hi).2 hend
    have hfree : s.freeCompleteDatagram i (searchPrev s.datagrams) =
        some (clenSum d, ⟨s.datagrams.eraseIdx i, s.pbufcount - clenSum d⟩) := by
      rw [freeCompleteDatagram, hl.get]
      exact if_pos ⟨hne, hprev, hfrags, hfirst, hlt, hle⟩
    exact ⟨_, _, hround.trans hfree, .inr ⟨i, d, hl.get, hl.other, hl.le, rfl⟩⟩

/-! ### The order of age -/

/-- The timers of the datagrams. -/
def timers (s : Reass) : List ℕ := s.datagrams.map ReassData.timer

/-- **The list is in the order of age**, the youngest datagram in front. -/
structure Aged (s : Reass) : Prop where
  order : (timers s).Pairwise fun a b ↦ b ≤ a
  le : ∀ t ∈ timers s, t ≤ ipReassMaxage

theorem Aged.sublist (hs : Aged s) (hsub : (timers s').Sublist (timers s)) : Aged s' :=
  ⟨hs.order.sublist hsub, fun t ht ↦ hs.le t (hsub.subset ht)⟩

theorem Aged.free {prev : Option ℕ} (hs : Aged s) (hfree : s.freeCompleteDatagram i prev = some (n, s')) :
    Aged s' := by
  refine hs.sublist ?_
  rw [timers, freeCompleteDatagram_datagrams hfree]
  exact (List.eraseIdx_sublist _ _).map _

/-- What a fragment does to its datagram leaves the timer as it is. -/
theorem reassAt_timers {d₀ : ReassData} (hd : s.datagrams[i]? = some d₀) (htimer : d.timer = d₀.timer)
    (hcall : s.reassAt p i d = some (o, s')) : (timers s').Sublist (timers s) := by
  have hset : ∀ e : ReassData, e.timer = d₀.timer →
      ((s.datagrams.set i e).map ReassData.timer).Sublist (timers s) := by
    intro e he
    obtain ⟨hi, rfl⟩ := List.getElem?_eq_some_iff.1 hd
    have heq : (s.datagrams.set i e).map ReassData.timer = timers s := by
      refine List.ext_getElem (by simp [timers]) fun j _ _ ↦ ?_
      simp only [timers, List.getElem_map, List.getElem_set]
      split_ifs with hij
      · subst hij
        exact he
      · rfl
    exact heq ▸ List.Sublist.refl _
  have hnote : (noteLast d p).timer = d₀.timer := by
    rw [noteLast]
    split_ifs
    · exact htimer
    · exact htimer
  obtain ⟨ch, -, hcall⟩ := Option.bind_eq_some_iff.1
    (show (place (helper p) [] true (noteLast d p).frags).bind _ = _ from hcall)
  rcases ch with _ | ⟨pre, post, v⟩
  · cases hcall
    exact hset _ hnote
  · obtain ⟨ok, -, hcall⟩ := Option.bind_eq_some_iff.1
      (show (validate (noteLast d p) (helper p) pre post v).bind _ = _ from hcall)
    rcases ok with _ | _
    · cases hcall
      exact hset _ hnote
    · obtain ⟨r, -, heq⟩ := Option.map_eq_some_iff.1
        (show (assemble (noteLast d p) (pre ++ helper p :: post)).map _ = _ from hcall)
      cases heq
      exact (List.eraseIdx_sublist _ _).map _

theorem Aged.enqueue (hs : Aged s) (p : IpPacket) :
    Aged { s with datagrams := freshDatagram p :: s.datagrams } := by
  have htimers : timers { s with datagrams := freshDatagram p :: s.datagrams } =
      ipReassMaxage :: timers s := rfl
  refine ⟨?_, ?_⟩
  · rw [htimers, List.pairwise_cons]
    exact ⟨hs.le, hs.order⟩
  · rw [htimers]
    simpa using hs.le

/-- **One fragment.** -/
theorem Aged.ipReass (hs : Aged s) (hcall : s.ipReass p = some (o, s')) : Aged s' := by
  have hkeep : ∀ {s s' : Reass} {i prev n}, Aged s →
      freeCompleteDatagram s i prev = some (n, s') → Aged s' := fun h hfree ↦ h.free hfree
  rcases ipReass_cases hcall with ⟨-, rfl⟩ | ⟨-, hroom⟩ | ⟨s₁, -, hroom, hcall⟩
  · exact hs
  · exact makeRoom_keeps hkeep hs hroom
  have hs₁ := makeRoom_keeps hkeep hs hroom
  rcases hcall with ⟨i, d, hd, -, hcall⟩ | ⟨-, ⟨-, henq⟩ | ⟨s₂, henq, hcall⟩⟩
  · have htimer : (adoptHdr d p.hdr).timer = d.timer := by
      rw [adoptHdr]
      split_ifs <;> rfl
    exact hs₁.sublist (reassAt_timers hd htimer hcall)
  · obtain ⟨t, ht, rfl⟩ := enqueueNewDatagram_keeps hkeep hs₁ henq
    exact ht
  · obtain ⟨t, ht, rfl⟩ := enqueueNewDatagram_keeps hkeep hs₁ henq
    have hhead : (freshDatagram p :: t.datagrams)[0]? = some (freshDatagram p) := rfl
    exact (ht.enqueue p).sublist (reassAt_timers hhead rfl hcall)

/-- The timers that have not run out yet, one tick later. -/
def ticked (ts : List ℕ) : List ℕ := (ts.filter fun t ↦ 0 < t).map fun t ↦ t - 1

theorem tmrLoop_timers {done todo : List ReassData} {count : ℕ} (htmr : tmrLoop done todo count = some s') :
    timers s' = done.map ReassData.timer ++ ticked (todo.map ReassData.timer) := by
  induction todo generalizing done count with
  | nil =>
    cases htmr
    simp [timers, ticked]
  | cons r rs ih =>
    rw [tmrLoop] at htmr
    rcases Nat.eq_zero_or_pos r.timer with hr | hr
    · rw [if_neg (by omega)] at htmr
      obtain ⟨res, -, htmr⟩ := Option.bind_eq_some_iff.1 htmr
      rw [ih htmr]
      simp [ticked, hr]
    · rw [if_pos hr] at htmr
      rw [ih htmr]
      simp [ticked, hr]

/-- **A tick.** -/
theorem Aged.tmr (hs : Aged s) (htmr : s.ipReassTmr = some s') : Aged s' := by
  have htimers : timers s' = ticked (timers s) := by
    rw [tmrLoop_timers htmr]
    rfl
  refine ⟨?_, fun t ht ↦ ?_⟩
  · rw [htimers, ticked, List.pairwise_map]
    exact (hs.order.sublist List.filter_sublist).imp fun hle ↦ Nat.sub_le_sub_right hle 1
  · rw [htimers, ticked] at ht
    obtain ⟨u, hu, rfl⟩ := List.mem_map.1 ht
    exact (Nat.sub_le u 1).trans (hs.le u (List.mem_of_mem_filter hu))

theorem run_aged {es : List Event} (hrun : runLabels anyStep es init = some s) : Aged s := by
  refine runLabels_invariant (I := Aged) ⟨List.Pairwise.nil, by simp [timers, init]⟩
    (fun e t t' ht hstep ↦ ?_) hrun
  rcases e with p | _
  · obtain ⟨⟨o, u⟩, hcall, rfl⟩ := Option.map_eq_some_iff.1 hstep
    exact ht.ipReass hcall
  · exact ht.tmr hstep

/-- The last datagram on the list is as old as any. -/
theorem Aged.last_le (hs : Aged s) (hlast : s.datagrams.getLast? = some d) (he : e ∈ s.datagrams) :
    d.timer ≤ e.timer := by
  obtain ⟨front, hfront⟩ := List.getLast?_eq_some_iff.1 hlast
  have horder := hs.order
  rw [timers, hfront, List.map_append, List.pairwise_append] at horder
  rw [hfront, List.mem_append, List.mem_singleton] at he
  rcases he with he | rfl
  · exact horder.2.2 _ (List.mem_map_of_mem he) _ (by simp)
  · exact le_refl _

/-! ### Every round of every call -/

/-- What giving up a datagram keeps, a round keeps. -/
theorem RoundTo.keeps {I : Reass → Prop}
    (hfree : ∀ {s s' i prev n}, I s → freeCompleteDatagram s i prev = some (n, s') → I s')
    (hs : I s) (hround : RoundTo h s t) : I t := by
  obtain ⟨n, hround⟩ := hround
  rw [removeRound] at hround
  split at hround
  · cases hround
    exact hs
  · exact hfree hs hround

/-- **Each round of `ip_reass_remove_oldest_datagram`**, in every call in every run: it removes the oldest
datagram other than the fragment's own, and no assertion fails, if and only if there is no other one, or the
last datagram on the list is not the fragment's own. -/
theorem removesOldest_iff {es : List Event} (hrun : runLabels anyStep es init = some s) {p : IpPacket}
    (hrounds : Relation.ReflTransGen (RoundTo p.hdr) s t) :
    t.RemovesOldest p.hdr ↔ others p.hdr t.datagrams = [] ∨
      ∃ d, t.datagrams.getLast? = some d ∧ addressesAndIdMatch d.iphdr p.hdr = false := by
  have ht : Counted t ∧ Aged t := by
    induction hrounds with
    | refl => exact ⟨run_counted hrun, run_aged hrun⟩
    | tail _ hround ih =>
      exact hround.keeps (I := fun t ↦ Counted t ∧ Aged t)
        (fun h hfree ↦ ⟨(h.1.free hfree).1, h.2.free hfree⟩) ih
  rw [ht.1.removesOldest_iff_last]
  refine or_congr_right (exists_congr fun d ↦ and_congr_right fun hlast ↦ and_iff_left fun e he ↦ ?_)
  exact ht.2.last_le hlast (mem_others.1 he).1

/-- Ten fragments of one pbuf, five of them of each datagram: the list is full, and the first datagram is the
last on the list. -/
def fullQueue : List Event :=
  (List.range' 1 5).map (fun i ↦ .input (fragment 7 (8 * i) true 8)) ++
    (List.range' 1 5).map fun i ↦ .input (fragment 9 (8 * i) true 8)

/-- Another fragment of the second datagram. -/
theorem removesOldest_iff_full : ∃ s, runLabels anyStep fullQueue init = some s ∧
    s.datagrams.length = 2 ∧
    (s.RemovesOldest (fragment 9 48 true 8).hdr ↔ others (fragment 9 48 true 8).hdr s.datagrams = [] ∨
      ∃ d, s.datagrams.getLast? = some d ∧
        addressesAndIdMatch d.iphdr (fragment 9 48 true 8).hdr = false) := by
  refine exists_run_of_observe (fun s ↦ s.datagrams.length) 2 (by decide) fun s hs hobs ↦ ?_
  exact ⟨hobs, removesOldest_iff hs .refl⟩

/-- **Another fragment of the first datagram** stops the program: the second datagram is given up for it, and
is said to be its own predecessor. -/
theorem exists_not_removesOldest : ∃ s, runLabels anyStep fullQueue init = some s ∧
    ipReassMaxPbufs < s.pbufcount + pbufClen (fragment 7 48 true 8).pbufs ∧
    ¬s.RemovesOldest (fragment 7 48 true 8).hdr ∧ s.ipReass (fragment 7 48 true 8) = none := by
  refine exists_run_of_observe
    (fun s ↦ (s.pbufcount, (s.removeRound (fragment 7 48 true 8).hdr).isNone,
      (s.ipReass (fragment 7 48 true 8)).isNone)) (10, true, true) (by decide) fun s _ hobs ↦ ?_
  obtain ⟨hcount, hobs⟩ := Prod.mk.inj hobs
  obtain ⟨hround, hcall⟩ := Prod.mk.inj hobs
  refine ⟨by rw [hcount]; decide, ?_, Option.isNone_iff_eq_none.1 hcall⟩
  rintro ⟨n, s', hsome, -⟩
  rw [hsome] at hround
  cases hround

end Reass

end Lwip.Ipv4
