import LwipPoc.Ipv4.ReassLedger
import Mathlib.Algebra.BigOperators.Group.List.Basic
import Mathlib.Algebra.BigOperators.Group.List.Lemmas

/-!
# The count of the pbufs that wait for reassembly

`ip_reass_pbufcount` is raised before it is known what becomes of a fragment, and lowered where a
fragment is thrown away, where a datagram is given up, and where one is complete. Each time it is by
`pbuf_clen`, which counts in a `u8_t`, and at the end by that of the whole packet. Still **it is the sum
over all fragments in the queue** (`pbufcount_exact`), so the subtractions do not wrap, and the assertion
on it in `ip_reass_free_complete_datagram` holds; and no datagram is without fragments, so the pointer
that this function follows is not null.
-/

namespace Lwip.Ipv4

open Lwip.Core

/-! ### The lengths of chains -/

variable {ps t : List Pbuf} {n : ℕ}

theorem length_of_hide (h : pbufHide n ps = some t) : t.length = ps.length := by
  cases ps with
  | nil => cases h
  | cons p ps =>
    rw [pbufHide] at h
    split_ifs at h
    rw [← Option.some.inj h, List.length_cons, List.length_cons]

theorem length_of_cat {c : List Pbuf} (h : pbufCat t ps = some c) : c.length = ps.length + t.length := by
  induction ps generalizing c with
  | nil => cases h
  | cons p ps ih =>
    cases ps with
    | nil =>
      rw [pbufCat] at h
      split_ifs at h
      rw [← Option.some.inj h, List.length_cons, List.length_singleton, Nat.add_comm]
    | cons q qs =>
      rw [pbufCat] at h
      obtain ⟨c', hc', rfl⟩ := Option.map_eq_some_iff.1 h
      rw [List.length_cons, ih hc', @List.length_cons _ p]
      omega

namespace Reass

variable {s s' s₁ : Reass} {p r : IpPacket} {d d' : ReassData} {qs : List ReassHelper} {i : ℕ}
  {o : Option IpPacket} {I : Reass → Prop}

theorem length_of_chainPbufs {c : List Pbuf} (h : chainPbufs ps qs = some c) :
    c.length = ps.length + (qs.map fun q ↦ q.frag.pbufs.length).sum := by
  induction qs generalizing ps with
  | nil =>
    obtain rfl := Option.some.inj h
    simp
  | cons q qs ih =>
    rw [chainPbufs] at h
    obtain ⟨t, ht, h⟩ := Option.bind_eq_some_iff.1 h
    obtain ⟨c', hc', h⟩ := Option.bind_eq_some_iff.1 h
    rw [ih h, length_of_cat hc', length_of_hide ht, List.map_cons, List.sum_cons]
    omega

/-- The packet has the pbufs of all fragments. -/
theorem length_of_assemble (h : assemble d qs = some r) :
    r.pbufs.length = (qs.map fun q ↦ q.frag.pbufs.length).sum := by
  cases qs with
  | nil => cases h
  | cons q qs =>
    obtain ⟨c, hc, rfl⟩ := Option.map_eq_some_iff.1 h
    rw [length_of_chainPbufs hc, List.map_cons, List.sum_cons]

/-! ### What a call can do -/

/-- The datagram that `ip_reass_enqueue_new_datagram` makes for a fragment. -/
def freshDatagram (p : IpPacket) : ReassData := ⟨[], p.hdr, 0, false, ipReassMaxage⟩

/-- **What `ip_reass` can do**: throw the fragment away, with or without making room for it; or put it
into its datagram, or into a new one. -/
theorem ipReass_cases (hcall : s.ipReass p = some (o, s')) :
    (o = none ∧ s' = s) ∨ (o = none ∧ s.makeRoom p = some (false, s')) ∨
    (∃ s₁, p.hdr.hl * 4 = ipHlen ∧ s.makeRoom p = some (true, s₁) ∧
      ((∃ i d, s₁.datagrams[i]? = some d ∧ s.datagramOf p = some d ∧
          s₁.reassAt p i (adoptHdr d p.hdr) = some (o, s')) ∨
        s.datagramOf p = none ∧
          ((o = none ∧ s₁.enqueueNewDatagram p.hdr (pbufClen p.pbufs) = some (false, s')) ∨
            ∃ s₂, s₁.enqueueNewDatagram p.hdr (pbufClen p.pbufs) = some (true, s₂) ∧
              s₂.reassAt p 0 (freshDatagram p) = some (o, s')))) := by
  rw [ipReass] at hcall
  split_ifs at hcall with hl
  · cases hcall
    exact .inl ⟨rfl, rfl⟩
  obtain ⟨⟨b, s₁⟩, hroom, hcall⟩ := Option.bind_eq_some_iff.1 hcall
  have hof : s₁.datagramOf p = s.datagramOf p := by
    rw [datagramOf_eq_head?, datagramOf_eq_head?, (makeRoom_spec hroom).2]
  cases b with
  | false =>
    cases hcall
    exact .inr (.inl ⟨rfl, hroom⟩)
  | true =>
    refine .inr (.inr ⟨s₁, not_not.1 hl, hroom, ?_⟩)
    dsimp only at hcall
    split at hcall
    · next i hfind =>
      obtain ⟨d, hd, hcall⟩ := Option.bind_eq_some_iff.1 hcall
      exact .inl ⟨i, d, hd, hof ▸ findIdx?_datagramOf hfind hd, hcall⟩
    · next hfind =>
      refine .inr ⟨hof ▸ findIdx?_none hfind, ?_⟩
      obtain ⟨⟨b, s₂⟩, henq, hcall⟩ := Option.bind_eq_some_iff.1 hcall
      cases b with
      | false =>
        cases hcall
        exact .inl ⟨rfl, henq⟩
      | true =>
        obtain ⟨ds, hds, -⟩ := enqueueNewDatagram_spec henq
        obtain ⟨d, hd, hcall⟩ := Option.bind_eq_some_iff.1 hcall
        rw [hds] at hd
        obtain rfl := Option.some.inj hd
        exact .inr ⟨s₂, henq, hcall⟩

/-- **Giving up datagrams** keeps what giving up one of them keeps. -/
theorem removeOldestDatagram_keeps {h : IpHdr} {needed fuel freed : ℕ}
    (hfree : ∀ {s s' i prev n}, I s → freeCompleteDatagram s i prev = some (n, s') → I s')
    (hs : I s) (hrem : removeOldestDatagram h needed fuel freed s = some (n, s')) : I s' := by
  induction fuel generalizing s freed with
  | zero => cases hrem
  | succ fuel ih =>
    rw [removeOldestDatagram] at hrem
    split at hrem
    · cases hrem
      exact hs
    · obtain ⟨⟨m, s₁⟩, hone, hrem⟩ := Option.bind_eq_some_iff.1 hrem
      split_ifs at hrem
      · exact ih (hfree hs hone) hrem
      · cases hrem
        exact hfree hs hone

theorem makeRoom_keeps {b : Bool}
    (hfree : ∀ {s s' i prev n}, I s → freeCompleteDatagram s i prev = some (n, s') → I s')
    (hs : I s) (hroom : s.makeRoom p = some (b, s')) : I s' := by
  simp only [makeRoom] at hroom
  split_ifs at hroom
  · obtain ⟨⟨m, t⟩, hrem, heq⟩ := Option.map_eq_some_iff.1 hroom
    cases heq
    exact removeOldestDatagram_keeps hfree hs hrem
  · cases hroom
    exact hs

/-- The list of datagrams when a new one is enqueued: some may have been given up for it. -/
theorem enqueueNewDatagram_keeps {b : Bool}
    (hfree : ∀ {s s' i prev n}, I s → freeCompleteDatagram s i prev = some (n, s') → I s')
    (hs : I s) (henq : s.enqueueNewDatagram p.hdr n = some (b, s')) :
    ∃ t, I t ∧ s' = if b = true then { t with datagrams := freshDatagram p :: t.datagrams } else t := by
  simp only [enqueueNewDatagram] at henq
  split_ifs at henq
  · cases henq
    exact ⟨s, hs, rfl⟩
  · obtain ⟨⟨m, t⟩, hrem, heq⟩ := Option.map_eq_some_iff.1 henq
    have ht := removeOldestDatagram_keeps hfree hs hrem
    split_ifs at heq <;> cases heq
    · exact ⟨t, ht, rfl⟩
    · exact ⟨t, ht, rfl⟩

/-- **A tick** keeps what giving up a datagram, and a change of a timer, keep. -/
theorem tmrLoop_keepsState {done todo : List ReassData} {count : ℕ}
    (hfree : ∀ {s s' i prev n}, I s → freeCompleteDatagram s i prev = some (n, s') → I s')
    (htimer : ∀ {ds r rs count t}, I ⟨ds ++ r :: rs, count⟩ →
      I ⟨ds ++ { r with timer := t } :: rs, count⟩)
    (hs : I ⟨done ++ todo, count⟩) (htmr : tmrLoop done todo count = some s') : I s' := by
  induction todo generalizing done count with
  | nil =>
    cases htmr
    rwa [List.append_nil] at hs
  | cons r rs ih =>
    rw [tmrLoop] at htmr
    by_cases hr : 0 < r.timer
    · rw [if_pos hr] at htmr
      refine ih ?_ htmr
      rw [List.append_assoc]
      exact htimer hs
    · rw [if_neg hr] at htmr
      obtain ⟨⟨m, t⟩, hone, htmr⟩ := Option.bind_eq_some_iff.1 htmr
      have ht := hfree hs hone
      have hds : t.datagrams = done ++ rs := by
        rw [freeCompleteDatagram_datagrams hone]
        simp [List.eraseIdx_append_of_length_le]
      exact ih (hds ▸ ht) htmr

/-! ### The count -/

/-- `pbuf_clen` over all fragments of all datagrams. -/
def total (ds : List ReassData) : ℕ := (ds.map clenSum).sum

/-- **The count is right**, below the limit, and no datagram is empty. -/
structure Counted (s : Reass) : Prop where
  count : s.pbufcount = total s.datagrams
  le : s.pbufcount ≤ ipReassMaxPbufs
  frags : ∀ d ∈ s.datagrams, d.frags ≠ []

variable {ds : List ReassData}

theorem total_eraseIdx (hd : ds[i]? = some d) : total ds = clenSum d + total (ds.eraseIdx i) := by
  obtain ⟨hi, rfl⟩ := List.getElem?_eq_some_iff.1 hd
  simpa [total] using ((List.getElem_cons_eraseIdx_perm hi).map clenSum).sum_eq.symm

theorem total_set (hi : i < ds.length) (d : ReassData) :
    total (ds.set i d) = clenSum d + total (ds.eraseIdx i) := by
  simpa [total] using ((List.set_perm_cons_eraseIdx hi d).map clenSum).sum_eq

theorem mem_set_iff (hi : i < ds.length) {x : ReassData} :
    x ∈ ds.set i d ↔ x = d ∨ x ∈ ds.eraseIdx i := by
  rw [(List.set_perm_cons_eraseIdx hi d).mem_iff, List.mem_cons]

theorem Counted.free {prev : Option ℕ} (hs : Counted s)
    (hfree : s.freeCompleteDatagram i prev = some (n, s')) :
    Counted s' ∧ s'.pbufcount ≤ s.pbufcount := by
  rw [freeCompleteDatagram] at hfree
  split at hfree
  · cases hfree
  · next d hd =>
    split_ifs at hfree
    cases hfree
    have hcount := hs.count
    rw [total_eraseIdx hd] at hcount
    refine ⟨⟨?_, ?_, fun x hx ↦ hs.frags x ((List.eraseIdx_sublist _ _).subset hx)⟩, Nat.sub_le _ _⟩
    · dsimp only
      omega
    · exact (Nat.sub_le _ _).trans hs.le

/-- The checks of `ip_reass_free_complete_datagram`, apart from the one of the predecessor. -/
theorem Counted.checks (hs : Counted s) (hd : d ∈ s.datagrams) :
    d.frags ≠ [] ∧ clenSum d ≤ 2 ^ 16 - 1 ∧ clenSum d ≤ s.pbufcount := by
  obtain ⟨i, hi⟩ := List.mem_iff_getElem?.1 hd
  have hcount := hs.count
  have hle := hs.le
  rw [total_eraseIdx hi] at hcount
  rw [ipReassMaxPbufs] at hle
  exact ⟨hs.frags d hd, by omega, by omega⟩

/-- `pbuf_clen` of the packet is the sum over its fragments, if this is small. -/
theorem pbufClen_of_assemble (h : assemble d qs = some r)
    (hsmall : (qs.map fun q ↦ pbufClen q.frag.pbufs).sum < 2 ^ 8) :
    pbufClen r.pbufs = (qs.map fun q ↦ pbufClen q.frag.pbufs).sum := by
  have hmod := List.sum_nat_mod (qs.map fun q ↦ q.frag.pbufs.length) (2 ^ 8)
  rw [List.map_map] at hmod
  rw [pbufClen, length_of_assemble h, hmod]
  exact Nat.mod_eq_of_lt hsmall

theorem clenSum_keep {pre post : List ReassHelper} (new : ReassHelper)
    (hsplit : pre ++ post = d.frags) :
    ((pre ++ new :: post).map fun q ↦ pbufClen q.frag.pbufs).sum =
      clenSum d + pbufClen new.frag.pbufs := by
  rw [clenSum, ← hsplit]
  simp only [List.map_append, List.map_cons, List.sum_append, List.sum_cons]
  omega

/-- **One fragment, once its datagram is known**, and there is room for it. The datagram may be a new
one, without fragments. -/
theorem reassAt_counted {d₀ : ReassData} (hcount : s.pbufcount = total s.datagrams)
    (hroom : s.pbufcount + pbufClen p.pbufs ≤ ipReassMaxPbufs)
    (hothers : ∀ x ∈ s.datagrams.eraseIdx i, x.frags ≠ []) (hd : s.datagrams[i]? = some d₀)
    (hfrags : d.frags = d₀.frags) (hcall : s.reassAt p i d = some (o, s')) : Counted s' := by
  have hi := (List.getElem?_eq_some_iff.1 hd).1
  rw [total_eraseIdx hd] at hcount
  have hclen : clenSum d = clenSum d₀ := by rw [clenSum, hfrags, clenSum]
  have hmax : ipReassMaxPbufs = 10 := rfl
  have hadd : (s.pbufcount + pbufClen p.pbufs) % 2 ^ 16 = s.pbufcount + pbufClen p.pbufs :=
    Nat.mod_eq_of_lt (by omega)
  obtain ⟨ch, hplace, hcall⟩ := Option.bind_eq_some_iff.1
    (show (place (helper p) [] true (noteLast d p).frags).bind _ = _ from hcall)
  rw [noteLast_frags] at hplace
  rw [hadd] at hcall
  cases ch with
  | dropped =>
    cases hcall
    have hsub : (s.pbufcount + pbufClen p.pbufs + 2 ^ 16 - pbufClen p.pbufs) % 2 ^ 16 =
        s.pbufcount := by omega
    have hnote : clenSum (noteLast d p) = clenSum d₀ := by
      rw [clenSum, noteLast_frags, hfrags, clenSum]
    refine ⟨?_, ?_, fun x hx ↦ ?_⟩
    · show _ = total (s.datagrams.set i (noteLast d p))
      rw [total_set hi, hnote, ← hcount]
      exact hsub
    · show (s.pbufcount + pbufClen p.pbufs + 2 ^ 16 - pbufClen p.pbufs) % 2 ^ 16 ≤ _
      omega
    · rcases (mem_set_iff hi).1 hx with rfl | hx
      · -- nothing is thrown away where there is nothing
        show (noteLast d p).frags ≠ []
        rw [noteLast_frags]
        rintro hnil
        rw [hnil] at hplace
        cases hplace
      · exact hothers x hx
  | kept pre post v =>
    obtain ⟨hsplit, -⟩ := place_kept hplace (fun _ ↦ List.isChain_nil) (by simp)
    rw [List.nil_append] at hsplit
    have hsum := clenSum_keep (helper p) hsplit
    rw [hclen] at hsum
    obtain ⟨ok, -, hcall⟩ := Option.bind_eq_some_iff.1
      (show (validate (noteLast d p) (helper p) pre post v).bind _ = _ from hcall)
    cases ok with
    | false =>
      cases hcall
      refine ⟨?_, hroom, fun x hx ↦ ?_⟩
      · show _ = total (s.datagrams.set i { noteLast d p with frags := pre ++ helper p :: post })
        rw [total_set hi]
        show s.pbufcount + pbufClen p.pbufs =
          ((pre ++ helper p :: post).map fun q ↦ pbufClen q.frag.pbufs).sum + _
        rw [hsum, hcount]
        show _ + pbufClen p.pbufs = _ + pbufClen p.pbufs + _
        omega
      · rcases (mem_set_iff hi).1 hx with rfl | hx
        · show pre ++ helper p :: post ≠ []
          simp
        · exact hothers x hx
    | true =>
      obtain ⟨r, hr, heq⟩ := Option.map_eq_some_iff.1
        (show (assemble (noteLast d p) (pre ++ helper p :: post)).map _ = _ from hcall)
      cases heq
      have hnew : (helper p).frag.pbufs = p.pbufs := rfl
      rw [hnew] at hsum
      have hclen' := pbufClen_of_assemble hr (by rw [hsum]; omega)
      rw [hsum] at hclen'
      have hsub : (s.pbufcount + pbufClen p.pbufs + 2 ^ 16 - pbufClen r.pbufs) % 2 ^ 16 =
          total (s.datagrams.eraseIdx i) := by omega
      refine ⟨hsub, ?_, hothers⟩
      show (s.pbufcount + pbufClen p.pbufs + 2 ^ 16 - pbufClen r.pbufs) % 2 ^ 16 ≤ _
      omega

/-- There is room for the fragment. -/
theorem makeRoom_room (hroom : s.makeRoom p = some (true, s')) :
    s'.pbufcount + pbufClen p.pbufs ≤ ipReassMaxPbufs := by
  simp only [makeRoom] at hroom
  split_ifs at hroom with hfull
  · obtain ⟨⟨m, t⟩, -, heq⟩ := Option.map_eq_some_iff.1 hroom
    obtain ⟨hb, rfl⟩ := Prod.mk.inj heq
    simpa using (of_decide_eq_true hb).2
  · cases hroom
    exact Nat.le_of_not_lt hfull

/-- **One fragment.** -/
theorem Counted.ipReass (hs : Counted s) (hcall : s.ipReass p = some (o, s')) : Counted s' := by
  have hkeep : ∀ {s s' : Reass} {i prev n}, Counted s →
      freeCompleteDatagram s i prev = some (n, s') → Counted s' := fun h hfree ↦ (h.free hfree).1
  rcases ipReass_cases hcall with ⟨-, rfl⟩ | ⟨-, hroom⟩ | ⟨s₁, -, hroom, hcall⟩
  · exact hs
  · exact makeRoom_keeps hkeep hs hroom
  have hs₁ := makeRoom_keeps hkeep hs hroom
  have hfull := makeRoom_room hroom
  rcases hcall with ⟨i, d, hd, -, hcall⟩ | ⟨-, ⟨-, henq⟩ | ⟨s₂, henq, hcall⟩⟩
  · have hfrags : (adoptHdr d p.hdr).frags = d.frags := by
      rw [adoptHdr]
      split_ifs <;> rfl
    exact reassAt_counted hs₁.count hfull
      (fun x hx ↦ hs₁.frags x ((List.eraseIdx_sublist _ _).subset hx)) hd hfrags hcall
  · obtain ⟨t, ht, rfl⟩ := enqueueNewDatagram_keeps hkeep hs₁ henq
    exact ht
  · -- what is given up for a new datagram only makes more room
    obtain ⟨t, ⟨ht, hle⟩, rfl⟩ := enqueueNewDatagram_keeps
      (I := fun t ↦ Counted t ∧ t.pbufcount ≤ s₁.pbufcount)
      (fun h hfree ↦ ⟨(h.1.free hfree).1, (h.1.free hfree).2.trans h.2⟩) ⟨hs₁, le_refl _⟩ henq
    have hhead : (freshDatagram p :: t.datagrams)[0]? = some (freshDatagram p) := rfl
    refine reassAt_counted ?_ ?_ ?_ hhead rfl hcall
    · show t.pbufcount = total (freshDatagram p :: t.datagrams)
      rw [ht.count, total, total, List.map_cons, List.sum_cons]
      exact (Nat.zero_add _).symm
    · exact (Nat.add_le_add_right hle _).trans hfull
    · exact ht.frags

/-- **A tick.** -/
theorem Counted.tmr (hs : Counted s) (htmr : s.ipReassTmr = some s') : Counted s' := by
  refine tmrLoop_keepsState (I := Counted) (fun h hfree ↦ (h.free hfree).1)
    (fun {ds r rs count t} h ↦ ?_) (show Counted ⟨[] ++ s.datagrams, s.pbufcount⟩ from hs) htmr
  refine ⟨?_, h.le, fun x hx ↦ ?_⟩
  · have hcount := h.count
    simp only [total, List.map_append, List.map_cons] at hcount ⊢
    exact hcount
  · simp only [List.mem_append, List.mem_cons] at hx
    rcases hx with hx | rfl | hx
    · exact h.frags x (by simp [hx])
    · exact h.frags r (by simp)
    · exact h.frags x (by simp [hx])

/-- What happens at an event, if the fragments may be any, whoever calls `ip_reass`. -/
def anyStep : Event → Reass → Option Reass
  | .input p, s => (s.ipReass p).map Prod.snd
  | .tmr, s => s.ipReassTmr

theorem run_counted {es : List Event} (hrun : runLabels anyStep es init = some s) : Counted s := by
  refine runLabels_invariant (I := Counted) ⟨rfl, Nat.zero_le _, by simp [init]⟩
    (fun e t t' ht hstep ↦ ?_) hrun
  cases e with
  | input p =>
    obtain ⟨⟨o, u⟩, hcall, rfl⟩ := Option.map_eq_some_iff.1 hstep
    exact ht.ipReass hcall
  | tmr => exact ht.tmr hstep

/-- **The bookkeeping of the reassembly**, in every run: the count is the sum of `pbuf_clen` over all
fragments in the queue, it is below the limit, and each datagram has fragments, whose pbufs are counted:
it can be given up, and the count does not get below zero. -/
theorem pbufcount_exact {es : List Event} (hrun : runLabels anyStep es init = some s) :
    s.pbufcount = ((s.datagrams.flatMap ReassData.frags).map fun q ↦ pbufClen q.frag.pbufs).sum ∧
      s.pbufcount ≤ ipReassMaxPbufs ∧
      ∀ d ∈ s.datagrams, d.frags ≠ [] ∧ clenSum d ≤ 2 ^ 16 - 1 ∧ clenSum d ≤ s.pbufcount := by
  have hs := run_counted hrun
  refine ⟨?_, hs.le, fun d hd ↦ hs.checks hd⟩
  rw [hs.count, total]
  induction s.datagrams with
  | nil => rfl
  | cons d ds ih =>
    rw [List.map_cons, List.sum_cons, ih, List.flatMap_cons, List.map_append, List.sum_append]
    rfl

/-- Two datagrams, of which one got a fragment twice, and a tick. -/
theorem pbufcount_exact_two : ∃ s, runLabels anyStep [.input (fragment 7 8 true 8),
      .input (fragment 9 0 true 8), .input (fragment 7 8 true 8), .tmr] init = some s ∧
    s.pbufcount = 2 ∧
    s.pbufcount = ((s.datagrams.flatMap ReassData.frags).map fun q ↦ pbufClen q.frag.pbufs).sum := by
  refine exists_run_of_observe (fun s ↦ s.pbufcount) 2 (by decide) fun s hs hobs ↦ ?_
  exact ⟨hobs, (pbufcount_exact hs).1⟩

end Reass

end Lwip.Ipv4
