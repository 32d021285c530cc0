import LwipPoc.Ipv4.ReassSound

/-!
# Isolation of datagrams

The fragments of many datagrams wait in one queue, and a fragment goes to the datagram whose header
**has its addresses and its identification**. The protocol is not compared: fragments that differ in it
alone are put together (`protocols_mixed`). What the code does look at it never mixes, whatever the
fragments are like and however they are interleaved: all bytes of a packet that `ip_reass` returns are
from fragments that arrived, and agree with the last one of them (`reass_isolated`).

The stored header may be replaced when a first fragment comes late. It is replaced by one that
**matches** it, and matching is transitive; this is what the invariant `Isolated` rests on.
-/

namespace Lwip.Ipv4

open Lwip.Core

variable {ps t : List Pbuf} {n : ℕ}

/-! ### The bytes of chains, whatever their totals -/

theorem pbufBytes_of_hide (h : pbufHide n ps = some t) : pbufBytes t = (pbufBytes ps).drop n := by
  cases ps with
  | nil => cases h
  | cons p ps =>
    rw [pbufHide] at h
    split_ifs at h with hn
    rw [← Option.some.inj h, pbufBytes_cons, pbufBytes_cons, List.drop_append_of_le_length hn]

theorem pbufBytes_of_cat {c : List Pbuf} (h : pbufCat t ps = some c) :
    pbufBytes c = pbufBytes ps ++ pbufBytes t := by
  induction ps generalizing c with
  | nil => cases h
  | cons p ps ih =>
    cases ps with
    | nil =>
      rw [pbufCat] at h
      split_ifs at h
      rw [← Option.some.inj h]
      simp
    | cons q qs =>
      rw [pbufCat] at h
      obtain ⟨c', hc', rfl⟩ := Option.map_eq_some_iff.1 h
      rw [pbufBytes_cons, ih hc', @pbufBytes_cons p (q :: qs), List.append_assoc]

namespace Reass

variable {s s' : Reass} {p r : IpPacket} {d : ReassData} {qs : List ReassHelper} {i : ℕ}
  {es : List Event}

theorem pbufBytes_of_chainPbufs {c : List Pbuf} (h : chainPbufs ps qs = some c) :
    pbufBytes c = pbufBytes ps ++ qs.flatMap fun q ↦ q.frag.payload := by
  induction qs generalizing ps with
  | nil =>
    obtain rfl := Option.some.inj h
    simp
  | cons q qs ih =>
    rw [chainPbufs] at h
    obtain ⟨t, ht, h⟩ := Option.bind_eq_some_iff.1 h
    obtain ⟨c', hc', h⟩ := Option.bind_eq_some_iff.1 h
    rw [ih h, pbufBytes_of_cat hc', pbufBytes_of_hide ht, List.flatMap_cons, List.append_assoc]
    rfl

/-! ### Matching -/

/-- Two headers **agree** in what identifies a datagram for the code. -/
def Agree (a b : IpHdr) : Prop := a.src = b.src ∧ a.dest = b.dest ∧ a.id = b.id

theorem addressesAndIdMatch_iff {a b : IpHdr} : addressesAndIdMatch a b = true ↔ Agree a b := by
  simp [addressesAndIdMatch, Agree, and_assoc]

theorem Agree.trans {a b c : IpHdr} (h : Agree a b) (h' : Agree b c) : Agree a c :=
  ⟨h.1.trans h'.1, h.2.1.trans h'.2.1, h.2.2.trans h'.2.2⟩

theorem Agree.symm {a b : IpHdr} (h : Agree a b) : Agree b a := ⟨h.1.symm, h.2.1.symm, h.2.2.symm⟩

/-- A datagram holds fragments that arrived, and that agree with its header. -/
def DatagramIsolated (es : List Event) (d : ReassData) : Prop :=
  ∀ q ∈ d.frags, Event.input q.frag ∈ es ∧ Agree d.iphdr q.frag.hdr

/-- **The invariant of isolation.** -/
def Isolated (es : List Event) (s : Reass) : Prop := ∀ d ∈ s.datagrams, DatagramIsolated es d

theorem Isolated.sublist (h : Isolated es s) (hsub : s'.datagrams.Sublist s.datagrams) :
    Isolated es s' := fun d hd ↦ h d (hsub.subset hd)

theorem Isolated.mono {es' : List Event} (h : Isolated es s) (hes : es ⊆ es') : Isolated es' s :=
  fun d hd q hq ↦ ⟨hes (h d hd q hq).1, (h d hd q hq).2⟩

/-- The late header of a first fragment is one that matches. -/
theorem DatagramIsolated.adopt (h : DatagramIsolated es d) (hp : Agree d.iphdr p.hdr) :
    DatagramIsolated es (adoptHdr d p.hdr) ∧ Agree (adoptHdr d p.hdr).iphdr p.hdr := by
  rw [adoptHdr]
  split_ifs
  · exact ⟨fun q hq ↦ ⟨(h q hq).1, hp.symm.trans (h q hq).2⟩, rfl, rfl, rfl⟩
  · exact ⟨h, hp⟩

theorem noteLast_iphdr (d : ReassData) (p : IpPacket) : (noteLast d p).iphdr = d.iphdr := by
  rw [noteLast]
  split_ifs <;> rfl

/-! ### One fragment -/

/-- **A packet made of fragments of one datagram**: the first one with its header, then the payloads of
the other ones. -/
structure MadeOf (fs : List IpPacket) (r : IpPacket) : Prop where
  bytes : ∃ f gs, fs = f :: gs ∧ pbufBytes r.pbufs = pbufBytes f.pbufs ++ gs.flatMap IpPacket.payload
  agree : ∀ f ∈ fs, Agree f.hdr r.hdr

theorem assemble_madeOf (hqs : ∀ q ∈ qs, Agree d.iphdr q.frag.hdr) (hr : assemble d qs = some r) :
    MadeOf (qs.map ReassHelper.frag) r := by
  cases qs with
  | nil => cases hr
  | cons q qs =>
    obtain ⟨c, hc, rfl⟩ := Option.map_eq_some_iff.1 hr
    refine ⟨⟨q.frag, qs.map ReassHelper.frag, rfl, ?_⟩, fun f hf ↦ ?_⟩
    · rw [List.flatMap_map]
      exact pbufBytes_of_chainPbufs hc
    · obtain ⟨x, hx, rfl⟩ := List.mem_map.1 hf
      exact (hqs x hx).symm

/-- **One fragment, once its datagram is known.** -/
theorem reassAt_isolated {o : Option IpPacket} (hs : Isolated es s) (hd : DatagramIsolated es d)
    (hin : Event.input p ∈ es) (hp : Agree d.iphdr p.hdr) (hcall : s.reassAt p i d = some (o, s')) :
    Isolated es s' ∧
      ∀ r ∈ o, ∃ fs, fs.Perm (p :: d.frags.map ReassHelper.frag) ∧ MadeOf fs r := by
  -- the datagram with any of the fragments it can get
  have hset : ∀ d', DatagramIsolated es d' → s'.datagrams = s.datagrams.set i d' → Isolated es s' :=
    fun d' hd' hds x hx ↦ by
      rw [hds] at hx
      rcases List.mem_or_eq_of_mem_set hx with hx | rfl
      · exact hs x hx
      · exact hd'
  obtain ⟨ch, hplace, hcall⟩ := Option.bind_eq_some_iff.1
    (show (place (helper p) [] true (noteLast d p).frags).bind _ = _ from hcall)
  rw [noteLast_frags] at hplace
  cases ch with
  | dropped =>
    obtain ⟨rfl, rfl⟩ := Prod.mk.inj (Option.some.inj hcall)
    refine ⟨hset (noteLast d p) (fun q hq ↦ ?_) rfl, nofun⟩
    rw [noteLast_frags] at hq
    rw [noteLast_iphdr]
    exact hd q hq
  | kept pre post v =>
    obtain ⟨hsplit, -⟩ := place_kept hplace (fun _ ↦ List.isChain_nil) (by simp)
    rw [List.nil_append] at hsplit
    have hperm : (pre ++ helper p :: post).Perm (helper p :: d.frags) := by
      rw [← hsplit]
      exact List.perm_middle
    have hall : ∀ q ∈ pre ++ helper p :: post,
        Event.input q.frag ∈ es ∧ Agree (noteLast d p).iphdr q.frag.hdr := fun q hq ↦ by
      rw [noteLast_iphdr]
      rcases List.mem_cons.1 (hperm.mem_iff.1 hq) with rfl | hq
      · exact ⟨hin, hp⟩
      · exact hd q hq
    obtain ⟨ok, -, hcall⟩ := Option.bind_eq_some_iff.1
      (show (validate (noteLast d p) (helper p) pre post v).bind _ = _ from hcall)
    cases ok with
    | false =>
      obtain ⟨rfl, rfl⟩ := Prod.mk.inj (Option.some.inj hcall)
      exact ⟨hset { noteLast d p with frags := pre ++ helper p :: post } hall rfl, nofun⟩
    | true =>
      obtain ⟨r, hr, heq⟩ := Option.map_eq_some_iff.1
        (show (assemble (noteLast d p) (pre ++ helper p :: post)).map _ = _ from hcall)
      obtain ⟨rfl, rfl⟩ := Prod.mk.inj heq
      refine ⟨hs.sublist (List.eraseIdx_sublist _ _), fun x hx ↦ ?_⟩
      obtain rfl := Option.some.inj hx
      exact ⟨_, hperm.map ReassHelper.frag, assemble_madeOf (fun q hq ↦ (hall q hq).2) hr⟩

/-- **One fragment**: the invariant is kept, and a packet that is returned is made of the fragment and
of those that waited for it. -/
theorem Isolated.ipReass {o : Option IpPacket} (hs : Isolated es s) (hin : Event.input p ∈ es)
    (hcall : s.ipReass p = some (o, s')) :
    Isolated es s' ∧
      ∀ r ∈ o, ∃ fs, fs.Perm (p :: (s.queueOf p).map ReassHelper.frag) ∧ MadeOf fs r := by
  rw [Reass.ipReass] at hcall
  split_ifs at hcall with hl
  · obtain ⟨rfl, rfl⟩ := Prod.mk.inj (Option.some.inj hcall)
    exact ⟨hs, by simp⟩
  obtain ⟨⟨b, s₁⟩, hroom, hcall⟩ := Option.bind_eq_some_iff.1 hcall
  obtain ⟨hsub, hmatch⟩ := makeRoom_spec hroom
  have hs₁ := hs.sublist hsub
  have hof : s₁.datagramOf p = s.datagramOf p := by
    rw [datagramOf_eq_head?, datagramOf_eq_head?, hmatch]
  cases b with
  | false =>
    obtain ⟨rfl, rfl⟩ := Prod.mk.inj (Option.some.inj hcall)
    exact ⟨hs₁, by simp⟩
  | true =>
    simp only at hcall
    split at hcall
    · next i hfind =>
      obtain ⟨d, hd, hcall⟩ := Option.bind_eq_some_iff.1 hcall
      have hof₁ := findIdx?_datagramOf hfind hd
      have hfound := List.find?_some (show s₁.datagrams.find? _ = some d from hof₁)
      have hagree : Agree d.iphdr p.hdr := addressesAndIdMatch_iff.1 hfound
      have hqueue : s.queueOf p = (adoptHdr d p.hdr).frags := by
        rw [queueOf, ← hof, hof₁, adoptHdr]
        split_ifs <;> rfl
      obtain ⟨hd', hagree'⟩ := DatagramIsolated.adopt (hs₁ d (List.mem_of_getElem? hd)) hagree
      rw [hqueue]
      exact reassAt_isolated hs₁ hd' hin hagree' hcall
    · next hfind =>
      have hnone := findIdx?_none hfind
      rw [hof] at hnone
      obtain ⟨⟨b, s₂⟩, henq, hcall⟩ := Option.bind_eq_some_iff.1 hcall
      cases b with
      | false =>
        obtain ⟨rfl, rfl⟩ := Prod.mk.inj (Option.some.inj hcall)
        exact ⟨hs₁.sublist (enqueueNewDatagram_false henq), by simp⟩
      | true =>
        obtain ⟨ds, hds, hsub'⟩ := enqueueNewDatagram_spec henq
        obtain ⟨d, hd, hcall⟩ := Option.bind_eq_some_iff.1 hcall
        rw [hds] at hd
        obtain rfl := Option.some.inj hd
        have hs₂ : Isolated es s₂ := fun x hx ↦ by
          rw [hds] at hx
          rcases List.mem_cons.1 hx with rfl | hx
          · exact fun q hq ↦ absurd hq List.not_mem_nil
          · exact hs₁ x (hsub'.subset hx)
        have hqueue : s.queueOf p = [] := by rw [queueOf, hnone]; rfl
        rw [hqueue]
        exact reassAt_isolated hs₂ (fun q hq ↦ absurd hq List.not_mem_nil) hin ⟨rfl, rfl, rfl⟩ hcall

/-- **A tick** changes timers, and gives up datagrams. -/
theorem tmrLoop_isolated {done todo : List ReassData} {count : ℕ}
    (hdone : ∀ d ∈ done, DatagramIsolated es d) (htodo : ∀ d ∈ todo, DatagramIsolated es d)
    (htmr : tmrLoop done todo count = some s') : Isolated es s' := by
  induction todo generalizing done count with
  | nil =>
    obtain rfl := Option.some.inj htmr
    exact hdone
  | cons d todo ih =>
    have hd := htodo d List.mem_cons_self
    have htodo' : ∀ x ∈ todo, DatagramIsolated es x := fun x hx ↦ htodo x (List.mem_cons_of_mem d hx)
    rw [tmrLoop] at htmr
    split_ifs at htmr
    · refine ih (fun x hx ↦ ?_) htodo' htmr
      rcases List.mem_append.1 hx with hx | hx
      · exact hdone x hx
      · rw [List.mem_singleton.1 hx]
        exact hd
    all_goals
      obtain ⟨res, -, htmr⟩ := Option.bind_eq_some_iff.1 htmr
      exact ih hdone htodo' htmr

/-! ### Every run -/

theorem run_isolated (h : runLabels step es init = some s) : Isolated es s := by
  refine runLabels_induction (I := Isolated) (fun d hd ↦ absurd hd List.not_mem_nil)
    (fun ls e u u' _ hu hstep ↦ ?_) h
  have hu' : Isolated (ls ++ [e]) u := hu.mono (List.subset_append_left _ _)
  cases e with
  | input p =>
    rw [Reass.step] at hstep
    split_ifs at hstep
    obtain ⟨⟨o, u₁⟩, hcall, rfl⟩ := Option.map_eq_some_iff.1 hstep
    exact (hu'.ipReass (by simp) hcall).1
  | tmr => exact tmrLoop_isolated (by simp) hu' hstep

/-- **Datagrams are isolated**: after every run, for every fragment that completes a datagram, the
packet returned is made of this fragment and those that waited for it, each once; all of them arrived,
and all agree with the packet in source, destination and identification. -/
theorem reass_isolated (h : runLabels step es init = some s)
    (hret : s.ipReass p = some (some r, s')) :
    ∃ fs, fs.Perm (p :: (s.queueOf p).map ReassHelper.frag) ∧
      (∀ f ∈ fs, f = p ∨ Event.input f ∈ es) ∧ MadeOf fs r := by
  have hs := run_isolated h
  obtain ⟨fs, hperm, hmade⟩ :=
    ((hs.mono (List.subset_append_left es [.input p])).ipReass (by simp) hret).2 r rfl
  refine ⟨fs, hperm, fun f hf ↦ ?_, hmade⟩
  rcases List.mem_cons.1 (hperm.mem_iff.1 hf) with rfl | hf
  · exact Or.inl rfl
  obtain ⟨q, hq, rfl⟩ := List.mem_map.1 hf
  -- the queue is that of a datagram
  rw [queueOf] at hq
  cases hof : s.datagramOf p with
  | none =>
    rw [hof] at hq
    cases hq
  | some d =>
    rw [hof] at hq
    exact Or.inr ((hs d (List.mem_of_find?_eq_some hof)) q hq).1

/-- The second half of a datagram first, and a fragment of another datagram between the two. -/
theorem reass_isolated_interleaved : ∃ s,
    runLabels step [.input (fragment 7 8 false 5), .input (fragment 9 0 true 8), .tmr] init = some s ∧
    ∃ r s', s.ipReass (fragment 7 0 true 8) = some (some r, s') ∧ ∃ fs, MadeOf fs r ∧
      fs.Perm (fragment 7 0 true 8 ::
        (s.queueOf (fragment 7 0 true 8)).map ReassHelper.frag) := by
  refine exists_run_of_observe
    (fun s ↦ (s.ipReass (fragment 7 0 true 8)).map fun o ↦ o.1.isSome) (some true)
    (by decide) fun s hs hobs ↦ ?_
  obtain ⟨⟨o, s'⟩, hret, ho⟩ := Option.map_eq_some_iff.1 hobs
  obtain ⟨r, rfl⟩ := Option.isSome_iff_exists.1 ho
  obtain ⟨fs, hperm, -, hmade⟩ := reass_isolated hs hret
  exact ⟨r, s', hret, fs, hmade, hperm⟩

/-- A fragment as `fragment`, of another protocol. -/
def fragmentOf (proto id offset : ℕ) (mf : Bool) (len : ℕ) : IpPacket :=
  { fragment id offset mf len with hdr := { (fragment id offset mf len).hdr with proto := proto } }

/-- **Protocols are mixed**: a fragment of a UDP datagram and one of a TCP segment, with the same
addresses and identification, are returned as one packet. -/
theorem protocols_mixed : ¬ ∀ (es : List Event) (s s' : Reass) (p r : IpPacket),
    runLabels step es init = some s → Received p → s.ipReass p = some (some r, s') →
      ∃ fs : List IpPacket, fs.Perm (p :: (s.queueOf p).map ReassHelper.frag) ∧ MadeOf fs r ∧
        ∀ f ∈ fs, f.hdr.proto = p.hdr.proto := by
  intro hall
  have hrun : ∃ s, runLabels step [.input (fragmentOf 17 7 0 true 8)] init = some s ∧
      s.queueOf (fragmentOf 6 7 8 false 5) = [helper (fragmentOf 17 7 0 true 8)] ∧
      ∃ r s', s.ipReass (fragmentOf 6 7 8 false 5) = some (some r, s') := by
    refine exists_run_of_observe
      (fun s ↦ (s.queueOf (fragmentOf 6 7 8 false 5),
        (s.ipReass (fragmentOf 6 7 8 false 5)).map fun o ↦ o.1.isSome))
      ([helper (fragmentOf 17 7 0 true 8)], some true) (by decide) fun s _ hobs ↦ ?_
    obtain ⟨hqueue, hret⟩ := Prod.mk.inj hobs
    obtain ⟨⟨o, s'⟩, hret, ho⟩ := Option.map_eq_some_iff.1 hret
    obtain ⟨r, rfl⟩ := Option.isSome_iff_exists.1 ho
    exact ⟨hqueue, r, s', hret⟩
  obtain ⟨s, hs, hqueue, r, s', hret⟩ := hrun
  obtain ⟨fs, hperm, -, hproto⟩ := hall _ s s' _ r hs (by decide) hret
  rw [hqueue] at hperm
  have hmem : fragmentOf 17 7 0 true 8 ∈ fs := hperm.mem_iff.2 (by simp [helper])
  exact absurd (hproto _ hmem) (by decide)

end Reass

end Lwip.Ipv4
