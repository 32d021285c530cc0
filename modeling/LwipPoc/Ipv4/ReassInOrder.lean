import LwipPoc.Ipv4.ReassOrder
import LwipPoc.Ipv4.ReassRoom
import Mathlib.Algebra.Order.BigOperators.Group.List
import Mathlib.Algebra.Order.Group.Nat

/-!
# Fragments in their order

A datagram whose fragments arrive in the order of their offsets, while others wait in the same queue. In such a
run the fragments that have come are those in the queue (`Waits`), each of the next ones is put at the end, and the
last one makes the datagram complete.

Other fragments can stand in its way in one manner only, by taking the room. `Calm` says that they do not: what
arrives in between finds room without a datagram being given up. The fragments themselves may have others given up
for them, as long as no other datagram has been started since, which is where the code goes wrong.
-/

namespace Lwip.Ipv4

open Lwip.Core

namespace Reass

variable {s s' s₁ : Reass} {p q : IpPacket} {d d' : ReassData} {h : IpHdr} {new : ReassHelper}
  {qs done : List ReassHelper} {ds : List ReassData} {i n : ℕ} {o : Option IpPacket}

/-! ### The datagrams of a header -/

theorem matching_cons_of_pos (hd : addressesAndIdMatch d.iphdr h = true) :
    matching h (d :: ds) = d :: matching h ds := by
  simp [matching, hd]

theorem matching_cons_of_neg (hd : addressesAndIdMatch d.iphdr h = false) :
    matching h (d :: ds) = matching h ds := by
  simp [matching, hd]

theorem matching_append (h : IpHdr) (ds es : List ReassData) :
    matching h (ds ++ es) = matching h ds ++ matching h es :=
  List.filter_append _ _

/-- Headers that match have the same datagrams. -/
theorem matching_congr {h' : IpHdr} (hh : addressesAndIdMatch h h' = true) (ds : List ReassData) :
    matching h ds = matching h' ds := by
  have hagree := addressesAndIdMatch_iff.1 hh
  refine List.filter_congr fun d _ ↦ ?_
  rw [Bool.eq_iff_iff, addressesAndIdMatch_iff, addressesAndIdMatch_iff]
  exact ⟨fun h ↦ h.trans hagree, fun h ↦ h.trans hagree.symm⟩

/-- The place of a datagram in the list. -/
theorem split_at (hi : ds[i]? = some d) : ∃ pre post, ds = pre ++ d :: post ∧
    ∀ d', ds.set i d' = pre ++ d' :: post := by
  obtain ⟨hlt, rfl⟩ := List.getElem?_eq_some_iff.1 hi
  exact ⟨ds.take i, ds.drop (i + 1), by rw [← List.drop_eq_getElem_cons hlt, List.take_append_drop],
    fun d' ↦ List.set_eq_take_append_cons_drop.trans (if_pos hlt)⟩

/-- A datagram of another header is changed. -/
theorem matching_set (hi : ds[i]? = some d) (hd : addressesAndIdMatch d.iphdr h = false)
    (hd' : addressesAndIdMatch d'.iphdr h = false) : matching h (ds.set i d') = matching h ds := by
  obtain ⟨pre, post, hds, hset⟩ := split_at hi
  rw [hset, hds, matching_append, matching_append, matching_cons_of_neg hd, matching_cons_of_neg hd']

/-- The only datagram of a header is changed. -/
theorem matching_set_self (hi : ds[i]? = some d) (hone : matching h ds = [d])
    (hd' : addressesAndIdMatch d'.iphdr h = true) : matching h (ds.set i d') = [d'] := by
  have hd : addressesAndIdMatch d.iphdr h = true :=
    (List.mem_filter.1 (show d ∈ matching h ds from hone ▸ List.mem_singleton_self d)).2
  obtain ⟨pre, post, hds, hset⟩ := split_at hi
  rw [hds, matching_append, matching_cons_of_pos hd] at hone
  -- there is none in front of it, and none behind it
  obtain ⟨hpre, hpost⟩ : matching h pre = [] ∧ matching h post = [] := by
    rcases hpre : matching h pre with _ | ⟨x, xs⟩
    · rw [hpre, List.nil_append] at hone
      exact ⟨rfl, (List.cons.inj hone).2⟩
    · rw [hpre, List.cons_append] at hone
      exact absurd (List.cons.inj hone).2 (by simp)
  rw [hset, matching_append, matching_cons_of_pos hd', hpre, hpost, List.nil_append]

/-! ### Other fragments, and the timer -/

theorem reassAt_matching (hi : s.datagrams[i]? = some d') (hd' : addressesAndIdMatch d'.iphdr h = false)
    (hd : addressesAndIdMatch d.iphdr h = false) (hcall : s.reassAt p i d = some (o, s')) :
    matching h s'.datagrams = matching h s.datagrams := by
  rcases reassAt_datagrams hcall with ⟨e, he, hs'⟩ | hs'
  · rw [hs']
    exact matching_set hi hd' (by rw [he]; exact hd)
  · rw [hs']
    exact matching_eraseIdx hi hd'

/-- **A fragment of another datagram**, for which there is room. -/
theorem ipReass_other (hp : addressesAndIdMatch p.hdr h = false) (hroom : Room s p)
    (hcall : s.ipReass p = some (o, s')) : matching h s'.datagrams = matching h s.datagrams := by
  have hother : ∀ d : ReassData, addressesAndIdMatch d.iphdr p.hdr = true →
      addressesAndIdMatch d.iphdr h = false := fun d hd ↦ by
    refine Bool.eq_false_iff.2 fun hdh ↦ Bool.eq_false_iff.1 hp ?_
    exact addressesAndIdMatch_iff.2 ((addressesAndIdMatch_iff.1 hd).symm.trans (addressesAndIdMatch_iff.1 hdh))
  rcases ipReass_cases hcall with ⟨-, rfl⟩ | ⟨-, hmake⟩ | ⟨s₁, -, hmake, hcall⟩
  · rfl
  · rw [hroom.makeRoom] at hmake
    cases hmake
  · rw [hroom.makeRoom] at hmake
    cases hmake
    rcases hcall with ⟨i, d, hi, hof, hcall⟩ | ⟨hof, ⟨-, henq⟩ | ⟨s₂, henq, hcall⟩⟩
    · have hfind : s.datagrams.find? (fun d : ReassData ↦ addressesAndIdMatch d.iphdr p.hdr) = some d := hof
      have hd := hother d (by simpa using List.find?_some hfind)
      refine reassAt_matching hi hd ?_ hcall
      rw [adoptHdr]
      split_ifs
      · exact hp
      · exact hd
    · rw [enqueue_of_lt (hroom.2 hof) p _] at henq
      cases henq
    · rw [enqueue_of_lt (hroom.2 hof) p _] at henq
      cases henq
      rw [reassAt_matching (by rfl) hp hp hcall, matching_cons_of_neg hp]

/-- What matters of a datagram, apart from its age. -/
def contents (d : ReassData) : List ReassHelper × IpHdr × Bool := (d.frags, d.iphdr, d.lastFrag)

/-- **A tick** at which the datagram is not too old. -/
theorem tmrLoop_matching {todo done : List ReassData} {count : ℕ}
    (hyoung : ∀ d ∈ todo, addressesAndIdMatch d.iphdr h = true → 0 < d.timer)
    (hcall : tmrLoop done todo count = some s') :
    (matching h s'.datagrams).map contents = (matching h (done ++ todo)).map contents := by
  induction todo generalizing done count with
  | nil =>
    cases hcall
    rw [List.append_nil]
  | cons r rs ih =>
    have hrest : ∀ d ∈ rs, addressesAndIdMatch d.iphdr h = true → 0 < d.timer := fun d hd ↦
      hyoung d (List.mem_cons_of_mem _ hd)
    rw [tmrLoop] at hcall
    rcases Nat.eq_zero_or_pos r.timer with hr | hr
    swap
    · rw [if_pos hr] at hcall
      rw [ih hrest hcall, List.append_assoc, List.singleton_append, matching_append, matching_append]
      rcases hd : addressesAndIdMatch r.iphdr h with _ | _
      · rw [matching_cons_of_neg hd, matching_cons_of_neg (by exact hd)]
      · rw [matching_cons_of_pos hd, matching_cons_of_pos (by exact hd)]
        simp [contents]
    · rw [if_neg (by omega)] at hcall
      obtain ⟨r', -, hcall⟩ := Option.bind_eq_some_iff.1 hcall
      have hd : addressesAndIdMatch r.iphdr h = false := Bool.eq_false_iff.2 fun hd ↦ by
        have := hyoung r List.mem_cons_self hd
        omega
      rw [ih hrest hcall, matching_append, matching_append, matching_cons_of_neg hd]

theorem ipReassTmr_matching (hyoung : ∀ d ∈ matching h s.datagrams, 0 < d.timer)
    (hcall : s.ipReassTmr = some s') :
    (matching h s'.datagrams).map contents = (matching h s.datagrams).map contents :=
  tmrLoop_matching (fun d hd hmatch ↦ hyoung d (List.mem_filter.2 ⟨hd, hmatch⟩)) hcall

/-! ### The next fragment -/

/-- **A fragment behind all others**, without a hole, is put at the end. -/
theorem place_end (hdone : Contiguous (done ++ qs)) (hbefore : ∀ q ∈ done ++ qs, Before q new)
    (hlast : ∀ q ∈ (done ++ qs).getLast?, q.stop = new.start) :
    place new done true qs = some (.kept (done ++ qs) [] true) := by
  induction qs generalizing done with
  | nil =>
    rw [List.append_nil] at hdone hbefore hlast ⊢
    rw [place]
    rcases hprev : done.getLast? with _ | prev
    · rw [List.getLast?_eq_none_iff.1 hprev]
    · have hstop := hlast prev hprev
      simp [hstop]
  | cons q qs ih =>
    obtain ⟨hlt, hle⟩ := hbefore q (List.mem_append_right _ List.mem_cons_self)
    have hseam : (true && done.getLast?.all fun prev ↦ prev.stop = q.start) = true := by
      have hchain := (List.isChain_append.1 hdone).2.2
      rcases hprev : done.getLast? with _ | prev
      · rfl
      · simpa using hchain prev hprev q rfl
    rw [place, if_neg (by omega), if_neg (by omega), if_neg (by omega), hseam, ih (by simpa using hdone)
      (by simpa using hbefore) (by simpa using hlast), List.append_assoc, List.singleton_append]

/-- A fragment that is not the last one, at the end. -/
theorem reassAt_more (hplace : place (helper p) [] true d.frags = some (.kept d.frags [] true))
    (hlast : d.lastFrag = false) (hmf : p.hdr.mf = true) : s.reassAt p i d =
      some (none, ⟨s.datagrams.set i { d with frags := d.frags ++ [helper p] },
        (s.pbufcount + pbufClen p.pbufs) % 2 ^ 16⟩) := by
  rw [reassAt, if_pos hmf, hplace]
  simp [validate, hlast]

theorem validate_done {len : ℕ} (hstop : (helper p).stop = len) (hne : d.frags ≠ [])
    (hhead : ((d.frags ++ [helper p]).head?.all fun q ↦ q.start = 0) = true) :
    validate { d with lastFrag := true, datagramLen := len } (helper p) d.frags [] true = some true := by
  have hlast : ([helper p].getLast?.all fun q ↦ q.stop = len) = true := by
    rw [List.getLast?_singleton, Option.all_some]
    exact decide_eq_true hstop
  rw [validate, if_pos rfl, if_pos ⟨rfl, hhead, rfl⟩, if_pos ⟨by simpa using hne, hlast⟩]

/-- The last one. -/
theorem reassAt_done {r : IpPacket} (hplace : place (helper p) [] true d.frags = some (.kept d.frags [] true))
    (hmf : p.hdr.mf = false) (hne : d.frags ≠ []) (hfirst : ∀ q ∈ d.frags.head?, q.start = 0)
    (hr : assemble { d with lastFrag := true, datagramLen := (helper p).stop } (d.frags ++ [helper p]) = some r) :
    ∃ s', s.reassAt p i d = some (some r, s') := by
  have hhead : ((d.frags ++ [helper p]).head?.all fun q ↦ q.start = 0) = true := by
    rcases hfrags : d.frags with _ | ⟨q, qs⟩
    · exact absurd hfrags hne
    · rw [hfrags] at hfirst
      simpa using hfirst
  rw [reassAt, if_neg (by simp [hmf]), hplace]
  have hr' : assemble { d with lastFrag := true, datagramLen := (p.hdr.start + p.hdr.payloadLen) % 2 ^ 16 }
      (d.frags ++ [helper p]) = some r := hr
  have hvalid : validate { d with lastFrag := true, datagramLen := (p.hdr.start + p.hdr.payloadLen) % 2 ^ 16 }
      (helper p) d.frags [] true = some true := validate_done rfl hne hhead
  simp only [Option.bind_some, hvalid, hr', Option.map_some]
  exact ⟨_, rfl⟩

/-- A fragment of a datagram that is not there yet. -/
theorem ipReass_new {s₂ : Reass} (hl : p.hdr.hl * 4 = ipHlen) (hmake : s.makeRoom p = some (true, s₁))
    (hnone : matching p.hdr s₁.datagrams = [])
    (henq : s₁.enqueueNewDatagram p.hdr (pbufClen p.pbufs) = some (true, s₂)) :
    s.ipReass p = s₂.reassAt p 0 (freshDatagram p) := by
  obtain ⟨ds, hds, -⟩ := enqueueNewDatagram_spec henq
  have hfind : (s₁.datagrams.findIdx? fun d ↦ addressesAndIdMatch d.iphdr p.hdr) = none :=
    List.findIdx?_eq_none_iff.2 fun d hd ↦ by
      by_contra hmatch
      have hmem : d ∈ matching p.hdr s₁.datagrams := List.mem_filter.2 ⟨hd, by simpa using hmatch⟩
      rw [hnone] at hmem
      cases hmem
  rw [ipReass, if_neg (not_not.2 hl), hmake, Option.bind_some]
  simp only [hfind, henq, Option.bind_some]
  rw [hds]
  rfl

/-- A fragment of a datagram that is there. -/
theorem ipReass_known (hl : p.hdr.hl * 4 = ipHlen) (hmake : s.makeRoom p = some (true, s₁))
    (hone : matching p.hdr s₁.datagrams = [d]) :
    ∃ i, s₁.datagrams[i]? = some d ∧ s.ipReass p = s₁.reassAt p i (adoptHdr d p.hdr) := by
  have hmem : d ∈ matching p.hdr s₁.datagrams := by
    rw [hone]
    exact List.mem_singleton_self d
  obtain ⟨hd, hmatch⟩ := List.mem_filter.1 hmem
  rcases hfind : s₁.datagrams.findIdx? fun d ↦ addressesAndIdMatch d.iphdr p.hdr with _ | i
  · have hno := List.findIdx?_eq_none_iff.1 hfind d hd
    rw [hmatch] at hno
    cases hno
  · obtain ⟨hi, hat, -⟩ := List.findIdx?_eq_some_iff_getElem.1 hfind
    have hsame : s₁.datagrams[i] = d := by
      have hmem : s₁.datagrams[i] ∈ matching p.hdr s₁.datagrams := List.mem_filter.2 ⟨List.getElem_mem hi, hat⟩
      rw [hone] at hmem
      exact List.mem_singleton.1 hmem
    have hget : s₁.datagrams[i]? = some d := by rw [List.getElem?_eq_getElem hi, hsame]
    refine ⟨i, hget, ?_⟩
    rw [ipReass, if_neg (not_not.2 hl), hmake, Option.bind_some]
    simp only [hfind, hget, Option.bind_some]

/-! ### Fragments in their order -/

/-- **The fragments of a datagram**, in their order. -/
structure InOrder (h : IpHdr) (fs : List IpPacket) : Prop where
  ok : ∀ p ∈ fs, FragOk (helper p)
  agree : ∀ p ∈ fs, addressesAndIdMatch p.hdr h = true
  nonempty : ∀ p ∈ fs, p.payload ≠ []
  contiguous : Contiguous (fs.map helper)
  first : ∀ p ∈ fs.head?, p.hdr.start = 0
  mf : ∀ pre p post, fs = pre ++ p :: post → p.hdr.mf = !post.isEmpty
  two : 2 ≤ fs.length
  fits : (fs.map fun p ↦ p.pbufs.length).sum ≤ ipReassMaxPbufs

/-- **These fragments wait in the queue**, and no others of their datagram. -/
def Waits (h : IpHdr) (fs : List IpPacket) (s : Reass) : Prop :=
  (matching h s.datagrams).map contents = fs.head?.toList.map fun q ↦ (fs.map helper, q.hdr, false)

theorem waits_nil : Waits h [] s ↔ matching h s.datagrams = [] := by
  simp [Waits]

theorem waits_cons {fs : List IpPacket} (hw : Waits h (q :: fs) s) : ∃ d, matching h s.datagrams = [d] ∧
    d.frags = (q :: fs).map helper ∧ d.iphdr = q.hdr ∧ d.lastFrag = false := by
  obtain ⟨d, hd, hcontents⟩ := List.map_eq_singleton_iff.1
    (show (matching h s.datagrams).map contents = [((q :: fs).map helper, q.hdr, false)] from hw)
  rw [contents, Prod.mk.injEq, Prod.mk.injEq] at hcontents
  exact ⟨d, hd, hcontents.1, hcontents.2.1, hcontents.2.2⟩

theorem FragOk.start_lt_stop (hq : FragOk (helper p)) (hne : p.payload ≠ []) :
    (helper p).start < (helper p).stop := by
  have hpos := List.length_pos_of_ne_nil hne
  have hstop : (helper p).stop = p.hdr.start + p.payload.length := hq.stop_eq
  have hstart : (helper p).start = p.hdr.start := rfl
  omega

instance : Trans Before Before Before := ⟨fun hab hbc ↦ ⟨hab.1.trans hbc.1, hab.2.trans hbc.1.le⟩⟩

/-- Fragments without holes, none of which is empty, are sorted. -/
theorem Contiguous.pairwise (hqs : Contiguous qs) (hlt : ∀ q ∈ qs, q.start < q.stop) : qs.Pairwise Before := by
  refine List.IsChain.pairwise (List.IsChain.imp_of_mem_imp (fun a b ha _ hab ↦ ?_) hqs)
  have hstop : a.stop = b.start := hab
  exact ⟨(hlt a ha).trans_eq hstop, hstop.le⟩

/-- What is in front of a fragment. -/
theorem InOrder.before {pre post : List IpPacket} (hfs : InOrder h (pre ++ p :: post)) :
    Contiguous (pre.map helper) ∧ (∀ q ∈ pre.map helper, Before q (helper p)) ∧
      ∀ q ∈ (pre.map helper).getLast?, q.stop = (helper p).start := by
  have hchain : Contiguous (pre.map helper ++ helper p :: post.map helper) := by
    have hall := hfs.contiguous
    rwa [List.map_append, List.map_cons] at hall
  obtain ⟨hpre, -, hseam⟩ := List.isChain_append.1 hchain
  -- a fragment that is not empty ends behind its start
  have hsorted := hchain.pairwise fun q hq ↦ by
    rw [← List.map_cons, ← List.map_append] at hq
    obtain ⟨x, hx, rfl⟩ := List.mem_map.1 hq
    exact (hfs.ok x hx).start_lt_stop (hfs.nonempty x hx)
  exact ⟨hpre, fun q hq ↦ (List.pairwise_append.1 hsorted).2.2 q hq _ List.mem_cons_self,
    fun q hq ↦ hseam q hq _ rfl⟩

/-- **The packet made of all fragments**: their payload, behind the header of the first one. -/
structure Whole (fs : List IpPacket) (r : IpPacket) : Prop where
  payload : r.payload = fs.flatMap IpPacket.payload
  hdr : ∀ f ∈ fs.head?, r.hdr = finalHdr f.hdr (ipHlen + (fs.flatMap IpPacket.payload).length)

/-- The fragments of a datagram make a packet. -/
theorem InOrder.assemble {pre : List IpPacket} (hfs : InOrder h (q :: (pre ++ [p]))) (hd : d.iphdr = q.hdr)
    (hlen : d.datagramLen = (helper p).stop) :
    ∃ r, Reass.assemble d ((q :: (pre ++ [p])).map helper) = some r ∧ Whole (q :: (pre ++ [p])) r := by
  have hok : ∀ x ∈ (q :: (pre ++ [p])).map helper, FragOk x := fun x hx ↦ by
    obtain ⟨y, hy, rfl⟩ := List.mem_map.1 hx
    exact hfs.ok y hy
  have hfrag : ((q :: (pre ++ [p])).map helper).map ReassHelper.frag = q :: (pre ++ [p]) := by
    rw [List.map_map]
    exact List.map_id _
  have hhead : ∀ x ∈ ((q :: (pre ++ [p])).map helper).head?, x.start = 0 := fun x hx ↦ by
    obtain rfl := Option.some.inj hx
    exact hfs.first q rfl
  have hlast : ∀ x ∈ ((q :: (pre ++ [p])).map helper).getLast?, x.stop = d.datagramLen := fun x hx ↦ by
    rw [← List.cons_append, List.map_append, List.map_singleton, List.getLast?_concat] at hx
    obtain rfl := Option.some.inj hx
    exact hlen.symm
  have hmf : ∃ x ∈ (q :: (pre ++ [p])).map helper, x.frag.hdr.mf = false ∧ x.stop = d.datagramLen :=
    ⟨helper p, List.mem_map_of_mem (List.mem_cons_of_mem _ (List.mem_append_right _ (List.mem_singleton_self p))),
      hfs.mf (q :: pre) p [] rfl, hlen.symm⟩
  have hq := hfs.ok q List.mem_cons_self
  obtain ⟨hcovers, htotal⟩ := covers_of_contiguous hok hfs.contiguous hhead hlast (List.cons_ne_nil _ _)
  have hlt := (hfs.ok p (List.mem_cons_of_mem _ (List.mem_append_right _ (List.mem_singleton_self p)))).stop_lt
  rw [← hlen] at hlt
  -- the header of the first one, and then payload only
  have hbytes := hq.received.2.2.1
  have hqlen := hq.length_payload
  have hrange := hq.range.1
  obtain ⟨c, hc, -, -⟩ := chainPbufs_spec hq.received.2.1 hq.received.1
    (fun x hx ↦ hok x (List.mem_cons_of_mem _ hx)) (show (pbufBytes q.pbufs).length + _ < 2 ^ 16 by
      rw [List.map_cons, List.flatMap_cons, List.length_append] at htotal
      have hsame : (helper q).frag = q := rfl
      rw [hsame] at htotal hbytes hqlen hrange
      omega)
  have hr : Reass.assemble d ((q :: (pre ++ [p])).map helper) =
      some ⟨finalHdr d.iphdr ((d.datagramLen + ipHlen) % 2 ^ 16), c⟩ := by
    rw [List.map_cons, Reass.assemble]
    exact Option.map_eq_some_iff.2 ⟨c, hc, rfl⟩
  obtain ⟨-, hpayload, -⟩ := assemble_sound hok hfs.contiguous hhead hlast hmf hr
  rw [hfrag] at hpayload
  refine ⟨_, hr, hpayload, fun f hf ↦ ?_⟩
  obtain rfl := Option.some.inj hf
  have hflat : (((q :: (pre ++ [p])).map helper).flatMap fun q ↦ q.frag.payload) =
      (q :: (pre ++ [p])).flatMap IpPacket.payload := by
    rw [List.flatMap_map]
    rfl
  rw [hflat, Nat.zero_add] at htotal
  rw [hd, htotal, Nat.add_comm ipHlen, Nat.mod_eq_of_lt hlt]

/-! ### The fragments arrive -/

/-- What becomes of a fragment: it waits, or it completes its datagram. -/
def Arrives (h : IpHdr) (fs : List IpPacket) (complete : Bool) (o : Option IpPacket) (s' : Reass) : Prop :=
  if complete = true then ∃ r, o = some r ∧ Whole fs r else o = none ∧ Waits h fs s'

/-- The first one. -/
theorem InOrder.ipReass_first {post : List IpPacket} (hfs : InOrder h (p :: post)) (hw : Waits h [] s)
    (hroom : Finds s p) : ∃ s', s.ipReass p = some (none, s') ∧ Waits h [p] s' := by
  obtain ⟨s₁, hmake, henq⟩ := hroom
  have hl : p.hdr.hl * 4 = ipHlen := (hfs.ok p List.mem_cons_self).hl
  have hagree := hfs.agree p List.mem_cons_self
  have hnone : matching p.hdr s.datagrams = [] := (matching_congr hagree _).trans (waits_nil.1 hw)
  obtain ⟨s₂, henq⟩ := henq hnone
  have hnone₁ : matching p.hdr s₁.datagrams = [] := (makeRoom_spec hmake).2.trans hnone
  have hmore : p.hdr.mf = true := by
    have htwo := hfs.two
    rw [hfs.mf [] p post rfl]
    rcases post with _ | ⟨x, post⟩
    · exact absurd htwo (by simp)
    · rfl
  obtain ⟨ds, hds, hsub⟩ := enqueueNewDatagram_spec henq
  refine ⟨_, (ipReass_new hl hmake hnone₁ henq).trans (reassAt_more rfl rfl hmore), ?_⟩
  have hrest : matching h ds = [] := List.sublist_nil.1 (by
    rw [← hnone₁, matching_congr hagree]
    exact hsub.filter _)
  rw [Waits]
  dsimp only
  rw [hds, List.set_cons_zero, matching_cons_of_pos (by exact hagree), hrest]
  rfl

/-- Another one. -/
theorem InOrder.ipReass_next {pre post : List IpPacket} (hfs : InOrder h (q :: pre ++ p :: post))
    (hw : Waits h (q :: pre) s) (hroom : Finds s p) :
    ∃ o s', s.ipReass p = some (o, s') ∧ Arrives h (q :: pre ++ [p]) post.isEmpty o s' := by
  obtain ⟨s₁, hmake, -⟩ := hroom
  have hmem : p ∈ q :: pre ++ p :: post := List.mem_append_right _ List.mem_cons_self
  have hl : p.hdr.hl * 4 = ipHlen := (hfs.ok p hmem).hl
  have hagree := hfs.agree p hmem
  obtain ⟨d, hd, hfrags, hhdr, hlast⟩ := waits_cons hw
  have hone : matching p.hdr s₁.datagrams = [d] := by
    rw [(makeRoom_spec hmake).2, matching_congr hagree, hd]
  obtain ⟨i, hi, hcall⟩ := ipReass_known hl hmake hone
  -- the header is that of the first fragment already
  have hadopt : adoptHdr d p.hdr = d := by
    have hzero : d.iphdr.start = 0 := hhdr ▸ hfs.first q rfl
    rw [adoptHdr, if_neg fun h ↦ h.2 hzero]
  rw [hadopt] at hcall
  obtain ⟨hcont, hbefore, hseam⟩ := hfs.before
  have hplace : place (helper p) [] true d.frags = some (.kept d.frags [] true) := by
    rw [hfrags]
    exact place_end hcont hbefore hseam
  rcases post with _ | ⟨x, post⟩
  · obtain ⟨r, hr, hwhole⟩ := hfs.assemble (d := { d with lastFrag := true, datagramLen := (helper p).stop })
      hhdr rfl
    obtain ⟨s', hdone⟩ := reassAt_done (s := s₁) (i := i) (d := d) (r := r) hplace (hfs.mf (q :: pre) p [] rfl)
      (by rw [hfrags]; exact List.cons_ne_nil _ _) (fun x hx ↦ by
        rw [hfrags] at hx
        obtain rfl := Option.some.inj hx
        exact hfs.first q rfl) (by rw [hfrags, ← hr, ← List.cons_append, List.map_append]; rfl)
    exact ⟨_, s', hcall.trans hdone, r, rfl, hwhole⟩
  · refine ⟨_, _, hcall.trans (reassAt_more hplace hlast (hfs.mf (q :: pre) p (x :: post) rfl)), rfl, ?_⟩
    have hhead : addressesAndIdMatch { d with frags := d.frags ++ [helper p] }.iphdr h = true := by
      have hmem : d ∈ matching h s.datagrams := by
        rw [hd]
        exact List.mem_singleton_self d
      exact (List.mem_filter.1 hmem).2
    rw [Waits]
    dsimp only
    rw [matching_set_self hi ((matching_congr hagree _).symm.trans hone) hhead, List.map_singleton, contents]
    dsimp only
    rw [hfrags, hhdr, hlast, List.cons_append, ← List.cons_append, List.map_append]
    rfl

theorem InOrder.ipReass {pre post : List IpPacket} (hfs : InOrder h (pre ++ p :: post)) (hw : Waits h pre s)
    (hroom : Finds s p) : ∃ o s', s.ipReass p = some (o, s') ∧ Arrives h (pre ++ [p]) post.isEmpty o s' := by
  rcases pre with _ | ⟨q, pre⟩
  · obtain ⟨s', hcall, hw'⟩ := hfs.ipReass_first hw hroom
    rcases post with _ | ⟨x, post⟩
    · exact absurd hfs.two (by simp)
    · exact ⟨none, s', hcall, rfl, hw'⟩
  · exact hfs.ipReass_next hw hroom

/-- The pbufs that wait are those of the fragments. -/
theorem Waits.total {fs : List IpPacket} (hw : Waits h fs s) :
    total (matching h s.datagrams) = (fs.map fun p ↦ pbufClen p.pbufs).sum := by
  rcases fs with _ | ⟨q, fs⟩
  · rw [waits_nil.1 hw]
    rfl
  · obtain ⟨d, hd, hfrags, -⟩ := waits_cons hw
    rw [hd, Reass.total, List.map_singleton, List.sum_singleton, clenSum, hfrags, List.map_map]
    rfl

/-! ### Every run -/

/-- The fragments of a datagram, among all that arrive. -/
def ownInputs (h : IpHdr) (es : List Event) : List IpPacket := es.filterMap fun
  | .input p => if addressesAndIdMatch p.hdr h = true then some p else none
  | .tmr => none

/-- **Nothing stands in the way of a datagram**: a fragment finds room without a datagram being given up; or it is
one of the datagram's own, and no other datagram has been started since it was. It does not expire. -/
def Calm (h : IpHdr) : Event → Reass → Prop
  | .input p, s => Room s p ∨ addressesAndIdMatch p.hdr h = true ∧ Leading p.hdr s
  | .tmr, s => ∀ d ∈ matching h s.datagrams, 0 < d.timer

instance (s : Reass) (p : IpPacket) : Decidable (Room s p) := inferInstanceAs (Decidable (_ ∧ _))

instance (h : IpHdr) (s : Reass) : Decidable (Leading h s) := inferInstanceAs (Decidable (List.Pairwise _ _))

instance (h : IpHdr) : (e : Event) → (s : Reass) → Decidable (Calm h e s)
  | .input _, _ => inferInstanceAs (Decidable (_ ∨ _))
  | .tmr, _ => inferInstanceAs (Decidable (∀ _ ∈ _, _))

/-- A fragment of the datagram finds room. -/
theorem InOrder.finds {pre post : List IpPacket} (hfs : InOrder h (pre ++ p :: post)) (hw : Waits h pre s)
    (hs : Sized s) (hcalm : Calm h (.input p) s) : Finds s p := by
  rcases hcalm with hroom | ⟨hagree, hl⟩
  · exact hroom.finds
  refine hl.finds hs ?_
  -- the pbufs of all fragments fit
  have hsum := hfs.fits
  have hle : (pre.map fun p ↦ pbufClen p.pbufs).sum ≤ (pre.map fun p ↦ p.pbufs.length).sum :=
    List.sum_le_sum fun x _ ↦ Nat.mod_le _ _
  have hp : pbufClen p.pbufs ≤ p.pbufs.length := Nat.mod_le _ _
  rw [List.map_append, List.map_cons, List.sum_append, List.sum_cons] at hsum
  rw [matching_congr hagree, hw.total]
  omega

/-- **In every calm run** the fragments that have arrived wait. -/
theorem InOrder.run_waits {fs : List IpPacket} {es₀ es : List Event} {s₀ : Reass} (hfs : InOrder h fs)
    (hrun₀ : runLabels anyStep es₀ init = some s₀) (hnone : matching h s₀.datagrams = [])
    (hrun : runLabels (guardStep (Calm h) anyStep) es s₀ = some s)
    (hpos : ∀ p, Event.input p ∈ es₀ ++ es → 0 < pbufClen p.pbufs) {post : List IpPacket}
    (hsplit : fs = ownInputs h es ++ post) (hpost : post ≠ []) : Waits h (ownInputs h es) s := by
  refine runLabels_induction (I := fun es s ↦ (∀ p, Event.input p ∈ es₀ ++ es → 0 < pbufClen p.pbufs) →
    ∀ post, fs = ownInputs h es ++ post → post ≠ [] → Waits h (ownInputs h es) s)
    (fun _ _ _ _ ↦ waits_nil.2 hnone) (fun ls e t t' ht ih hstep ↦ ?_) hrun hpos post hsplit hpost
  intro hpos post hsplit hpost
  have hpos' : ∀ p, Event.input p ∈ es₀ ++ ls → 0 < pbufClen p.pbufs := fun p hp ↦
    hpos p (by rw [← List.append_assoc]; exact List.mem_append_left _ hp)
  have hsized := run_sized (runLabels_append_some hrun₀ (runLabels_of_guardStep ht)) hpos'
  obtain ⟨hcalm, hstep⟩ := guardStep_eq_some.1 hstep
  have hown : ownInputs h (ls ++ [e]) = ownInputs h ls ++ ownInputs h [e] := List.filterMap_append
  rcases e with p | _
  · obtain ⟨⟨o, u⟩, hcall, rfl⟩ := Option.map_eq_some_iff.1 hstep
    rcases hp : addressesAndIdMatch p.hdr h with _ | _
    · -- one of another datagram
      have hsame : ownInputs h (ls ++ [Event.input p]) = ownInputs h ls := by
        rw [hown]
        simp [ownInputs, hp]
      rw [hsame] at hsplit ⊢
      have hroom : Room t p := hcalm.resolve_right fun hown ↦ Bool.eq_false_iff.1 hp hown.1
      rw [Waits, ipReass_other hp hroom hcall]
      exact ih hpos' post hsplit hpost
    · have hmore : ownInputs h (ls ++ [Event.input p]) = ownInputs h ls ++ [p] := by
        rw [hown]
        simp [ownInputs, hp]
      rw [hmore] at hsplit ⊢
      rw [List.append_assoc, List.singleton_append] at hsplit
      have hw := ih hpos' _ hsplit (List.cons_ne_nil _ _)
      rw [hsplit] at hfs
      obtain ⟨o', u', hcall', harrives⟩ := hfs.ipReass hw (hfs.finds hw hsized hcalm)
      cases Option.some.inj (hcall'.symm.trans hcall)
      rcases post with _ | ⟨x, post⟩
      · exact absurd rfl hpost
      · exact harrives.2
  · have hsame : ownInputs h (ls ++ [Event.tmr]) = ownInputs h ls := by
      rw [hown]
      exact List.append_nil _
    rw [hsame] at hsplit ⊢
    rw [Waits, ipReassTmr_matching hcalm hstep]
    exact ih hpos' post hsplit hpost

/-- **Fragments in their order make the packet**: in every calm run, each waits, until the last one completes the
datagram. -/
theorem InOrder.reass {fs post : List IpPacket} {es₀ es : List Event} {s₀ : Reass} (hfs : InOrder h fs)
    (hrun₀ : runLabels anyStep es₀ init = some s₀) (hnone : matching h s₀.datagrams = [])
    (hrun : runLabels (guardStep (Calm h) anyStep) es s₀ = some s)
    (hpos : ∀ p, Event.input p ∈ es₀ ++ es → 0 < pbufClen p.pbufs) (hsplit : fs = ownInputs h es ++ p :: post)
    (hcalm : Calm h (.input p) s) :
    ∃ o s', s.ipReass p = some (o, s') ∧ Arrives h (ownInputs h es ++ [p]) post.isEmpty o s' := by
  have hw := hfs.run_waits hrun₀ hnone hrun hpos hsplit (List.cons_ne_nil _ _)
  have hsized := run_sized (runLabels_append_some hrun₀ (runLabels_of_guardStep hrun)) hpos
  rw [hsplit] at hfs
  exact hfs.ipReass hw (hfs.finds hw hsized hcalm)

end Reass

end Lwip.Ipv4
