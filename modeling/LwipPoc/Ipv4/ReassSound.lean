import LwipPoc.Ipv4.Reass
import Mathlib.Data.List.Chain
import Mathlib.Data.List.TakeWhile

/-!
# Soundness of reassembly

A packet that `ip_reass` returns should be the fragments of one datagram, put together without gap or
overlap and ending with a fragment that has no more fragments behind it: `Sound`. It is not so for
every sequence of fragments. The code slips in three places:

* a fragment that is put **between** two others is not checked for a gap in front of it;
* a fragment that is **thrown away**, because it overlaps with others, has already set the length of
  the datagram if it says that no more fragments follow;
* offsets and lengths are added in a `u16_t`.

`WellPlaced` is what remains for fragments to meet, each in the state it finds; `reass_sound` is
about every run whose fragments all meet it, and `hole_returned` about one that does not.
-/

namespace Lwip.Ipv4

open Lwip.Core

/-- **What `ip_input` hands to `ip_reass`**: a chain of pbufs cut to the length in the header, with the
header in the first pbuf, and an offset field that says it is a fragment. -/
def Received (p : IpPacket) : Prop :=
  p.pbufs ≠ [] ∧ Totals p.pbufs ∧ (pbufBytes p.pbufs).length = p.hdr.len ∧ p.hdr.len < 2 ^ 16 ∧
    (∀ b ∈ p.pbufs.head?, min (p.hdr.hl * 4) p.hdr.len ≤ b.len) ∧ p.hdr.offset % 2 ^ 14 ≠ 0

instance (p : IpPacket) : Decidable (Received p) := inferInstanceAs (Decidable (_ ∧ _))

/-- The fragments, one behind the other, are the payload from `a` up to `n`. -/
def Covers : ℕ → ℕ → List IpPacket → Prop
  | a, n, [] => a = n
  | a, n, f :: fs => f.hdr.start = a ∧ Covers (a + f.payload.length) n fs

namespace Reass

/-- The datagram that a fragment belongs to. -/
def datagramOf (s : Reass) (p : IpPacket) : Option ReassData :=
  s.datagrams.find? fun d ↦ addressesAndIdMatch d.iphdr p.hdr

/-- The fragments of its datagram that wait in the queue when a fragment arrives. -/
def queueOf (s : Reass) (p : IpPacket) : List ReassHelper :=
  ((s.datagramOf p).map ReassData.frags).getD []

/-- **A sound result** `r` for the fragment `p`: the fragments in the queue, together with `p`, cover
the payload up to some `n` at which one of them ends that says so, and `r` is made of them. -/
def Sound (s : Reass) (p r : IpPacket) : Prop :=
  ∃ fs n, fs.Perm (p :: (s.queueOf p).map ReassHelper.frag) ∧ Covers 0 n fs ∧
    (∃ f ∈ fs, f.hdr.mf = false ∧ f.hdr.start + f.payload.length = n) ∧
    r.payload = fs.flatMap IpPacket.payload ∧
    pbufTotLen r.pbufs = ipHlen + n ∧ r.hdr.len = ipHlen + n

/-! ### Runs -/

/-- A fragment arrives, or the timer ticks. -/
inductive Event
  | input (p : IpPacket)
  | tmr
  deriving DecidableEq

/-- What happens at an event. -/
def step : Event → Reass → Option Reass
  | .input p, s => if Received p then (s.ipReass p).map Prod.snd else none
  | .tmr, s => s.ipReassTmr

/-! ### The condition -/

/-- No sum of offset, length and header length leaves a `u16_t`. -/
def InRange (p : IpPacket) : Prop := ipHlen ≤ p.hdr.len ∧ p.hdr.start + p.hdr.len < 2 ^ 16

/-- The two fragments start at the same offset, or overlap. -/
def Overlaps (a b : ReassHelper) : Prop :=
  a.start = b.start ∨ a.start < b.stop ∧ b.start < a.stop

/-- There are no holes between the fragments. -/
def Contiguous (qs : List ReassHelper) : Prop := qs.IsChain fun a b ↦ a.stop = b.start

/-- The fragments of the queue that start in front of `new`. -/
def front (new : ReassHelper) (qs : List ReassHelper) : List ReassHelper :=
  qs.takeWhile fun q ↦ q.start < new.start

/-- The other ones. -/
def behind (new : ReassHelper) (qs : List ReassHelper) : List ReassHelper :=
  qs.dropWhile fun q ↦ q.start < new.start

/-- Put between other fragments, `new` would make a datagram without holes, but for one in front of
it. -/
def LeavesHole (new : ReassHelper) (qs : List ReassHelper) : Prop :=
  front new qs ≠ [] ∧ behind new qs ≠ [] ∧ ((front new qs).head?.all fun q ↦ q.start = 0) = true ∧
    Contiguous (front new qs) ∧ Contiguous (new :: behind new qs) ∧
    ¬ Contiguous (front new qs ++ [new])

/-- **The condition**: in range; if it says that no more fragments follow and overlaps with others,
then it says the same as what is known of the datagram already; and once the last fragment is known,
it does not leave a hole. -/
def WellPlaced (s : Reass) (p : IpPacket) : Prop :=
  InRange p ∧
  (p.hdr.mf = false → (∃ q ∈ s.queueOf p, Overlaps q (helper p)) →
    ∃ d ∈ s.datagramOf p, d.lastFrag = true ∧ d.datagramLen = (helper p).stop) ∧
  ((∃ d ∈ s.datagramOf p, d.lastFrag = true) ∨ p.hdr.mf = false →
    ¬ LeavesHole (helper p) (s.queueOf p))

instance (a b : ReassHelper) : Decidable (Overlaps a b) := inferInstanceAs (Decidable (_ ∨ _))

instance (p : IpPacket) : Decidable (InRange p) := inferInstanceAs (Decidable (_ ∧ _))

instance (qs : List ReassHelper) : Decidable (Contiguous qs) :=
  inferInstanceAs (Decidable (List.IsChain _ _))

instance (new : ReassHelper) (qs : List ReassHelper) : Decidable (LeavesHole new qs) :=
  inferInstanceAs (Decidable (_ ∧ _))

instance (s : Reass) (p : IpPacket) : Decidable (s.WellPlaced p) := inferInstanceAs (Decidable (_ ∧ _))

/-! ### What the functions do to the list of datagrams -/

variable {s s' : Reass} {p r : IpPacket} {d : ReassData} {new : ReassHelper}
  {qs done pre post : List ReassHelper} {valid v : Bool} {i fuel freed needed : ℕ}

/-- The datagrams that a header belongs to. -/
def matching (h : IpHdr) (ds : List ReassData) : List ReassData :=
  ds.filter fun d ↦ addressesAndIdMatch d.iphdr h

theorem freeCompleteDatagram_datagrams {prev : Option ℕ} {n : ℕ}
    (hfree : s.freeCompleteDatagram i prev = some (n, s')) :
    s'.datagrams = s.datagrams.eraseIdx i := by
  rw [freeCompleteDatagram] at hfree
  split at hfree
  · cases hfree
  · split_ifs at hfree
    obtain ⟨-, rfl⟩ := Prod.mk.inj (Option.some.inj hfree)
    rfl

/-- The search finds a datagram of another header. -/
theorem findOldest_spec {h : IpHdr} {ds : List ReassData} {k others : ℕ} {oldest : Option (ℕ × ℕ)}
    {i n : ℕ} (hfind : findOldest h ds k oldest others = (some i, n)) :
    (∃ t, oldest = some (i, t)) ∨
      ∃ j d, i = k + j ∧ ds[j]? = some d ∧ addressesAndIdMatch d.iphdr h = false := by
  induction ds generalizing k others oldest with
  | nil =>
    simp only [findOldest, Prod.mk.injEq, Option.map_eq_some_iff] at hfind
    obtain ⟨⟨⟨j, t⟩, hold, rfl⟩, -⟩ := hfind
    exact Or.inl ⟨t, hold⟩
  | cons r rs ih =>
    -- what the rest of the search says about the rest of the list
    have hlift : ∀ j d, i = k + 1 + j → rs[j]? = some d → addressesAndIdMatch d.iphdr h = false →
        ∃ j d, i = k + j ∧ (r :: rs)[j]? = some d ∧ addressesAndIdMatch d.iphdr h = false :=
      fun j d hi hj hd ↦ ⟨j + 1, d, by omega, by simpa using hj, hd⟩
    have hhere : addressesAndIdMatch r.iphdr h = false → (∃ t, some (k, r.timer) = some (i, t)) →
        ∃ j d, i = k + j ∧ (r :: rs)[j]? = some d ∧ addressesAndIdMatch d.iphdr h = false := by
      rintro hr ⟨t, ht⟩
      obtain ⟨rfl, -⟩ := Prod.mk.inj (Option.some.inj ht)
      exact ⟨0, r, rfl, rfl, hr⟩
    simp only [findOldest] at hfind
    split at hfind
    · rcases ih hfind with hold | ⟨j, d, hi, hj, hd⟩
      · exact Or.inl hold
      · exact Or.inr (hlift j d hi hj hd)
    · next hmatch =>
      have hr : addressesAndIdMatch r.iphdr h = false := Bool.eq_false_iff.2 hmatch
      split at hfind
      · rcases ih hfind with hold | ⟨j, d, hi, hj, hd⟩
        · exact Or.inr (hhere hr hold)
        · exact Or.inr (hlift j d hi hj hd)
      · split at hfind
        · rcases ih hfind with hold | ⟨j, d, hi, hj, hd⟩
          · exact Or.inr (hhere hr hold)
          · exact Or.inr (hlift j d hi hj hd)
        · rcases ih hfind with hold | ⟨j, d, hi, hj, hd⟩
          · exact Or.inl hold
          · exact Or.inr (hlift j d hi hj hd)

theorem matching_eraseIdx {h : IpHdr} {ds : List ReassData} (hi : ds[i]? = some d)
    (hd : addressesAndIdMatch d.iphdr h = false) : matching h (ds.eraseIdx i) = matching h ds := by
  induction ds generalizing i with
  | nil => rfl
  | cons x xs ih =>
    cases i with
    | zero =>
      obtain rfl := Option.some.inj hi
      simp [matching, hd]
    | succ i =>
      have := ih (i := i) (by simpa using hi)
      simp only [matching] at this ⊢
      rw [List.eraseIdx_cons_succ, List.filter_cons, List.filter_cons, this]

/-- **Giving up the oldest datagrams** keeps those of the fragment. -/
theorem removeOldestDatagram_spec {h : IpHdr} {n : ℕ}
    (hrem : removeOldestDatagram h needed fuel freed s = some (n, s')) :
    s'.datagrams.Sublist s.datagrams ∧ matching h s'.datagrams = matching h s.datagrams := by
  induction fuel generalizing s freed with
  | zero => cases hrem
  | succ fuel ih =>
    rw [removeOldestDatagram] at hrem
    split at hrem
    · obtain ⟨-, rfl⟩ := Prod.mk.inj (Option.some.inj hrem)
      exact ⟨List.Sublist.refl _, rfl⟩
    · next i others hfind =>
      obtain ⟨⟨m, s₁⟩, hfree, hrem⟩ := Option.bind_eq_some_iff.1 hrem
      have hds := freeCompleteDatagram_datagrams hfree
      have hsub : s₁.datagrams.Sublist s.datagrams := hds ▸ List.eraseIdx_sublist _ _
      have hmatch : matching h s₁.datagrams = matching h s.datagrams := by
        rcases findOldest_spec hfind with ⟨t, ht⟩ | ⟨j, d, rfl, hj, hd⟩
        · cases ht
        · rw [hds, Nat.zero_add]
          exact matching_eraseIdx hj hd
      split_ifs at hrem
      · obtain ⟨hsub', hmatch'⟩ := ih hrem
        exact ⟨hsub'.trans hsub, hmatch'.trans hmatch⟩
      · obtain ⟨-, rfl⟩ := Prod.mk.inj (Option.some.inj hrem)
        exact ⟨hsub, hmatch⟩

theorem makeRoom_spec {b : Bool} (hroom : s.makeRoom p = some (b, s')) :
    s'.datagrams.Sublist s.datagrams ∧
      matching p.hdr s'.datagrams = matching p.hdr s.datagrams := by
  simp only [makeRoom] at hroom
  split_ifs at hroom
  · obtain ⟨⟨n, s₁⟩, hrem, heq⟩ := Option.map_eq_some_iff.1 hroom
    obtain ⟨-, rfl⟩ := Prod.mk.inj heq
    exact removeOldestDatagram_spec hrem
  · obtain ⟨-, rfl⟩ := Prod.mk.inj (Option.some.inj hroom)
    exact ⟨List.Sublist.refl _, rfl⟩

theorem datagramOf_eq_head? (s : Reass) (p : IpPacket) :
    s.datagramOf p = (matching p.hdr s.datagrams).head? := by
  rw [datagramOf, matching, List.head?_filter]

/-- The datagram found for a fragment is the one it belongs to. -/
theorem findIdx?_datagramOf
    (hfind : (s.datagrams.findIdx? fun d ↦ addressesAndIdMatch d.iphdr p.hdr) = some i)
    (hd : s.datagrams[i]? = some d) : s.datagramOf p = some d := by
  obtain ⟨hi, hmatch, hbefore⟩ := List.findIdx?_eq_some_iff_getElem.1 hfind
  rw [List.getElem?_eq_getElem hi] at hd
  obtain rfl := Option.some.inj hd
  exact List.find?_eq_some_iff_getElem.2 ⟨hmatch, i, hi, rfl, fun j hj ↦ by simpa using hbefore j hj⟩

theorem findIdx?_none
    (hfind : (s.datagrams.findIdx? fun d ↦ addressesAndIdMatch d.iphdr p.hdr) = none) :
    s.datagramOf p = none :=
  List.find?_eq_none.2 fun d hd ↦ by simpa using List.findIdx?_eq_none_iff.1 hfind d hd

/-! ### Placing a fragment -/

attribute [local simp] place

theorem contiguous_concat {q : ReassHelper} : Contiguous (qs ++ [q]) ↔
    Contiguous qs ∧ ∀ x ∈ qs.getLast?, x.stop = q.start := by
  simp [Contiguous, List.isChain_append]

/-- **Where the loop puts a fragment**: behind all that start in front of it. If the loop saw no hole
then there is none among those, and none in front of a fragment that is put at the end. -/
theorem place_kept (hplace : place new done valid qs = some (.kept pre post v))
    (hvalid : valid = true → Contiguous done) (hdone : ∀ q ∈ done, q.start < new.start) :
    pre ++ post = done ++ qs ∧ (∀ q ∈ pre, q.start < new.start) ∧
      (∀ q ∈ post.head?, new.start < q.start) ∧
      (v = true → Contiguous pre ∧ (post = [] → Contiguous (pre ++ [new]))) := by
  induction qs generalizing done valid with
  | nil =>
    rw [place] at hplace
    split at hplace
    · next prev hprev =>
      split_ifs at hplace
      obtain ⟨rfl, rfl, rfl⟩ := Chained.kept.inj (Option.some.inj hplace)
      refine ⟨rfl, hdone, by simp, fun hv ↦ ?_⟩
      rw [Bool.and_eq_true, decide_eq_true_eq] at hv
      refine ⟨hvalid hv.1, fun _ ↦ contiguous_concat.2 ⟨hvalid hv.1, fun x hx ↦ ?_⟩⟩
      rw [hprev] at hx
      obtain rfl := Option.some.inj hx
      exact hv.2
    · next hprev =>
      obtain ⟨rfl, rfl, rfl⟩ := Chained.kept.inj (Option.some.inj hplace)
      rw [List.getLast?_eq_none_iff.1 hprev]
      exact ⟨rfl, by simp, by simp, fun _ ↦ ⟨List.isChain_nil, fun _ ↦ List.isChain_singleton _⟩⟩
  | cons q qs ih =>
    rw [place] at hplace
    split_ifs at hplace with hlt heq hov
    · split at hplace
      · split_ifs at hplace
        · cases hplace
        · obtain ⟨rfl, rfl, rfl⟩ := Chained.kept.inj (Option.some.inj hplace)
          exact ⟨rfl, hdone, by simpa using hlt, fun hv ↦ ⟨hvalid hv, nofun⟩⟩
      · next hprev =>
        obtain ⟨rfl, rfl, rfl⟩ := Chained.kept.inj (Option.some.inj hplace)
        rw [List.getLast?_eq_none_iff.1 hprev]
        exact ⟨rfl, by simp, by simpa using hlt, fun _ ↦ ⟨List.isChain_nil, nofun⟩⟩
    · cases hplace
    · cases hplace
    · have hq : q.start < new.start := by omega
      have hsplit : done ++ [q] ++ qs = done ++ q :: qs := by simp
      rw [← hsplit]
      refine ih hplace (fun hv ↦ ?_) fun x hx ↦ ?_
      · rw [Bool.and_eq_true] at hv
        refine contiguous_concat.2 ⟨hvalid hv.1, fun x hx ↦ ?_⟩
        have hall := hv.2
        rw [Option.mem_def.1 hx] at hall
        simpa using hall
      · rcases List.mem_append.1 hx with hx | hx
        · exact hdone x hx
        · rw [List.mem_singleton.1 hx]
          exact hq

/-- A fragment that is thrown away overlaps with one in the queue. -/
theorem place_dropped (hplace : place new done valid qs = some .dropped)
    (hdone : ∀ q ∈ done, q.start < new.start) (hqs : ∀ q ∈ qs, q.start ≤ q.stop)
    (hnew : new.start ≤ new.stop) : ∃ q ∈ done ++ qs, Overlaps q new := by
  induction qs generalizing done valid with
  | nil =>
    rw [place] at hplace
    split at hplace
    · split_ifs at hplace
      cases hplace
    · cases hplace
  | cons q qs ih =>
    have hq := hqs q List.mem_cons_self
    rw [place] at hplace
    split_ifs at hplace with hlt heq hov
    · split at hplace
      · next prev hprev =>
        split_ifs at hplace with hov
        · have hmem := List.mem_of_getLast? hprev
          have := hdone prev hmem
          rcases hov with hov | hov
          · exact ⟨prev, List.mem_append_left _ hmem, Or.inr ⟨by omega, hov⟩⟩
          · exact ⟨q, by simp, Or.inr ⟨hov, by omega⟩⟩
        · cases hplace
      · cases hplace
    · exact ⟨q, by simp, Or.inl heq.symm⟩
    · exact ⟨q, by simp, Or.inr ⟨by omega, hov⟩⟩
    · have hsplit : done ++ [q] ++ qs = done ++ q :: qs := by simp
      rw [← hsplit]
      refine ih hplace (fun x hx ↦ ?_) fun x hx ↦ hqs x (List.mem_cons_of_mem q hx)
      rcases List.mem_append.1 hx with hx | hx
      · exact hdone x hx
      · rw [List.mem_singleton.1 hx]
        omega

theorem front_append (hpre : ∀ q ∈ pre, q.start < new.start)
    (hpost : ∀ q ∈ post.head?, new.start < q.start) :
    front new (pre ++ post) = pre ∧ behind new (pre ++ post) = post := by
  have hpre' : ∀ q ∈ pre, decide (q.start < new.start) = true := fun q hq ↦ by simpa using hpre q hq
  rw [front, behind, List.takeWhile_append_of_pos hpre', List.dropWhile_append_of_pos hpre']
  cases post with
  | nil => exact ⟨by simp, rfl⟩
  | cons q qs =>
    have hq : ¬ q.start < new.start := by
      have := hpost q rfl
      omega
    simp [hq]

theorem noHoles_iff : noHoles new qs = true ↔ Contiguous (new :: qs) := by
  induction qs generalizing new with
  | nil => exact iff_of_true rfl (List.isChain_singleton new)
  | cons q qs ih =>
    rw [noHoles, Bool.and_eq_true, decide_eq_true_eq, ih, Contiguous, Contiguous,
      List.isChain_cons_cons]

/-! ### The invariant -/

/-- A fragment in the queue is one that was received, with its range in the datagram. -/
structure FragOk (q : ReassHelper) : Prop where
  eq : q = helper q.frag
  received : Received q.frag
  range : InRange q.frag
  hl : q.frag.hdr.hl * 4 = ipHlen

/-- A datagram whose last fragment is known has it in its queue. -/
structure DatagramOk (d : ReassData) : Prop where
  frags : ∀ q ∈ d.frags, FragOk q
  last : d.lastFrag = true → ∃ q ∈ d.frags, q.frag.hdr.mf = false ∧ q.stop = d.datagramLen

/-- **The invariant** of well-placed fragments. -/
def Ok (s : Reass) : Prop := ∀ d ∈ s.datagrams, DatagramOk d

theorem fragOk_helper (hrec : Received p) (hrange : InRange p) (hl : p.hdr.hl * 4 = ipHlen) :
    FragOk (helper p) :=
  ⟨rfl, hrec, hrange, hl⟩

theorem FragOk.length_payload {q : ReassHelper} (hq : FragOk q) :
    q.frag.payload.length = q.frag.hdr.len - ipHlen := by
  rw [IpPacket.payload, List.length_drop, hq.received.2.2.1]

theorem FragOk.start_eq {q : ReassHelper} (hq : FragOk q) : q.start = q.frag.hdr.start := by
  rw [hq.eq]
  rfl

theorem FragOk.stop_eq {q : ReassHelper} (hq : FragOk q) :
    q.stop = q.frag.hdr.start + q.frag.payload.length := by
  have hhelper : q.stop = (q.frag.hdr.start + q.frag.hdr.payloadLen) % 2 ^ 16 := by
    rw [hq.eq]
    rfl
  have hlen : q.frag.hdr.payloadLen = q.frag.hdr.len - ipHlen := by
    have := hq.received.2.2.2.1
    have := hq.range.1
    rw [IpHdr.payloadLen, hq.hl]
    omega
  have := hq.range.1
  have := hq.range.2
  rw [hhelper, hq.length_payload, hlen]
  omega

theorem FragOk.stop_lt {q : ReassHelper} (hq : FragOk q) : q.stop + ipHlen < 2 ^ 16 := by
  have := hq.range.1
  have := hq.range.2
  rw [hq.stop_eq, hq.length_payload]
  omega

/-- The pbufs of a fragment without its header. -/
theorem FragOk.hide {q : ReassHelper} (hq : FragOk q) :
    ∃ t, pbufHide ipHlen q.frag.pbufs = some t ∧ Totals t ∧ pbufBytes t = q.frag.payload := by
  obtain ⟨hne, htot, hlen, hlt, hhead, -⟩ := hq.received
  have hrange := hq.range.1
  have hhl := hq.hl
  rw [IpPacket.payload]
  cases hps : q.frag.pbufs with
  | nil => exact absurd hps hne
  | cons b bs =>
    rw [hps] at htot hlen hhead
    have hb := hhead b rfl
    obtain ⟨t, ht, htt, -, htb⟩ := htot.hide (n := ipHlen) (by omega) (by omega)
    exact ⟨t, ht, htt, htb⟩

/-! ### Putting the packet together -/

/-- **Chaining the pbufs** concatenates the payloads. -/
theorem chainPbufs_spec {ps : List Pbuf} (hps : Totals ps) (hne : ps ≠ []) (hqs : ∀ q ∈ qs, FragOk q)
    (hlen : (pbufBytes ps).length + (qs.flatMap fun q ↦ q.frag.payload).length < 2 ^ 16) :
    ∃ c, chainPbufs ps qs = some c ∧ Totals c ∧
      pbufBytes c = pbufBytes ps ++ qs.flatMap fun q ↦ q.frag.payload := by
  induction qs generalizing ps with
  | nil => exact ⟨ps, rfl, hps, by simp⟩
  | cons q qs ih =>
    rw [List.flatMap_cons, List.length_append] at hlen
    obtain ⟨t, ht, htt, htb⟩ := (hqs q List.mem_cons_self).hide
    obtain ⟨c, hc, hct, hcl, hcb⟩ := hps.cat htt hne (by rw [htb]; omega)
    have hcne : c ≠ [] := by
      rintro rfl
      exact hne (List.eq_nil_of_length_eq_zero (by simp at hcl; omega))
    obtain ⟨c', hc', hct', hcb'⟩ := ih hct hcne (fun x hx ↦ hqs x (List.mem_cons_of_mem q hx))
      (by rw [hcb, htb, List.length_append]; omega)
    refine ⟨c', ?_, hct', ?_⟩
    · rw [chainPbufs, ht, Option.bind_some, hc, Option.bind_some, hc']
    · rw [hcb', hcb, htb, List.flatMap_cons, List.append_assoc]

/-- Fragments without holes cover the payload from where the first one starts to where the last one
ends. -/
theorem covers_of_contiguous {a n : ℕ} (hqs : ∀ q ∈ qs, FragOk q) (hc : Contiguous qs)
    (hhead : ∀ q ∈ qs.head?, q.start = a) (hlast : ∀ q ∈ qs.getLast?, q.stop = n) (hne : qs ≠ []) :
    Covers a n (qs.map ReassHelper.frag) ∧
      a + (qs.flatMap fun q ↦ q.frag.payload).length = n := by
  induction qs generalizing a with
  | nil => exact absurd rfl hne
  | cons q qs ih =>
    have hq := hqs q List.mem_cons_self
    have hstart : q.start = a := hhead q rfl
    have hstop := hq.stop_eq
    rw [← hq.start_eq, hstart] at hstop
    rw [List.map_cons, List.flatMap_cons, List.length_append]
    cases qs with
    | nil =>
      have hn : q.stop = n := hlast q rfl
      exact ⟨⟨by rw [← hq.start_eq, hstart], hstop.symm.trans hn⟩, by simp; omega⟩
    | cons x xs =>
      obtain ⟨hqx, hc'⟩ := List.isChain_cons_cons.1 hc
      obtain ⟨hcov, hsum⟩ := ih (a := a + q.frag.payload.length)
        (fun y hy ↦ hqs y (List.mem_cons_of_mem q hy)) hc'
        (fun y hy ↦ by
          obtain rfl := Option.some.inj hy
          rw [← hqx, hstop])
        (fun y hy ↦ hlast y (by simpa using hy)) (List.cons_ne_nil _ _)
      exact ⟨⟨by rw [← hq.start_eq, hstart], hcov⟩, by omega⟩

/-- **The packet of a complete datagram.** -/
theorem assemble_sound (hqs : ∀ q ∈ qs, FragOk q) (hc : Contiguous qs)
    (hhead : ∀ q ∈ qs.head?, q.start = 0) (hlast : ∀ q ∈ qs.getLast?, q.stop = d.datagramLen)
    (hmf : ∃ q ∈ qs, q.frag.hdr.mf = false ∧ q.stop = d.datagramLen)
    (hr : assemble d qs = some r) :
    Covers 0 d.datagramLen (qs.map ReassHelper.frag) ∧
      r.payload = (qs.map ReassHelper.frag).flatMap IpPacket.payload ∧
      pbufTotLen r.pbufs = ipHlen + d.datagramLen ∧ r.hdr.len = ipHlen + d.datagramLen := by
  obtain ⟨last, hlast_mem, -, hlast_stop⟩ := hmf
  have hbound := (hqs last hlast_mem).stop_lt
  have hhlen : ipHlen = 20 := rfl
  cases qs with
  | nil => cases hlast_mem
  | cons q qs =>
    obtain ⟨hcov, hsum⟩ := covers_of_contiguous hqs hc hhead hlast (List.cons_ne_nil _ _)
    have hq := hqs q List.mem_cons_self
    have hq_len := hq.length_payload
    have hq_range := hq.range.1
    obtain ⟨hne, htot, hlen, -⟩ := hq.received
    rw [List.flatMap_cons, List.length_append] at hsum
    obtain ⟨c, hchain, hct, hcb⟩ := chainPbufs_spec htot hne
      (fun x hx ↦ hqs x (List.mem_cons_of_mem q hx)) (by omega)
    rw [assemble, hchain, Option.map_some] at hr
    obtain rfl := Option.some.inj hr
    refine ⟨hcov, ?_, ?_, ?_⟩
    · show (pbufBytes c).drop ipHlen = _
      rw [hcb, List.drop_append_of_le_length (by omega), List.map_cons, List.flatMap_cons,
        List.flatMap_map]
      rfl
    · show pbufTotLen c = _
      rw [hct.totLen_eq, hcb, List.length_append]
      omega
    · show (d.datagramLen + ipHlen) % 2 ^ 16 = _
      omega

/-! ### One fragment -/

/-- The condition, for the datagram that the fragment goes to. -/
structure PlacedIn (d : ReassData) (p : IpPacket) : Prop where
  range : InRange p
  overlap : p.hdr.mf = false → (∃ q ∈ d.frags, Overlaps q (helper p)) →
    d.lastFrag = true ∧ d.datagramLen = (helper p).stop
  hole : d.lastFrag = true ∨ p.hdr.mf = false → ¬ LeavesHole (helper p) d.frags

/-- What the code notes about the datagram before it looks where the fragment goes. -/
def noteLast (d : ReassData) (p : IpPacket) : ReassData :=
  if p.hdr.mf = true then d else
    { d with lastFrag := true, datagramLen := (p.hdr.start + p.hdr.payloadLen) % 2 ^ 16 }

theorem noteLast_frags (d : ReassData) (p : IpPacket) : (noteLast d p).frags = d.frags := by
  rw [noteLast]
  split_ifs <;> rfl

theorem noteLast_lastFrag (h : (noteLast d p).lastFrag = true) :
    d.lastFrag = true ∨ p.hdr.mf = false := by
  rw [noteLast] at h
  split_ifs at h with hmf
  · exact Or.inl h
  · exact Or.inr (Bool.eq_false_iff.2 hmf)

/-- The invariant after the fragment is kept. -/
theorem DatagramOk.keep (hd : DatagramOk d) (hp : FragOk (helper p))
    (hperm : qs.Perm (helper p :: d.frags)) : DatagramOk { noteLast d p with frags := qs } := by
  refine ⟨fun q hq ↦ ?_, fun hlast ↦ ?_⟩
  · rcases List.mem_cons.1 (hperm.mem_iff.1 hq) with rfl | hq
    · exact hp
    · exact hd.frags q hq
  · show ∃ q ∈ qs, q.frag.hdr.mf = false ∧ q.stop = (noteLast d p).datagramLen
    by_cases hmf : p.hdr.mf = true
    · rw [noteLast, if_pos hmf] at hlast ⊢
      obtain ⟨q, hq, hqs⟩ := hd.last hlast
      exact ⟨q, hperm.mem_iff.2 (List.mem_cons_of_mem _ hq), hqs⟩
    · rw [noteLast, if_neg hmf]
      exact ⟨helper p, hperm.mem_iff.2 List.mem_cons_self, Bool.eq_false_iff.2 hmf, rfl⟩

/-- The invariant after the fragment is thrown away: it told nothing new. -/
theorem DatagramOk.drop (hd : DatagramOk d) (hp : PlacedIn d p)
    (hov : ∃ q ∈ d.frags, Overlaps q (helper p)) : DatagramOk (noteLast d p) := by
  by_cases hmf : p.hdr.mf = true
  · rwa [noteLast, if_pos hmf]
  · obtain ⟨hlast, hlen⟩ := hp.overlap (Bool.eq_false_iff.2 hmf) hov
    have hsame : noteLast d p = d := by
      rw [noteLast, if_neg hmf]
      cases d
      simp_all [helper]
    rwa [hsame]

/-- A fragment that the code finds no hole around, and that is well placed, has none in front of it
either. -/
theorem contiguous_of_valid (hperm : pre ++ post = d.frags)
    (hpre : ∀ q ∈ pre, q.start < new.start) (hpost : ∀ q ∈ post.head?, new.start < q.start)
    (hc : Contiguous pre ∧ (post = [] → Contiguous (pre ++ [new])))
    (hhead : ((pre ++ new :: post).head?.all fun q ↦ q.start = 0) = true)
    (hc' : Contiguous (new :: post)) (hhole : ¬ LeavesHole new d.frags) :
    Contiguous (pre ++ new :: post) := by
  obtain ⟨hfront, hbehind⟩ := front_append hpre hpost
  rw [hperm] at hfront hbehind
  have hlast : Contiguous (pre ++ [new]) := by
    rcases eq_or_ne post [] with hnil | hne
    · exact hc.2 hnil
    rcases eq_or_ne pre [] with rfl | hne'
    · exact List.isChain_singleton new
    · by_contra hnot
      refine hhole ⟨hfront ▸ hne', hbehind ▸ hne, ?_, hfront ▸ hc.1, hbehind ▸ hc', hfront ▸ hnot⟩
      rw [hfront]
      rwa [List.head?_append_of_ne_nil _ hne'] at hhead
  refine List.isChain_append.2 ⟨hc.1, hc', fun x hx y hy ↦ ?_⟩
  obtain rfl := Option.some.inj hy
  exact (contiguous_concat.1 hlast).2 x hx

/-- **One fragment, once its datagram is known**: it is thrown away or kept, or it completes the
datagram. -/
theorem reassAt_spec {o : Option IpPacket} (hd : DatagramOk d) (hp : PlacedIn d p)
    (hrec : Received p) (hl : p.hdr.hl * 4 = ipHlen) (hcall : s.reassAt p i d = some (o, s')) :
    (o = none ∧ ∃ d', DatagramOk d' ∧ s'.datagrams = s.datagrams.set i d') ∨
      (∃ r fs n, o = some r ∧ s'.datagrams = s.datagrams.eraseIdx i ∧
        fs.Perm (p :: d.frags.map ReassHelper.frag) ∧ Covers 0 n fs ∧
        (∃ f ∈ fs, f.hdr.mf = false ∧ f.hdr.start + f.payload.length = n) ∧
        r.payload = fs.flatMap IpPacket.payload ∧
        pbufTotLen r.pbufs = ipHlen + n ∧ r.hdr.len = ipHlen + n) := by
  have hfrag := fragOk_helper hrec hp.range hl
  have hle : ∀ q, FragOk q → q.start ≤ q.stop := fun q hq ↦ by
    rw [hq.start_eq, hq.stop_eq]
    exact Nat.le_add_right _ _
  obtain ⟨ch, hplace, hcall⟩ := Option.bind_eq_some_iff.1
    (show (place (helper p) [] true (noteLast d p).frags).bind _ = _ from hcall)
  rw [noteLast_frags] at hplace
  cases ch with
  | dropped =>
    obtain ⟨rfl, rfl⟩ := Prod.mk.inj (Option.some.inj hcall)
    have hov := place_dropped hplace (by simp) (fun q hq ↦ hle q (hd.frags q hq)) (hle _ hfrag)
    exact Or.inl ⟨rfl, _, hd.drop hp hov, rfl⟩
  | kept pre post v =>
    obtain ⟨hsplit, hpre, hpost, hcont⟩ := place_kept hplace (fun _ ↦ List.isChain_nil) (by simp)
    rw [List.nil_append] at hsplit
    have hperm : (pre ++ helper p :: post).Perm (helper p :: d.frags) := by
      rw [← hsplit]
      exact List.perm_middle
    have hkeep := hd.keep hfrag hperm
    obtain ⟨ok, hval, hcall⟩ := Option.bind_eq_some_iff.1
      (show (validate (noteLast d p) (helper p) pre post v).bind _ = _ from hcall)
    cases ok with
    | false =>
      obtain ⟨rfl, rfl⟩ := Prod.mk.inj (Option.some.inj hcall)
      exact Or.inl ⟨rfl, _, hkeep, rfl⟩
    | true =>
      obtain ⟨r, hr, heq⟩ := Option.map_eq_some_iff.1
        (show (assemble (noteLast d p) (pre ++ helper p :: post)).map _ = _ from hcall)
      obtain ⟨rfl, rfl⟩ := Prod.mk.inj heq
      -- what the validation has checked
      rw [validate] at hval
      split_ifs at hval with hlast hvalid hend
      · obtain ⟨hv, hhead, hnoholes⟩ := hvalid
        have hall := contiguous_of_valid hsplit hpre hpost (hcont hv) hhead
          (noHoles_iff.1 hnoholes) (hp.hole (noteLast_lastFrag hlast))
        have hend' : ∀ q ∈ (pre ++ helper p :: post).getLast?,
            q.stop = (noteLast d p).datagramLen := fun q hq ↦ by
          rw [List.getLast?_append_of_ne_nil _ (List.cons_ne_nil _ _)] at hq
          have hall := hend.2
          rw [Option.mem_def.1 hq] at hall
          simpa using hall
        have hhead' : ∀ q ∈ (pre ++ helper p :: post).head?, q.start = 0 := fun q hq ↦ by
          rw [Option.mem_def.1 hq] at hhead
          simpa using hhead
        obtain ⟨hcov, hpay, htot, hlen⟩ :=
          assemble_sound hkeep.frags hall hhead' hend' (hkeep.last hlast) hr
        obtain ⟨q, hq, hmf, hstop⟩ := hkeep.last hlast
        refine Or.inr ⟨r, _, _, rfl, rfl, hperm.map ReassHelper.frag, hcov,
          ⟨q.frag, List.mem_map_of_mem hq, hmf, ?_⟩, hpay, htot, hlen⟩
        rw [← (hkeep.frags q hq).stop_eq]
        exact hstop
      · cases hval
      · cases hval

theorem DatagramOk.adopt {h : IpHdr} (hd : DatagramOk d) : DatagramOk (adoptHdr d h) := by
  rw [adoptHdr]
  split_ifs
  · exact ⟨hd.frags, hd.last⟩
  · exact hd

theorem Ok.set (hok : s.Ok) (hd : DatagramOk d) (hds : s'.datagrams = s.datagrams.set i d) :
    s'.Ok := by
  intro x hx
  rw [hds] at hx
  rcases List.mem_or_eq_of_mem_set hx with hx | rfl
  · exact hok x hx
  · exact hd

theorem Ok.sublist (hok : s.Ok) (hsub : s'.datagrams.Sublist s.datagrams) : s'.Ok :=
  fun d hd ↦ hok d (hsub.subset hd)

/-- The condition on the fragment is one on its datagram. -/
theorem WellPlaced.placedIn {h : IpHdr} (hwp : s.WellPlaced p) (hof : s.datagramOf p = some d) :
    PlacedIn (adoptHdr d h) p := by
  have hfrags : (adoptHdr d h).frags = d.frags ∧ (adoptHdr d h).lastFrag = d.lastFrag ∧
      (adoptHdr d h).datagramLen = d.datagramLen := by
    rw [adoptHdr]
    split_ifs <;> exact ⟨rfl, rfl, rfl⟩
  have hqueue : s.queueOf p = d.frags := by rw [queueOf, hof]; rfl
  obtain ⟨hrange, hov, hhole⟩ := hwp
  rw [hqueue] at hov hhole
  refine ⟨hrange, fun hmf hex ↦ ?_, fun hlast ↦ ?_⟩
  · rw [hfrags.1] at hex
    obtain ⟨d', hd', hlast, hlen⟩ := hov hmf hex
    obtain rfl := Option.some.inj (hof.symm.trans hd')
    exact ⟨hfrags.2.1.trans hlast, hfrags.2.2.trans hlen⟩
  · rw [hfrags.1]
    exact hhole (hlast.imp_left fun hl ↦ ⟨d, hof, hfrags.2.1 ▸ hl⟩)

theorem WellPlaced.placedIn_new (hwp : s.WellPlaced p) (n : ℕ) :
    PlacedIn ⟨[], p.hdr, 0, false, n⟩ p := by
  refine ⟨hwp.1, fun _ ↦ ?_, fun _ hleaves ↦ hleaves.1 rfl⟩
  rintro ⟨q, hq, -⟩
  cases hq

theorem enqueueNewDatagram_spec {h : IpHdr} {n : ℕ} (henq : s.enqueueNewDatagram h n = some (true, s')) :
    ∃ ds, s'.datagrams = ⟨[], h, 0, false, ipReassMaxage⟩ :: ds ∧ ds.Sublist s.datagrams := by
  simp only [enqueueNewDatagram] at henq
  split_ifs at henq
  · obtain ⟨-, rfl⟩ := Prod.mk.inj (Option.some.inj henq)
    exact ⟨_, rfl, List.Sublist.refl _⟩
  · obtain ⟨⟨m, s₁⟩, hrem, heq⟩ := Option.map_eq_some_iff.1 henq
    split_ifs at heq
    · obtain ⟨-, rfl⟩ := Prod.mk.inj heq
      exact ⟨_, rfl, (removeOldestDatagram_spec hrem).1⟩
    · cases (Prod.mk.inj heq).1

theorem enqueueNewDatagram_false {h : IpHdr} {n : ℕ}
    (henq : s.enqueueNewDatagram h n = some (false, s')) : s'.datagrams.Sublist s.datagrams := by
  simp only [enqueueNewDatagram] at henq
  split_ifs at henq
  · cases (Prod.mk.inj (Option.some.inj henq)).1
  · obtain ⟨⟨m, s₁⟩, hrem, heq⟩ := Option.map_eq_some_iff.1 henq
    split_ifs at heq
    · cases (Prod.mk.inj heq).1
    · obtain ⟨-, rfl⟩ := Prod.mk.inj heq
      exact (removeOldestDatagram_spec hrem).1

/-- **One fragment**: the invariant is kept, and a packet that is returned is sound. -/
theorem Ok.ipReass {o : Option IpPacket} (hok : s.Ok) (hrec : Received p) (hwp : s.WellPlaced p)
    (hcall : s.ipReass p = some (o, s')) : s'.Ok ∧ ∀ r ∈ o, s.Sound p r := by
  rw [Reass.ipReass] at hcall
  split_ifs at hcall with hl
  · obtain ⟨rfl, rfl⟩ := Prod.mk.inj (Option.some.inj hcall)
    exact ⟨hok, nofun⟩
  have hl := not_not.1 hl
  obtain ⟨⟨b, s₁⟩, hroom, hcall⟩ := Option.bind_eq_some_iff.1 hcall
  obtain ⟨hsub, hmatch⟩ := makeRoom_spec hroom
  have hok₁ := hok.sublist hsub
  -- giving up datagrams does not touch the one of the fragment
  have hof : s₁.datagramOf p = s.datagramOf p := by
    rw [datagramOf_eq_head?, datagramOf_eq_head?, hmatch]
  cases b with
  | false =>
    obtain ⟨rfl, rfl⟩ := Prod.mk.inj (Option.some.inj hcall)
    exact ⟨hok₁, nofun⟩
  | true =>
    simp only at hcall
    split at hcall
    · next i hfind =>
      obtain ⟨d, hd, hcall⟩ := Option.bind_eq_some_iff.1 hcall
      have hof₁ := findIdx?_datagramOf hfind hd
      rw [hof] at hof₁
      have hqueue : s.queueOf p = d.frags := by rw [queueOf, hof₁]; rfl
      have hadopt : (adoptHdr d p.hdr).frags = d.frags := by
        rw [adoptHdr]
        split_ifs <;> rfl
      have hdok := (hok₁ d (List.mem_of_getElem? hd)).adopt (h := p.hdr)
      rcases reassAt_spec hdok (hwp.placedIn hof₁) hrec hl hcall with
        ⟨rfl, d', hd', hds⟩ | ⟨r, fs, n, rfl, hds, hperm, hsound⟩
      · exact ⟨hok₁.set hd' hds, nofun⟩
      · refine ⟨hok₁.sublist (hds ▸ List.eraseIdx_sublist _ _), fun x hx ↦ ?_⟩
        obtain rfl := Option.some.inj hx
        rw [hadopt, ← hqueue] at hperm
        exact ⟨fs, n, hperm, hsound⟩
    · next hfind =>
      have hnone := findIdx?_none hfind
      rw [hof] at hnone
      obtain ⟨⟨b, s₂⟩, henq, hcall⟩ := Option.bind_eq_some_iff.1 hcall
      cases b with
      | false =>
        obtain ⟨rfl, rfl⟩ := Prod.mk.inj (Option.some.inj hcall)
        exact ⟨hok₁.sublist (enqueueNewDatagram_false henq), nofun⟩
      | true =>
        obtain ⟨ds, hds, hsub'⟩ := enqueueNewDatagram_spec henq
        obtain ⟨d, hd, hcall⟩ := Option.bind_eq_some_iff.1 hcall
        rw [hds] at hd
        obtain rfl := Option.some.inj hd
        have hdok : DatagramOk ⟨[], p.hdr, 0, false, ipReassMaxage⟩ := ⟨nofun, nofun⟩
        have hok₂ : s₂.Ok := fun x hx ↦ by
          rw [hds] at hx
          rcases List.mem_cons.1 hx with rfl | hx
          · exact hdok
          · exact hok₁ x (hsub'.subset hx)
        have hqueue : s.queueOf p = [] := by rw [queueOf, hnone]; rfl
        rcases reassAt_spec hdok (hwp.placedIn_new _) hrec hl hcall with
          ⟨rfl, d', hd', hds'⟩ | ⟨r, fs, n, rfl, hds', hperm, hsound⟩
        · exact ⟨hok₂.set hd' hds', nofun⟩
        · refine ⟨hok₂.sublist (hds' ▸ List.eraseIdx_sublist _ _), fun x hx ↦ ?_⟩
          obtain rfl := Option.some.inj hx
          rw [Sound, hqueue]
          exact ⟨fs, n, hperm, hsound⟩

/-- **A tick** changes timers, and gives up datagrams. -/
theorem tmrLoop_ok {ds : List ReassData} {todo : List ReassData} {count : ℕ}
    (hds : ∀ d ∈ ds, DatagramOk d) (htodo : ∀ d ∈ todo, DatagramOk d)
    (htmr : tmrLoop ds todo count = some s') : s'.Ok := by
  induction todo generalizing ds count with
  | nil =>
    obtain rfl := Option.some.inj htmr
    exact hds
  | cons d todo ih =>
    have hd := htodo d List.mem_cons_self
    have htodo' : ∀ x ∈ todo, DatagramOk x := fun x hx ↦ htodo x (List.mem_cons_of_mem d hx)
    rw [tmrLoop] at htmr
    split_ifs at htmr
    · refine ih (fun x hx ↦ ?_) htodo' htmr
      rcases List.mem_append.1 hx with hx | hx
      · exact hds x hx
      · rw [List.mem_singleton.1 hx]
        exact ⟨hd.frags, hd.last⟩
    all_goals
      obtain ⟨res, -, htmr⟩ := Option.bind_eq_some_iff.1 htmr
      exact ih hds htodo' htmr

/-! ### Every run -/

/-- The condition on an event. -/
def EventOk : Event → Reass → Prop
  | .input p, s => s.WellPlaced p
  | .tmr, _ => True

instance : (e : Event) → (s : Reass) → Decidable (EventOk e s)
  | .input p, s => inferInstanceAs (Decidable (s.WellPlaced p))
  | .tmr, _ => inferInstanceAs (Decidable True)

theorem Ok.step {e : Event} (hok : s.Ok) (hstep : guardStep EventOk step e s = some s') : s'.Ok := by
  obtain ⟨hev, hstep⟩ := guardStep_eq_some.1 hstep
  cases e with
  | input p =>
    rw [Reass.step] at hstep
    split_ifs at hstep with hrec
    obtain ⟨⟨o, s₁⟩, hcall, rfl⟩ := Option.map_eq_some_iff.1 hstep
    exact (hok.ipReass hrec hev hcall).1
  | tmr => exact tmrLoop_ok (by simp) hok hstep

theorem run_ok {es : List Event} (h : runLabels (guardStep EventOk step) es init = some s) : s.Ok :=
  runLabels_invariant (I := Ok) (by simp [Ok, init]) (fun _ _ _ hok hstep ↦ hok.step hstep) h

/-- **Reassembly is sound** in every run whose fragments are well placed: whatever `ip_reass` returns
for one more such fragment is the payload of a whole datagram. -/
theorem reass_sound {es : List Event} (h : runLabels (guardStep EventOk step) es init = some s)
    (hrec : Received p) (hwp : s.WellPlaced p) (hret : s.ipReass p = some (some r, s')) :
    s.Sound p r :=
  ((run_ok h).ipReass hrec hwp hret).2 r rfl

/-- A fragment with this offset and payload length, of a datagram with this identification. -/
def fragment (id offset : ℕ) (mf : Bool) (len : ℕ) : IpPacket where
  hdr := ⟨0x45, 0, 20 + len, id, offset / 8 + if mf = true then 2 ^ 13 else 0, 64, 17, 0, 1, 2⟩
  pbufs := [⟨List.replicate (20 + len) 0, 20 + len⟩]

theorem reass_sound_reordered : ∃ s,
    runLabels (guardStep EventOk step) [.input (fragment 7 16 false 5), .tmr,
      .input (fragment 7 0 true 8)] init = some s ∧
    ∃ r s', s.ipReass (fragment 7 8 true 8) = some (some r, s') ∧
      s.Sound (fragment 7 8 true 8) r := by
  refine exists_run_of_observe
    (fun s ↦ (decide (s.WellPlaced (fragment 7 8 true 8)),
      (s.ipReass (fragment 7 8 true 8)).map fun o ↦ o.1.isSome)) (true, some true)
    (by decide) fun s hs hobs ↦ ?_
  obtain ⟨hwp, hret⟩ := Prod.mk.inj hobs
  obtain ⟨⟨o, s'⟩, hret, ho⟩ := Option.map_eq_some_iff.1 hret
  obtain ⟨r, rfl⟩ := Option.isSome_iff_exists.1 ho
  exact ⟨r, s', hret, reass_sound hs (by decide) (of_decide_eq_true hwp) hret⟩

/-- The fragments are as long as what they cover. -/
theorem length_of_covers {a n : ℕ} {fs : List IpPacket} (h : Covers a n fs) :
    a + (fs.map fun f ↦ f.payload.length).sum = n := by
  induction fs generalizing a with
  | nil => exact h
  | cons f fs ih =>
    have := ih h.2
    rw [List.map_cons, List.sum_cons]
    omega

/-- **A hole is returned**: with the first and the last fragment of a datagram in the queue, a fragment
that meets the last one but not the first completes the datagram. -/
theorem hole_returned : ¬ ∀ (es : List Event) (s s' : Reass) (p r : IpPacket),
    runLabels step es init = some s → Received p → s.ipReass p = some (some r, s') →
      s.Sound p r := by
  intro hall
  have hrun : ∃ s, runLabels step [.input (fragment 7 0 true 8), .input (fragment 7 24 false 8)]
      init = some s ∧
      ((s.queueOf (fragment 7 16 true 8)).map fun q ↦ q.frag.payload.length) = [8, 8] ∧
      ∃ r s', s.ipReass (fragment 7 16 true 8) = some (some r, s') ∧ r.hdr.len = 52 := by
    refine exists_run_of_observe
      (fun s ↦ ((s.queueOf (fragment 7 16 true 8)).map fun q ↦ q.frag.payload.length,
        (s.ipReass (fragment 7 16 true 8)).map fun o ↦ o.1.map fun r ↦ r.hdr.len))
      ([8, 8], some (some 52)) (by decide) fun s _ hobs ↦ ?_
    obtain ⟨hqueue, hret⟩ := Prod.mk.inj hobs
    obtain ⟨⟨o, s'⟩, hret, ho⟩ := Option.map_eq_some_iff.1 hret
    obtain ⟨r, rfl, hlen⟩ := Option.map_eq_some_iff.1 ho
    exact ⟨hqueue, r, s', hret, hlen⟩
  obtain ⟨s, hs, hqueue, r, s', hret, hlen⟩ := hrun
  obtain ⟨fs, n, hperm, hcov, -, -, -, hn⟩ := hall _ s s' _ r hs (by decide) hret
  have hsum := length_of_covers hcov
  have hpay : (fs.map fun f ↦ f.payload.length).sum = 24 := by
    rw [(hperm.map _).sum_nat, List.map_cons, List.map_map, List.sum_cons]
    show (fragment 7 16 true 8).payload.length +
      ((s.queueOf (fragment 7 16 true 8)).map fun q ↦ q.frag.payload.length).sum = 24
    rw [hqueue]
    rfl
  have hhlen : ipHlen = 20 := rfl
  omega

end Reass

end Lwip.Ipv4
