import LwipPoc.Ipv4.InputOwnership
import LwipPoc.Ipv4.ReassIsolation

/-!
# What `ip_input` lets through

Whoever gets a packet from `ip_input` reads its header without further checks, and subtracts the length
of the header from the other lengths. So a packet that is passed on should be `WellFormed`. Of a packet
as it arrives, the code compares the header length and the total length with the pbufs, but **neither
with the size of a header nor with each other**: a packet is well formed where it is passed on if and
only if these two comparisons come out right (`wellFormed_trimmed_iff`).

Reassembled packets are well formed as long as the fragments are; their length is right as long as the
fragments are well placed, as in the soundness of reassembly.
-/

namespace Lwip.Ipv4

open Lwip.Core

variable {ι : Type*} {cfg : IpConfig} {env : IpEnv ι} {inp : IpNetif} {s s' : ReassLedger ι}
  {p : List (ι × Pbuf)} {q r : IpPacket} {ids : List ι} {res : IpResult ι} {dest : Arp.IpAddr}
  {first : Pbuf} {rest ps : List Pbuf}

/-- **A packet that can be passed on.** -/
structure IpPacket.WellFormed (q : IpPacket) : Prop where
  version : q.hdr.version = 4
  le_hlen : 20 ≤ q.hdr.hl * 4
  hlen_le : q.hdr.hl * 4 ≤ 60
  /-- The header lies in the first pbuf. -/
  inside : ∃ b ∈ q.pbufs.head?, q.hdr.hl * 4 ≤ b.len
  hlen_le_len : q.hdr.hl * 4 ≤ q.hdr.len
  totLen : pbufTotLen q.pbufs = q.hdr.len

/-- **What a driver hands over**: a chain of pbufs with its totals, which fit into a `u16_t`. -/
def IsPacket (p : List (ι × Pbuf)) : Prop :=
  p ≠ [] ∧ Totals (p.map Prod.snd) ∧ (pbufBytes (p.map Prod.snd)).length < 2 ^ 16

/-! ### The header after the chain was trimmed -/

/-- The header is twenty bytes. -/
theorem readHdr_congr {f g : ℕ → BitVec 8} (h : ∀ i < 20, f i = g i) : readHdr f = readHdr g := by
  simp only [readHdr, readU16, h 0 (by decide), h 1 (by decide), h 2 (by decide), h 3 (by decide),
    h 4 (by decide), h 5 (by decide), h 6 (by decide), h 7 (by decide), h 8 (by decide),
    h 9 (by decide), h 10 (by decide), h 11 (by decide), h 12 (by decide), h 13 (by decide),
    h 14 (by decide), h 15 (by decide), h 16 (by decide), h 17 (by decide), h 18 (by decide),
    h 19 (by decide)]

/-- Cutting the first pbuf does not change a header that it holds before and after. -/
theorem readHdr_take {bytes : List (BitVec 8)} {n : ℕ} (hlen : 20 ≤ bytes.length) (hn : 20 ≤ n)
    (f g : ℕ → BitVec 8) : readHdr (bytesAt (bytes.take n) g) = readHdr (bytesAt bytes f) := by
  refine readHdr_congr fun i hi ↦ ?_
  have hi' : i < bytes.length := hi.trans_le hlen
  rw [bytesAt, bytesAt, List.getElem?_take_of_lt (hi.trans_le hn), List.getElem?_eq_getElem hi']
  rfl

/-- The header length is counted in words, in four bits. -/
theorem IpHdr.hl_le (h : IpHdr) : h.hl * 4 ≤ 60 := by
  rw [IpHdr.hl]
  omega

/-- **The two comparisons that are missing**: behind the checks of the header, the trimmed packet is
well formed if and only if its header is not shorter than a header, and the packet not shorter than its
header. -/
theorem wellFormed_trimmed_iff (htot : Totals (first :: rest))
    (hlt : (pbufBytes (first :: rest)).length < 2 ^ 16)
    (hchecks : headerChecks (readHdr (bytesAt first.payload env.behind)) first = true)
    (hps : pbufRealloc (readHdr (bytesAt first.payload env.behind)).len (first :: rest) = some ps) :
    (trimmed env ps).WellFormed ↔ 5 ≤ (readHdr (bytesAt first.payload env.behind)).hl ∧
      (readHdr (bytesAt first.payload env.behind)).hl * 4 ≤
        (readHdr (bytesAt first.payload env.behind)).len := by
  set h := readHdr (bytesAt first.payload env.behind) with hh
  have hfirst : first.len ≤ first.totLen := by
    rw [htot.1, pbufBytes_cons, List.length_append]
    exact Nat.le_add_right _ _
  obtain ⟨b, hb, hpay⟩ := head?_realloc hps hfirst
  have hhdr : (trimmed env ps).hdr = readHdr (bytesAt (first.payload.take h.len) env.behindTrim) := by
    rw [trimmed, hb, ← hpay]
    rfl
  have hblen : b.len = min h.len first.len := by
    rw [Pbuf.len, hpay, List.length_take]
    rfl
  -- a header that is there at all is the one that was checked
  have hsame : 20 ≤ first.len → 20 ≤ h.len → (trimmed env ps).hdr = h := fun hlen hn ↦ by
    rw [hhdr]
    exact readHdr_take hlen hn env.behind env.behindTrim
  simp only [headerChecks, Bool.and_eq_true, decide_eq_true_eq] at hchecks
  obtain ⟨⟨⟨hversion, hin⟩, hlen⟩, -⟩ := hchecks
  constructor
  · intro hwf
    obtain ⟨b', hb', hinside⟩ := hwf.inside
    obtain rfl : b = b' := Option.some.inj (hb.symm.trans hb')
    have h20 := hwf.le_hlen.trans hinside
    rw [hblen] at h20
    have heq := hsame (h20.trans (min_le_right _ _)) (h20.trans (min_le_left _ _))
    have hle := hwf.le_hlen
    have hle' := hwf.hlen_le_len
    rw [heq] at hle hle'
    exact ⟨by omega, hle'⟩
  · rintro ⟨hhl, hle⟩
    have heq := hsame (by omega) (by omega)
    obtain ⟨ps', hps', htot', -, -, hbytes⟩ := htot.realloc (List.cons_ne_nil _ _) hlt h.len
    obtain rfl : ps = ps' := Option.some.inj (hps.symm.trans hps')
    refine ⟨heq ▸ hversion, ?_, IpHdr.hl_le _, ⟨b, hb, ?_⟩, heq ▸ hle, ?_⟩
    · rw [heq]
      omega
    · rw [heq, hblen]
      exact le_min hle hin
    · have hle_len : h.len ≤ (pbufBytes (first :: rest)).length := by
        rw [← htot.1]
        exact hlen
      rw [heq]
      show pbufTotLen ps = h.len
      rw [htot'.totLen_eq, hbytes, List.length_take, min_eq_left hle_len]

/-! ### What is kept of the datagrams in the queue -/

namespace Reass

variable {I : ReassData → Prop} {t t' : Reass} {d : ReassData} {i : ℕ} {o : Option IpPacket}

/-- **A property of datagrams that a fragment keeps**: whatever the code does to one datagram, it keeps
the property. -/
structure Keeps (I : ReassData → Prop) (q : IpPacket) : Prop where
  new : I ⟨[], q.hdr, 0, false, ipReassMaxage⟩
  adopt : ∀ d, I d → I (adoptHdr d q.hdr)
  note : ∀ d, I d → I (noteLast d q)
  insert : ∀ d qs, I d → qs.Perm (helper q :: d.frags) → I { noteLast d q with frags := qs }

/-- One fragment, once its datagram is known; a packet that is returned is made of such a datagram. -/
theorem Keeps.reassAt (hk : Keeps I q) (ht : ∀ x ∈ t.datagrams, I x) (hd : I d)
    (hcall : t.reassAt q i d = some (o, t')) :
    (∀ x ∈ t'.datagrams, I x) ∧ ∀ r ∈ o, ∃ x, I x ∧ assemble x x.frags = some r := by
  have hset : ∀ x, I x → t'.datagrams = t.datagrams.set i x → ∀ y ∈ t'.datagrams, I y :=
    fun x hx hds y hy ↦ by
      rw [hds] at hy
      rcases List.mem_or_eq_of_mem_set hy with hy | rfl
      · exact ht y hy
      · exact hx
  obtain ⟨ch, hplace, hcall⟩ := Option.bind_eq_some_iff.1
    (show (place (helper q) [] true (noteLast d q).frags).bind _ = _ from hcall)
  rw [noteLast_frags] at hplace
  rcases ch with - | ⟨pre, post, v⟩
  · obtain ⟨rfl, rfl⟩ := Prod.mk.inj (Option.some.inj hcall)
    exact ⟨hset _ (hk.note d hd) rfl, nofun⟩
  · obtain ⟨hsplit, -⟩ := place_kept hplace (fun _ ↦ List.isChain_nil) (by simp)
    rw [List.nil_append] at hsplit
    have hperm : (pre ++ helper q :: post).Perm (helper q :: d.frags) := by
      rw [← hsplit]
      exact List.perm_middle
    have hinsert := hk.insert d _ hd hperm
    obtain ⟨ok, -, hcall⟩ := Option.bind_eq_some_iff.1
      (show (validate (noteLast d q) (helper q) pre post v).bind _ = _ from hcall)
    rcases ok with - | -
    · obtain ⟨rfl, rfl⟩ := Prod.mk.inj (Option.some.inj hcall)
      exact ⟨hset _ hinsert rfl, nofun⟩
    · obtain ⟨r, hr, heq⟩ := Option.map_eq_some_iff.1
        (show (assemble (noteLast d q) (pre ++ helper q :: post)).map _ = _ from hcall)
      obtain ⟨rfl, rfl⟩ := Prod.mk.inj heq
      refine ⟨fun x hx ↦ ht x ((List.eraseIdx_sublist _ _).subset hx), fun x hx ↦ ?_⟩
      obtain rfl := Option.some.inj hx
      exact ⟨_, hinsert, hr⟩

/-- **The rule for a fragment.** -/
theorem Keeps.ipReass (hk : Keeps I q) (ht : ∀ x ∈ t.datagrams, I x)
    (hcall : t.ipReass q = some (o, t')) :
    (∀ x ∈ t'.datagrams, I x) ∧ ∀ r ∈ o, ∃ x, I x ∧ assemble x x.frags = some r := by
  rw [Reass.ipReass] at hcall
  split_ifs at hcall
  · obtain ⟨rfl, rfl⟩ := Prod.mk.inj (Option.some.inj hcall)
    exact ⟨ht, by simp⟩
  obtain ⟨⟨b, t₁⟩, hroom, hcall⟩ := Option.bind_eq_some_iff.1 hcall
  have ht₁ : ∀ x ∈ t₁.datagrams, I x := fun x hx ↦ ht x ((makeRoom_spec hroom).1.subset hx)
  rcases b with - | -
  · obtain ⟨rfl, rfl⟩ := Prod.mk.inj (Option.some.inj hcall)
    exact ⟨ht₁, by simp⟩
  simp only at hcall
  split at hcall
  · obtain ⟨d, hd, hcall⟩ := Option.bind_eq_some_iff.1 hcall
    exact hk.reassAt ht₁ (hk.adopt d (ht₁ d (List.mem_of_getElem? hd))) hcall
  · obtain ⟨⟨b, t₂⟩, henq, hcall⟩ := Option.bind_eq_some_iff.1 hcall
    rcases b with - | -
    · obtain ⟨rfl, rfl⟩ := Prod.mk.inj (Option.some.inj hcall)
      exact ⟨fun x hx ↦ ht₁ x ((enqueueNewDatagram_false henq).subset hx), by simp⟩
    · obtain ⟨ds, hds, hsub⟩ := enqueueNewDatagram_spec henq
      have ht₂ : ∀ x ∈ t₂.datagrams, I x := fun x hx ↦ by
        rw [hds] at hx
        rcases List.mem_cons.1 hx with rfl | hx
        · exact hk.new
        · exact ht₁ x (hsub.subset hx)
      obtain ⟨d, hd, hcall⟩ := Option.bind_eq_some_iff.1 hcall
      exact hk.reassAt ht₂ (ht₂ d (List.mem_of_getElem? hd)) hcall

/-- **The rule for a tick**: the timers do not matter. -/
theorem tmrLoop_keeps (htimer : ∀ d n, I d → I { d with timer := n }) {done todo : List ReassData}
    {count : ℕ} (hdone : ∀ d ∈ done, I d) (htodo : ∀ d ∈ todo, I d)
    (hcall : tmrLoop done todo count = some t') : ∀ x ∈ t'.datagrams, I x := by
  induction todo generalizing done count with
  | nil =>
    obtain rfl := Option.some.inj hcall
    exact hdone
  | cons d todo ih =>
    have htodo' : ∀ x ∈ todo, I x := fun x hx ↦ htodo x (List.mem_cons_of_mem d hx)
    rw [tmrLoop] at hcall
    split_ifs at hcall
    · refine ih (fun x hx ↦ ?_) htodo' hcall
      rcases List.mem_append.1 hx with hx | hx
      · exact hdone x hx
      · rw [List.mem_singleton.1 hx]
        exact htimer d _ (htodo d List.mem_cons_self)
    all_goals
      obtain ⟨res, -, hcall⟩ := Option.bind_eq_some_iff.1 hcall
      exact ih hdone htodo' hcall

/-- **The headers of a datagram**: the one that is kept is one of twenty bytes, of version 4, and the
first pbuf of every fragment has room for it. -/
structure HeadOk (d : ReassData) : Prop where
  version : d.iphdr.version = 4
  hl : d.iphdr.hl * 4 = ipHlen
  frags : ∀ x ∈ d.frags, ∃ b ∈ x.frag.pbufs.head?, ipHlen ≤ b.len

/-- A well-formed fragment without options keeps them. -/
theorem keeps_headOk (hq : q.WellFormed) (hl : q.hdr.hl * 4 = ipHlen) : Keeps HeadOk q := by
  obtain ⟨b, hb, hlen⟩ := hq.inside
  rw [hl] at hlen
  refine ⟨⟨hq.version, hl, nofun⟩, fun d hd ↦ ?_, fun d hd ↦ ?_, fun d qs hd hperm ↦ ?_⟩
  · rw [adoptHdr]
    split_ifs
    · exact ⟨hq.version, hl, hd.frags⟩
    · exact hd
  · refine ⟨?_, ?_, ?_⟩
    · rw [noteLast_iphdr]
      exact hd.version
    · rw [noteLast_iphdr]
      exact hd.hl
    · rw [noteLast_frags]
      exact hd.frags
  · refine ⟨?_, ?_, fun x hx ↦ ?_⟩
    · show (noteLast d q).iphdr.version = 4
      rw [noteLast_iphdr]
      exact hd.version
    · show (noteLast d q).iphdr.hl * 4 = ipHlen
      rw [noteLast_iphdr]
      exact hd.hl
    · rcases List.mem_cons.1 (hperm.mem_iff.1 hx) with rfl | hx
      · exact ⟨b, hb, hlen⟩
      · exact hd.frags x hx

/-- The first pbuf of a reassembled packet is that of its first fragment. -/
theorem head?_chainPbufs {qs : List ReassHelper} {c : List Pbuf} {b : Pbuf} (hb : ps.head? = some b)
    (h : chainPbufs ps qs = some c) : ∃ b', c.head? = some b' ∧ b'.payload = b.payload := by
  induction qs generalizing ps b with
  | nil =>
    obtain rfl := Option.some.inj h
    exact ⟨b, hb, rfl⟩
  | cons x qs ih =>
    rw [chainPbufs] at h
    obtain ⟨t, -, h⟩ := Option.bind_eq_some_iff.1 h
    obtain ⟨c', hcat, hchain⟩ := Option.bind_eq_some_iff.1 h
    obtain ⟨bs, rfl⟩ := List.head?_eq_some_iff.1 hb
    obtain ⟨b₁, hb₁, hpay⟩ := head?_cat hcat
    obtain ⟨b₂, hb₂, hpay'⟩ := ih hb₁ hchain
    exact ⟨b₂, hb₂, hpay'.trans hpay⟩

/-- **A reassembled packet is well formed**, if it is sound and its fragments have their headers. -/
theorem HeadOk.wellFormed (hd : HeadOk d) (hr : assemble d d.frags = some r) (hsound : t.Sound q r) :
    r.WellFormed := by
  obtain ⟨fs, n, -, -, -, -, htot, hlen⟩ := hsound
  cases hfrags : d.frags with
  | nil =>
    rw [hfrags] at hr
    cases hr
  | cons x xs =>
    rw [hfrags] at hr
    obtain ⟨c, hc, rfl⟩ := Option.map_eq_some_iff.1 hr
    have hx : x ∈ d.frags := by
      rw [hfrags]
      exact List.mem_cons_self
    obtain ⟨b, hb, hblen⟩ := hd.frags x hx
    obtain ⟨b', hb', hpay⟩ := head?_chainPbufs hb hc
    have hl : d.iphdr.hl * 4 = ipHlen := hd.hl
    refine ⟨hd.version, hl.ge, IpHdr.hl_le _, ⟨b', hb', ?_⟩, ?_, htot.trans hlen.symm⟩
    · show d.iphdr.hl * 4 ≤ b'.len
      rw [hl, Pbuf.len, hpay]
      exact hblen
    · show d.iphdr.hl * 4 ≤ _
      rw [hl, hlen]
      exact Nat.le_add_right _ _

end Reass

/-! ### What is passed on -/

/-- The packet gets past the choice of an interface: it is for this host, or it is forwarded. -/
def PassedOn (cfg : IpConfig) (inp : IpNetif) (q : IpPacket) : Prop :=
  (Arp.ipAddrIsBroadcast q.hdr.srcAddr inp.toNetif || Arp.ipAddrIsMulticast q.hdr.srcAddr) = false ∧
    ((matchNetif cfg inp q.hdr.destAddr).isSome = true ∨
      (cfg.ipForward && !Arp.ipAddrIsBroadcast q.hdr.destAddr inp.toNetif) = true)

/-- The packet is a fragment for this host. -/
def Reassembles (cfg : IpConfig) (inp : IpNetif) (q : IpPacket) : Prop :=
  routed cfg inp q = some q ∧ q.hdr.offset % 2 ^ 14 ≠ 0

/-- **What a call passes on**: the packet itself, and perhaps the datagram that it completes. -/
structure Passes (cfg : IpConfig) (inp : IpNetif) (s : Reass) (q : IpPacket) (res : IpResult ι) :
    Prop where
  self : ∃ x ∈ res.passed, x.2 = q
  rest : ∀ x ∈ res.passed, x.2 = q ∨
    Reassembles cfg inp q ∧ ∃ t, s.ipReass q = some (some x.2, t)
  state : res.state.reass = s ∨
    Reassembles cfg inp q ∧ ∃ o, s.ipReass q = some (o, res.state.reass)

theorem upperInput_passed (hcall : upperInput cfg env inp s dest q ids = some res) :
    res.state = s ∧ (∃ x ∈ res.passed, x.2 = q) ∧ ∀ x ∈ res.passed, x.2 = q := by
  rw [upperInput] at hcall
  split_ifs at hcall
  all_goals first
    | obtain rfl := Option.some.inj hcall
      simp
    | obtain ⟨r, -, rfl⟩ := Option.map_eq_some_iff.1 hcall
      simp

/-- A datagram for this host. -/
theorem deliver_passes (hrouted : routed cfg inp q = some q)
    (hcall : deliver cfg env inp s q ids = some res) : Passes cfg inp s.reass q res := by
  rw [deliver] at hcall
  split_ifs at hcall with hfrag
  · obtain ⟨⟨o, t, freed⟩, hreass, hcall⟩ := Option.bind_eq_some_iff.1 hcall
    have herase := s.ipReass_erase q ids
    rw [hreass, Option.map_some] at herase
    rcases o with - | ⟨r, back⟩
    · obtain rfl := Option.some.inj hcall
      exact ⟨⟨_, List.mem_singleton_self _, rfl⟩, fun x hx ↦ Or.inl (by simp_all),
        Or.inr ⟨⟨hrouted, hfrag⟩, _, herase.symm⟩⟩
    · obtain ⟨res', hupper, rfl⟩ := Option.map_eq_some_iff.1 hcall
      obtain ⟨hstate, -, hall⟩ := upperInput_passed hupper
      refine ⟨⟨_, List.mem_cons_self, rfl⟩, fun x hx ↦ ?_,
        Or.inr ⟨⟨hrouted, hfrag⟩, some r, ?_⟩⟩
      · rcases List.mem_cons.1 hx with rfl | hx
        · exact Or.inl rfl
        · refine Or.inr ⟨⟨hrouted, hfrag⟩, t.reass, ?_⟩
          rw [hall x hx]
          exact herase.symm
      · show _ = some (some r, res'.state.reass)
        rw [hstate]
        exact herase.symm
  · obtain ⟨hstate, hself, hall⟩ := upperInput_passed hcall
    exact ⟨hself, fun x hx ↦ Or.inl (hall x hx), Or.inl (by rw [hstate])⟩

/-- A packet behind the checks of its header. -/
theorem route_passes (hcall : route cfg env inp s q ids = some res) :
    (PassedOn cfg inp q → Passes cfg inp s.reass q res) ∧
      (¬ PassedOn cfg inp q → res.passed = [] ∧ res.state = s) := by
  rw [route] at hcall
  rw [PassedOn]
  by_cases hsrc : (Arp.ipAddrIsBroadcast q.hdr.srcAddr inp.toNetif ||
      Arp.ipAddrIsMulticast q.hdr.srcAddr) = true
  · rw [if_pos hsrc] at hcall
    obtain rfl := Option.some.inj hcall
    simp [hsrc]
  rw [if_neg hsrc] at hcall
  rw [Bool.not_eq_true] at hsrc
  cases hmatch : matchNetif cfg inp q.hdr.destAddr with
  | none =>
    simp only [hmatch] at hcall
    split_ifs at hcall with hfwd
    · obtain rfl := Option.some.inj hcall
      refine ⟨fun _ ↦ ?_, fun hnot ↦ absurd ⟨hsrc, Or.inr hfwd⟩ hnot⟩
      exact ⟨⟨_, List.mem_singleton_self _, rfl⟩, fun x hx ↦ Or.inl (by simp_all), Or.inl rfl⟩
    · obtain rfl := Option.some.inj hcall
      simp [hfwd]
  | some netif =>
    simp only [hmatch] at hcall
    have hrouted : routed cfg inp q = some q := by
      rw [routed, if_neg (by simp [hsrc]), hmatch]
      rfl
    exact ⟨fun _ ↦ deliver_passes hrouted hcall, fun hnot ↦ absurd ⟨hsrc, Or.inl rfl⟩ hnot⟩

/-- **A call**: it passes on what is behind the checks of the header, or nothing at all. -/
theorem ipInput_passes (hcall : ipInput cfg env inp s p = some res) :
    (∃ q ∈ checked env p, PassedOn cfg inp q ∧ Passes cfg inp s.reass q res) ∨
      (¬ ∃ q ∈ checked env p, PassedOn cfg inp q) ∧ res.passed = [] ∧ res.state = s := by
  rcases p with - | ⟨⟨i, first⟩, rest⟩
  · cases hcall
  rw [ipInput] at hcall
  rw [checked]
  simp only at hcall ⊢
  by_cases hchecks : headerChecks (readHdr (bytesAt first.payload env.behind)) first = true
  · rw [if_pos hchecks] at hcall ⊢
    obtain ⟨ps, hps, hcall⟩ := Option.bind_eq_some_iff.1 hcall
    obtain ⟨res', hroute, rfl⟩ := Option.map_eq_some_iff.1 hcall
    obtain ⟨hpass, hstop⟩ := route_passes hroute
    rw [hps, Option.map_some]
    by_cases hon : PassedOn cfg inp (trimmed env ps)
    · obtain ⟨hself, hrest, hstate⟩ := hpass hon
      exact Or.inl ⟨_, rfl, hon, hself, hrest, hstate⟩
    · refine Or.inr ⟨?_, hstop hon⟩
      rintro ⟨q, hq, hq'⟩
      obtain rfl := Option.some.inj hq
      exact hon hq'
  · rw [if_neg hchecks] at hcall ⊢
    obtain rfl := Option.some.inj hcall
    exact Or.inr ⟨by simp, rfl, rfl⟩

/-! ### Every run -/

/-- **The condition on the header** of a packet, if it gets as far as being passed on. -/
def HeaderOk (cfg : IpConfig) (env : IpEnv ι) (inp : IpNetif) (p : List (ι × Pbuf)) : Prop :=
  (∃ q ∈ checked env p, PassedOn cfg inp q) → ∀ x ∈ p.head?,
    5 ≤ (readHdr (bytesAt x.2.payload env.behind)).hl ∧
      (readHdr (bytesAt x.2.payload env.behind)).hl * 4 ≤
        (readHdr (bytesAt x.2.payload env.behind)).len

/-- The condition on a fragment: that of the reassembly, which does not take any with options. -/
def FragmentOk (cfg : IpConfig) (env : IpEnv ι) (inp : IpNetif) (s : Reass) (p : List (ι × Pbuf)) :
    Prop :=
  ∀ q ∈ forUs cfg env inp p, q.hdr.offset % 2 ^ 14 ≠ 0 → q.hdr.hl * 4 = ipHlen → s.WellPlaced q

/-- The condition on an event. -/
def InputOk (forward : Bool) (upper : UpperLayers) : IpEvent ι → ReassLedger ι → Prop
  | .input netifs env inp p, s => IsPacket p ∧ HeaderOk ⟨forward, netifs, upper⟩ env inp p ∧
    FragmentOk ⟨forward, netifs, upper⟩ env inp s.reass p
  | .tmr, _ => True

instance (p : List (ι × Pbuf)) : Decidable (IsPacket p) :=
  haveI : Decidable (p ≠ []) := decidable_of_iff (p.isEmpty = false) (by simp)
  inferInstanceAs (Decidable (_ ∧ _))

instance (cfg : IpConfig) (inp : IpNetif) (q : IpPacket) : Decidable (PassedOn cfg inp q) :=
  inferInstanceAs (Decidable (_ ∧ _))

instance (cfg : IpConfig) (env : IpEnv ι) (inp : IpNetif) (p : List (ι × Pbuf)) :
    Decidable (HeaderOk cfg env inp p) := inferInstanceAs (Decidable (_ → _))

instance (cfg : IpConfig) (env : IpEnv ι) (inp : IpNetif) (s : Reass) (p : List (ι × Pbuf)) :
    Decidable (FragmentOk cfg env inp s p) :=
  inferInstanceAs (Decidable (∀ q ∈ forUs cfg env inp p, _ → _ → _))

instance (forward : Bool) (upper : UpperLayers) :
    (e : IpEvent ι) → (s : ReassLedger ι) → Decidable (InputOk forward upper e s)
  | .input _ _ _ _, _ => inferInstanceAs (Decidable (_ ∧ _))
  | .tmr, _ => inferInstanceAs (Decidable True)

/-- **The invariant** of the queue. -/
structure QueueOk (t : Reass) : Prop where
  ok : t.Ok
  heads : ∀ d ∈ t.datagrams, Reass.HeadOk d

/-- A packet of a driver, behind the checks of its header. -/
theorem wellFormed_checked_iff (hp : IsPacket p) (hq : q ∈ checked env p) :
    q.WellFormed ↔ ∀ x ∈ p.head?, 5 ≤ (readHdr (bytesAt x.2.payload env.behind)).hl ∧
      (readHdr (bytesAt x.2.payload env.behind)).hl * 4 ≤
        (readHdr (bytesAt x.2.payload env.behind)).len := by
  rcases p with - | ⟨⟨i, first⟩, rest⟩
  · cases hq
  rw [checked] at hq
  simp only [Option.mem_def] at hq
  split_ifs at hq with hchecks
  obtain ⟨ps, hps, rfl⟩ := Option.map_eq_some_iff.1 hq
  rw [wellFormed_trimmed_iff hp.2.1 hp.2.2 hchecks hps]
  simp

/-- If it is well formed, it is what the reassembly takes. -/
theorem received_of_checked (hp : IsPacket p) (hq : q ∈ checked env p) (hwf : q.WellFormed)
    (hfrag : q.hdr.offset % 2 ^ 14 ≠ 0) : Received q := by
  rcases p with - | ⟨⟨i, first⟩, rest⟩
  · cases hq
  rw [checked] at hq
  simp only [Option.mem_def] at hq
  split_ifs at hq with hchecks
  obtain ⟨ps, hps, rfl⟩ := Option.map_eq_some_iff.1 hq
  obtain ⟨ps', hps', htot, hne, -, hbytes⟩ := hp.2.1.realloc (List.cons_ne_nil _ _) hp.2.2
    (readHdr (bytesAt first.payload env.behind)).len
  obtain rfl : ps = ps' := Option.some.inj (hps.symm.trans hps')
  have hlen : (pbufBytes ps).length = (trimmed env ps).hdr.len := by
    rw [← hwf.totLen, ← htot.totLen_eq]
    rfl
  have hlt : (pbufBytes ps).length < 2 ^ 16 := by
    rw [hbytes, List.length_take]
    exact (min_le_right _ _).trans_lt hp.2.2
  obtain ⟨b, hb, hinside⟩ := hwf.inside
  refine ⟨hne, htot, hlen, hlen ▸ hlt, fun b' hb' ↦ ?_, hfrag⟩
  obtain rfl : b = b' := Option.some.inj (hb.symm.trans hb')
  exact (min_le_left _ _).trans hinside

/-- **One fragment** keeps the invariant, and the datagram it completes is well formed. -/
theorem QueueOk.ipReass {t t' : Reass} {o : Option IpPacket} (ht : QueueOk t) (hwf : q.WellFormed)
    (hrec : Received q) (hplaced : q.hdr.hl * 4 = ipHlen → t.WellPlaced q)
    (hcall : t.ipReass q = some (o, t')) : QueueOk t' ∧ ∀ r ∈ o, r.WellFormed := by
  by_cases hl : q.hdr.hl * 4 = ipHlen
  · obtain ⟨hok, hsound⟩ := ht.ok.ipReass hrec (hplaced hl) hcall
    obtain ⟨hheads, hmade⟩ := (Reass.keeps_headOk hwf hl).ipReass ht.heads hcall
    refine ⟨⟨hok, hheads⟩, fun r hr ↦ ?_⟩
    obtain ⟨d, hd, hassemble⟩ := hmade r hr
    exact hd.wellFormed hassemble (hsound r hr)
  · rw [Reass.ipReass, if_pos hl] at hcall
    obtain ⟨rfl, rfl⟩ := Prod.mk.inj (Option.some.inj hcall)
    exact ⟨ht, by simp⟩

/-- **A call** keeps the invariant, and what it passes on is well formed, if the packet itself is. -/
theorem QueueOk.ipInput (hs : QueueOk s.reass) (hp : IsPacket p)
    (hfrag : FragmentOk cfg env inp s.reass p) (hcall : ipInput cfg env inp s p = some res) :
    (HeaderOk cfg env inp p → QueueOk res.state.reass) ∧
      ((∀ x ∈ res.passed, x.2.WellFormed) ↔ HeaderOk cfg env inp p) := by
  rcases ipInput_passes hcall with ⟨q, hq, hon, hself, hrest, hstate⟩ | ⟨hoff, hnone, hstate⟩
  · have hiff := wellFormed_checked_iff hp hq
    -- whatever the reassembly does, it does with this packet
    have hreass : ∀ {o t}, q.WellFormed → Reassembles cfg inp q → s.reass.ipReass q = some (o, t) →
        QueueOk t ∧ ∀ r ∈ o, r.WellFormed := by
      intro o t hwf hre hcall'
      have hus : q ∈ forUs cfg env inp p := Option.bind_eq_some_iff.2 ⟨q, hq, hre.1⟩
      exact hs.ipReass hwf (received_of_checked hp hq hwf hre.2) (hfrag q hus hre.2) hcall'
    have hgood : HeaderOk cfg env inp p ↔ q.WellFormed :=
      ⟨fun h ↦ hiff.2 (h ⟨q, hq, hon⟩), fun h _ ↦ hiff.1 h⟩
    rw [hgood]
    refine ⟨fun hwf ↦ ?_, fun hall ↦ ?_, fun hwf x hx ↦ ?_⟩
    · rcases hstate with hstate | ⟨hre, o, hcall'⟩
      · rwa [hstate]
      · exact (hreass hwf hre hcall').1
    · obtain ⟨x, hx, rfl⟩ := hself
      exact hall x hx
    · rcases hrest x hx with rfl | ⟨hre, t, hcall'⟩
      · exact hwf
      · exact (hreass hwf hre hcall').2 _ rfl
  · rw [hnone, hstate]
    exact ⟨fun _ ↦ hs, iff_of_true (by simp) fun h ↦ absurd h hoff⟩

/-- **The invariant holds** in every run whose events meet the condition. -/
theorem run_queueOk {forward : Bool} {upper : UpperLayers} {es : List (IpEvent ι)}
    (hrun : runLabels (guardStep (InputOk forward upper) (ipStep forward upper)) es
      ReassLedger.init = some s) : QueueOk s.reass := by
  have hinit : QueueOk (ReassLedger.init : ReassLedger ι).reass := ⟨nofun, nofun⟩
  refine runLabels_invariant (I := fun s ↦ QueueOk s.reass) hinit (fun e t t' ht hstep ↦ ?_) hrun
  obtain ⟨hev, hstep⟩ := guardStep_eq_some.1 hstep
  rcases e with ⟨netifs, env, inp, p⟩ | -
  · obtain ⟨res, hcall, rfl⟩ := Option.map_eq_some_iff.1 hstep
    exact (ht.ipInput hev.1 hev.2.2 hcall).1 hev.2.1
  · obtain ⟨⟨t'', freed⟩, htmr, rfl⟩ := Option.map_eq_some_iff.1 hstep
    have herase := t.ipReassTmr_erase
    rw [htmr, Option.map_some] at herase
    have htmr' := herase.symm
    refine ⟨Reass.tmrLoop_ok (by simp) ht.ok htmr', ?_⟩
    exact Reass.tmrLoop_keeps (fun d n hd ↦ ⟨hd.version, hd.hl, hd.frags⟩) (by simp) ht.heads htmr'

/-- **What `ip_input` passes on is well formed** in every run whose packets have a header length of at
least twenty bytes that is not above their total length, and whose fragments are well placed; and of one
more packet, whose fragment part is so, this is the condition on its header. -/
theorem ipInput_passes_wellFormed_iff {forward : Bool} {upper : UpperLayers} {netifs : List IpNetif}
    {es : List (IpEvent ι)}
    (hrun : runLabels (guardStep (InputOk forward upper) (ipStep forward upper)) es
      ReassLedger.init = some s) (hp : IsPacket p)
    (hfrag : FragmentOk ⟨forward, netifs, upper⟩ env inp s.reass p)
    (hcall : ipInput ⟨forward, netifs, upper⟩ env inp s p = some res) :
    (∀ x ∈ res.passed, x.2.WellFormed) ↔ HeaderOk ⟨forward, netifs, upper⟩ env inp p :=
  ((run_queueOk hrun).ipInput hp hfrag hcall).2

/-- A datagram in two fragments: the second one is passed on three times. -/
theorem ipInput_passes_fragments : ∃ s,
    runLabels (guardStep (InputOk false lwipStubs) (ipStep false lwipStubs))
      [.input [hostNetif] plainEnv hostNetif (hostPbuf 0 (hostPacket 0x45 28 0x2000 1 20 28)), .tmr]
      ReassLedger.init = some s ∧
    ∃ res, ipInput hostConfig plainEnv hostNetif s lastFragment = some res ∧
      res.passed.map Prod.fst = [.reass, .raw, .icmp] ∧ ∀ x ∈ res.passed, x.2.WellFormed := by
  refine exists_run_of_observe
    (fun s ↦ (decide (FragmentOk hostConfig plainEnv hostNetif s.reass lastFragment),
      (ipInput hostConfig plainEnv hostNetif s lastFragment).map fun res ↦ res.passed.map Prod.fst))
    (true, some [.reass, .raw, .icmp]) (by decide) fun s hs hobs ↦ ?_
  obtain ⟨hfrag, hcall⟩ := Prod.mk.inj hobs
  obtain ⟨res, hcall, hpassed⟩ := Option.map_eq_some_iff.1 hcall
  have hp : IsPacket lastFragment := by decide
  have hhdr : HeaderOk hostConfig plainEnv hostNetif lastFragment := by decide
  exact ⟨res, hcall, hpassed,
    (ipInput_passes_wellFormed_iff hs hp (of_decide_eq_true hfrag) hcall).2 hhdr⟩

/-- **A header of twelve bytes is passed on** to the input function of UDP. -/
theorem short_header_passed : ∃ res,
    ipInput hostConfig plainEnv hostNetif ReassLedger.init
      (hostPbuf 0 (hostPacket 0x43 28 0 17 12 28)) = some res ∧
    ∃ x ∈ res.passed, x.1 = .udp ∧ x.2.hdr.hl * 4 = 12 ∧ ¬ x.2.WellFormed := by
  have hcall : (ipInput hostConfig plainEnv hostNetif ReassLedger.init
      (hostPbuf 0 (hostPacket 0x43 28 0 17 12 28))).map (fun res ↦
        res.passed.map fun x ↦ (x.1, x.2.hdr.hl)) = some [(.raw, 3), (.udp, 3)] := by
    decide
  obtain ⟨res, hcall, hpassed⟩ := Option.map_eq_some_iff.1 hcall
  have hmem : (Receiver.udp, 3) ∈ res.passed.map fun x ↦ (x.1, x.2.hdr.hl) := by
    rw [hpassed]
    decide
  obtain ⟨x, hx, heq⟩ := List.mem_map.1 hmem
  obtain ⟨hudp, hhl⟩ := Prod.mk.inj heq
  refine ⟨res, hcall, x, hx, hudp, by rw [hhl], fun hwf ↦ ?_⟩
  have hle := hwf.le_hlen
  rw [hhl] at hle
  exact absurd hle (by decide)

end Lwip.Ipv4
