import LwipPoc.Ipv4.InputChecks
import LwipPoc.Tcp.Pcb

/-!
# The header checks of `tcp_input`

`core/tcp_in.c`, from the packet of `ip_input` to the segment whose header has been taken off. The header is
read through a pointer that was set before the payload was moved, so it may lie in the memory behind the first
pbuf; `pbuf_header` looks at the length of the first pbuf only, and the comparison with the size of a header at
the length of the chain only.

What is not compared is the **data offset with the size of a header**. A segment is handed on with the right
data, and all others are dropped, under the condition `HeaderFits` (`tcpInputHeader_iff`). In the repository's
configuration the other branch of `pbuf_header`, in which the header is longer than the first pbuf, does not
return, since `LWIP_ERROR` ends in `LWIP_PLATFORM_ASSERT`, which aborts.
-/

namespace Lwip.Tcp

open Core Ipv4

/-- What the checks depend on besides the packet. -/
structure HeaderEnv where
  /-- `LWIP_PLATFORM_ASSERT` does not return, as in `arch/cc.h`. -/
  fatal : Bool
  /-- `CHECKSUM_CHECK_TCP`. -/
  checksumCheck : Bool
  alg : ChksumAlgorithm
  inp : IpNetif
  /-- `current_iphdr_src` and `current_iphdr_dest`. -/
  src : Arp.IpAddr
  dest : Arp.IpAddr
  /-- The memory behind the bytes of the first pbuf, by the distance from `payload`. -/
  behind : ℕ → BitVec 8

/-- The segment without its header: `tcphdr` in host order, `tcplen`, and the data. -/
structure TakenOff where
  srcPort : ℕ
  destPort : ℕ
  seqno : ℕ
  ackno : ℕ
  /-- `TCPH_HDRLEN`. -/
  hdrlen : ℕ
  /-- `TCPH_FLAGS`. -/
  flags : ℕ
  wnd : ℕ
  tcplen : ℕ
  p : List Pbuf
  deriving DecidableEq, Repr

/-- How the checks end. -/
inductive HeaderResult
  /-- A failed assertion. -/
  | stopped
  | dropped
  | passed (g : TakenOff)
  deriving DecidableEq, Repr

/-- `pbuf_header` with a negative increment, and what is done if it fails. -/
def takeOff (env : HeaderEnv) (n : ℕ) (p : List Pbuf) (next : List Pbuf → HeaderResult) : HeaderResult :=
  if n = 0 then next p
  else
    match pbufHide n p with
    | some p => next p
    | none => if env.fatal = true then .stopped else .dropped

/-- `ntohl` of a field. -/
def readU32 (f : ℕ → BitVec 8) (i : ℕ) : ℕ := readU16 f i * 2 ^ 16 + readU16 f (i + 2)

/-- `tcphdr`, through the pointer that is set before the payload is moved. -/
def tcphdrAt (env : HeaderEnv) (q : IpPacket) (i : ℕ) : BitVec 8 :=
  bytesAt ((q.pbufs.head?.map Pbuf.payload).getD []) env.behind (q.hdr.hl * 4 + i)

/-- `TCPH_HDRLEN`. -/
def tcphHdrlen (env : HeaderEnv) (q : IpPacket) : ℕ := readU16 (tcphdrAt env q) 12 / 2 ^ 12

/-- `TCPH_FLAGS`. -/
def tcphFlags (env : HeaderEnv) (q : IpPacket) : ℕ := readU16 (tcphdrAt env q) 12 % 2 ^ 6

/-- The TCP checksum is right, or is not looked at. -/
def chksumRight (env : HeaderEnv) (p : List Pbuf) : Bool :=
  !env.checksumCheck || inetChksumPseudo env.alg (p.map fun b ↦ ⟨0, b.payload⟩) env.src env.dest 6
    (BitVec.ofNat 16 (pbufTotLen p)) = 0

/-- The header in host order, and the data. -/
def takenOff (env : HeaderEnv) (q : IpPacket) (p : List Pbuf) : TakenOff where
  srcPort := readU16 (tcphdrAt env q) 0
  destPort := readU16 (tcphdrAt env q) 2
  seqno := readU32 (tcphdrAt env q) 4
  ackno := readU32 (tcphdrAt env q) 8
  hdrlen := tcphHdrlen env q
  flags := tcphFlags env q
  wnd := readU16 (tcphdrAt env q) 14
  -- TCP_FIN and TCP_SYN
  tcplen := toU16 (pbufTotLen p + if tcphFlags env q % 2 ^ 2 ≠ 0 then 1 else 0)
  p := p

/-- `tcp_input` up to the search for a PCB. -/
def tcpInputHeader (env : HeaderEnv) (q : IpPacket) : HeaderResult :=
  takeOff env (q.hdr.hl * 4) q.pbufs fun p ↦
    if pbufTotLen p < 20 then .dropped
    else if Arp.ipAddrIsBroadcast env.dest env.inp.toNetif || Arp.ipAddrIsMulticast env.dest then .dropped
    else if chksumRight env p = false then .dropped
    else takeOff env (tcphHdrlen env q * 4) p fun p ↦ .passed (takenOff env q p)

/-- **A segment is taken off rightly**: the header is a whole one in the first pbuf, and the data starts behind
it and has the length that is left. -/
structure TakenOff.Right (q : IpPacket) (g : TakenOff) : Prop where
  offset : 5 ≤ g.hdrlen
  inside : ∃ b ∈ q.pbufs.head?, q.hdr.hl * 4 + g.hdrlen * 4 ≤ b.len
  data : pbufBytes g.p = (pbufBytes q.pbufs).drop (q.hdr.hl * 4 + g.hdrlen * 4)
  len : pbufTotLen g.p + q.hdr.hl * 4 + g.hdrlen * 4 = q.hdr.len

/-- The segments that are handed on are right, and all others are dropped. -/
def HeaderResult.Right (q : IpPacket) : HeaderResult → Prop
  | .stopped => False
  | .dropped => True
  | .passed g => g.Right q

/-- The segment gets as far as its data offset: it is long enough, not for a broadcast or multicast address, and
has the right checksum. -/
def Looked (env : HeaderEnv) (p : List Pbuf) : Prop :=
  20 ≤ pbufTotLen p ∧
    (Arp.ipAddrIsBroadcast env.dest env.inp.toNetif || Arp.ipAddrIsMulticast env.dest) = false ∧
    chksumRight env p = true

/-- **The condition.** The IP header lies in the first pbuf, unless assertions return; and so does the TCP header
of a segment that is looked at. If it does, its data offset is at least that of a header without options, and
the packet has the length that its IP header says, which both headers fit into. -/
structure HeaderFits (env : HeaderEnv) (q : IpPacket) : Prop where
  iphdr : ∀ b ∈ q.pbufs.head?, b.len < q.hdr.hl * 4 → env.fatal = false
  tcphdr : ∀ b ∈ q.pbufs.head?, ∀ p ∈ pbufHide (q.hdr.hl * 4) q.pbufs, Looked env p →
    if q.hdr.hl * 4 + tcphHdrlen env q * 4 ≤ b.len then
      5 ≤ tcphHdrlen env q ∧ pbufTotLen q.pbufs = q.hdr.len ∧ q.hdr.hl * 4 + tcphHdrlen env q * 4 ≤ q.hdr.len
    else env.fatal = false

instance (env : HeaderEnv) (p : List Pbuf) : Decidable (Looked env p) := inferInstanceAs (Decidable (_ ∧ _ ∧ _))

instance (env : HeaderEnv) (q : IpPacket) : Decidable (HeaderFits env q) :=
  decidable_of_iff ((∀ b ∈ q.pbufs.head?, b.len < q.hdr.hl * 4 → env.fatal = false) ∧
    ∀ b ∈ q.pbufs.head?, ∀ p ∈ pbufHide (q.hdr.hl * 4) q.pbufs, Looked env p →
      if q.hdr.hl * 4 + tcphHdrlen env q * 4 ≤ b.len then
        5 ≤ tcphHdrlen env q ∧ pbufTotLen q.pbufs = q.hdr.len ∧ q.hdr.hl * 4 + tcphHdrlen env q * 4 ≤ q.hdr.len
      else env.fatal = false)
    ⟨fun h ↦ ⟨h.1, h.2⟩, fun h ↦ ⟨h.iphdr, h.tcphdr⟩⟩

/-! ### The checks -/

variable {env : HeaderEnv} {q : IpPacket} {p : List Pbuf} {b : Pbuf} {rest : List Pbuf} {n : ℕ}

theorem takeOff_of_le {next : List Pbuf → HeaderResult} (hn : n ≤ b.len) (htot : b.totLen < 2 ^ 16) :
    takeOff env n (b :: rest) next = next (⟨b.payload.drop n, (b.totLen + 2 ^ 16 - n) % 2 ^ 16⟩ :: rest) := by
  rw [takeOff]
  rcases Nat.eq_zero_or_pos n with rfl | hpos
  · rw [if_pos rfl, Nat.sub_zero, Nat.add_mod_right, Nat.mod_eq_of_lt htot, List.drop_zero]
  · rw [if_neg hpos.ne', pbufHide, if_pos hn]

theorem takeOff_of_lt {next : List Pbuf → HeaderResult} (hn : b.len < n) :
    takeOff env n (b :: rest) next = if env.fatal = true then .stopped else .dropped := by
  rw [takeOff, if_neg (by omega), pbufHide, if_neg (not_le.2 hn)]

theorem right_ite_fatal : (if env.fatal = true then HeaderResult.stopped else .dropped).Right q ↔ env.fatal = false := by
  split_ifs with h
  · exact iff_of_false id (by rw [h]; decide)
  · exact iff_of_true trivial (Bool.eq_false_iff.2 h)

/-- The four bits of the data offset. -/
theorem tcphHdrlen_lt (env : HeaderEnv) (q : IpPacket) : tcphHdrlen env q < 2 ^ 4 := by
  have h0 := (tcphdrAt env q 12).isLt
  have h1 := (tcphdrAt env q 13).isLt
  rw [tcphHdrlen, readU16]
  omega

/-- The total length of a chain is that of its first pbuf. -/
theorem pbufTotLen_mk (bytes : List (BitVec 8)) (totLen : ℕ) (rest : List Pbuf) :
    pbufTotLen (⟨bytes, totLen⟩ :: rest) = totLen := rfl

/-- **The second part**: a segment that is looked at. -/
theorem right_of_taken {g : TakenOff} (hq : q.pbufs = b :: rest) (htot : b.totLen < 2 ^ 16) (hlen : q.hdr.len < 2 ^ 16)
    (hle : q.hdr.hl * 4 + tcphHdrlen env q * 4 ≤ b.len) (hhdrlen : g.hdrlen = tcphHdrlen env q)
    (hp : g.p = ⟨(b.payload.drop (q.hdr.hl * 4)).drop (tcphHdrlen env q * 4),
      ((b.totLen + 2 ^ 16 - q.hdr.hl * 4) % 2 ^ 16 + 2 ^ 16 - tcphHdrlen env q * 4) % 2 ^ 16⟩ :: rest) :
    g.Right q ↔ 5 ≤ tcphHdrlen env q ∧ pbufTotLen q.pbufs = q.hdr.len ∧
      q.hdr.hl * 4 + tcphHdrlen env q * 4 ≤ q.hdr.len := by
  have hhl := q.hdr.hl_le
  have hoff := tcphHdrlen_lt env q
  have hb : pbufTotLen q.pbufs = b.totLen := by rw [hq]; rfl
  have hg : pbufTotLen g.p = ((b.totLen + 2 ^ 16 - q.hdr.hl * 4) % 2 ^ 16 + 2 ^ 16 - tcphHdrlen env q * 4) % 2 ^ 16 := by
    rw [hp]
    exact pbufTotLen_mk _ _ _
  constructor
  · intro h
    have hsum := h.len
    rw [hg, hhdrlen] at hsum
    exact ⟨hhdrlen ▸ h.offset, by omega, by omega⟩
  · rintro ⟨h5, htotal, hboth⟩
    refine ⟨hhdrlen ▸ h5, ⟨b, by rw [hq]; rfl, hhdrlen ▸ hle⟩, ?_, ?_⟩
    · rw [hp, hq, pbufBytes_cons, pbufBytes_cons, hhdrlen, List.drop_drop, List.drop_append_of_le_length hle]
    · rw [hg, hhdrlen]
      omega

/-- **The checks**, on any chain. -/
theorem tcpInputHeader_right_iff (hq : q.pbufs = b :: rest) (htot : b.totLen < 2 ^ 16) (hlen : q.hdr.len < 2 ^ 16) :
    (tcpInputHeader env q).Right q ↔ HeaderFits env q := by
  have hhead : q.pbufs.head? = some b := by rw [hq]; rfl
  have hfits : HeaderFits env q ↔ (b.len < q.hdr.hl * 4 → env.fatal = false) ∧
      ∀ p ∈ pbufHide (q.hdr.hl * 4) q.pbufs, Looked env p →
        if q.hdr.hl * 4 + tcphHdrlen env q * 4 ≤ b.len then
          5 ≤ tcphHdrlen env q ∧ pbufTotLen q.pbufs = q.hdr.len ∧
            q.hdr.hl * 4 + tcphHdrlen env q * 4 ≤ q.hdr.len
        else env.fatal = false := by
    refine ⟨fun h ↦ ⟨h.iphdr b hhead, h.tcphdr b hhead⟩, fun h ↦ ⟨fun b' hb' ↦ ?_, fun b' hb' ↦ ?_⟩⟩ <;>
      obtain rfl := Option.some.inj (hhead.symm.trans hb')
    · exact h.1
    · exact h.2
  rw [hfits, tcpInputHeader]
  rcases Nat.lt_or_ge b.len (q.hdr.hl * 4) with hlt | hle
  · have hnone : pbufHide (q.hdr.hl * 4) q.pbufs = none := by rw [hq, pbufHide, if_neg (not_le.2 hlt)]
    rw [hnone, hq, takeOff_of_lt hlt, right_ite_fatal]
    exact ⟨fun h ↦ ⟨fun _ ↦ h, fun _ hp ↦ absurd hp (Option.not_mem_none _)⟩, fun h ↦ h.1 hlt⟩
  have hsome : pbufHide (q.hdr.hl * 4) q.pbufs =
      some (⟨b.payload.drop (q.hdr.hl * 4), (b.totLen + 2 ^ 16 - q.hdr.hl * 4) % 2 ^ 16⟩ :: rest) := by
    rw [hq, pbufHide, if_pos hle]
  rw [hsome, and_iff_right (fun h ↦ absurd hle (not_le.2 h)), hq, takeOff_of_le hle htot, ← hq]
  simp only [Option.mem_some_iff, forall_eq']
  set p := (⟨b.payload.drop (q.hdr.hl * 4), (b.totLen + 2 ^ 16 - q.hdr.hl * 4) % 2 ^ 16⟩ : Pbuf) :: rest with hp
  by_cases hlooked : Looked env p
  · have hlen₁ : (b.payload.drop (q.hdr.hl * 4)).length = b.len - q.hdr.hl * 4 := List.length_drop
    rw [if_neg (not_lt.2 hlooked.1), if_neg (by rw [hlooked.2.1]; decide), if_neg (by rw [hlooked.2.2]; decide),
      forall_prop_of_true hlooked, hp]
    by_cases hin : q.hdr.hl * 4 + tcphHdrlen env q * 4 ≤ b.len
    · rw [if_pos hin, takeOff_of_le (by rw [Pbuf.len, hlen₁]; omega) (Nat.mod_lt _ (by decide))]
      exact right_of_taken hq htot hlen hin rfl rfl
    · rw [if_neg hin, takeOff_of_lt (by rw [Pbuf.len, hlen₁]; omega), right_ite_fatal]
  · refine iff_of_true ?_ fun h ↦ absurd h hlooked
    split_ifs with h20 haddr hchksum
    · trivial
    · trivial
    · trivial
    · exact absurd ⟨not_lt.1 h20, Bool.eq_false_iff.2 haddr, by simpa using hchksum⟩ hlooked

/-! ### The packets of `ip_input` -/

variable {ι : Type*} {cfg : IpConfig} {ienv : IpEnv ι} {inp : IpNetif} {s : ReassLedger ι} {res : IpResult ι}
  {ps : List (ι × Pbuf)}

/-- The chain has a first pbuf, whose `tot_len` is a `u16_t`. -/
def HasTotal (p : List Pbuf) : Prop := ∃ b rest, p = b :: rest ∧ b.totLen < 2 ^ 16

theorem HasTotal.pbufCat {t c : List Pbuf} (h : pbufCat t p = some c) : HasTotal c := by
  rcases p with - | ⟨b, - | ⟨b', rest⟩⟩
  · cases h
  · rw [Core.pbufCat] at h
    split_ifs at h
    obtain rfl := Option.some.inj h
    exact ⟨_, _, rfl, Nat.mod_lt _ (by decide)⟩
  · rw [Core.pbufCat] at h
    obtain ⟨c', -, rfl⟩ := Option.map_eq_some_iff.1 h
    exact ⟨_, _, rfl, Nat.mod_lt _ (by decide)⟩

theorem HasTotal.chainPbufs {rs : List ReassHelper} {c : List Pbuf} (hp : HasTotal p)
    (h : Reass.chainPbufs p rs = some c) : HasTotal c := by
  induction rs generalizing p with
  | nil =>
    obtain rfl := Option.some.inj h
    exact hp
  | cons r rs ih =>
    rw [Reass.chainPbufs] at h
    obtain ⟨t, -, h⟩ := Option.bind_eq_some_iff.1 h
    obtain ⟨p', hcat, h⟩ := Option.bind_eq_some_iff.1 h
    exact ih (HasTotal.pbufCat hcat) h

/-- The fragments of a datagram have their totals. -/
def FragTotals (d : ReassData) : Prop := ∀ x ∈ d.frags, HasTotal x.frag.pbufs

theorem keeps_fragTotals (hq : HasTotal q.pbufs) : Reass.Keeps FragTotals q where
  new := nofun
  adopt d hd := by
    rw [FragTotals, Reass.adoptHdr]
    split_ifs
    · exact hd
    · exact hd
  note d hd := by
    rw [FragTotals, Reass.noteLast]
    split_ifs
    · exact hd
    · exact hd
  insert d qs hd hperm x hx := by
    rcases List.mem_cons.1 (hperm.mem_iff.1 hx) with rfl | hx
    · exact hq
    · exact hd x hx

/-- The lengths of a packet are `u16_t`s. -/
structure LengthsFit (q : IpPacket) : Prop where
  total : HasTotal q.pbufs
  len : q.hdr.len < 2 ^ 16

theorem lengthsFit_of_checked (hp : IsPacket ps) (hq : q ∈ checked ienv ps) : LengthsFit q := by
  rcases ps with - | ⟨⟨i, first⟩, rest⟩
  · cases hq
  rw [checked] at hq
  simp only [Option.mem_def] at hq
  split_ifs at hq
  obtain ⟨c, hc, rfl⟩ := Option.map_eq_some_iff.1 hq
  obtain ⟨c', hc', htot, hne, -, hbytes⟩ := hp.2.1.realloc (List.cons_ne_nil _ _) hp.2.2
    (readHdr (bytesAt first.payload ienv.behind)).len
  obtain rfl := Option.some.inj (hc.symm.trans hc')
  refine ⟨?_, ?_⟩
  · obtain ⟨b, bs, rfl⟩ := List.exists_cons_of_ne_nil hne
    refine ⟨b, bs, rfl, ?_⟩
    rw [htot.1, hbytes, List.length_take]
    exact (min_le_right _ _).trans_lt hp.2.2
  · show readU16 _ 2 < 2 ^ 16
    have hbyte : ∀ x : BitVec 8, x.toNat < 2 ^ 8 := fun x ↦ x.isLt
    rw [readU16]
    have h0 := hbyte (bytesAt ((c.head?.map Pbuf.payload).getD []) ienv.behindTrim 2)
    have h1 := hbyte (bytesAt ((c.head?.map Pbuf.payload).getD []) ienv.behindTrim 3)
    omega

theorem lengthsFit_of_assemble {d : ReassData} (hd : FragTotals d) (h : Reass.assemble d d.frags = some q) :
    LengthsFit q := by
  rcases hfrags : d.frags with - | ⟨x, xs⟩
  · rw [hfrags] at h
    cases h
  · rw [hfrags] at h
    obtain ⟨c, hc, rfl⟩ := Option.map_eq_some_iff.1 h
    exact ⟨(hd x (by rw [hfrags]; exact List.mem_cons_self)).chainPbufs hc, Nat.mod_lt _ (by decide)⟩

/-- **One call** keeps the totals of the fragments, and the lengths of what it passes on are `u16_t`s. -/
theorem ipInput_lengthsFit (hs : ∀ d ∈ s.reass.datagrams, FragTotals d) (hp : IsPacket ps)
    (hcall : ipInput cfg ienv inp s ps = some res) :
    (∀ d ∈ res.state.reass.datagrams, FragTotals d) ∧ ∀ x ∈ res.passed, LengthsFit x.2 := by
  rcases ipInput_passes hcall with ⟨q, hq, -, -, hrest, hstate⟩ | ⟨-, hnone, hstate⟩
  · have hfit := lengthsFit_of_checked hp hq
    have hkeeps := keeps_fragTotals hfit.total
    refine ⟨?_, fun x hx ↦ ?_⟩
    · rcases hstate with hstate | ⟨-, o, hreass⟩
      · rwa [hstate]
      · exact (hkeeps.ipReass hs hreass).1
    · rcases hrest x hx with rfl | ⟨-, t, hreass⟩
      · exact hfit
      · obtain ⟨d, hd, hassemble⟩ := (hkeeps.ipReass hs hreass).2 _ rfl
        exact lengthsFit_of_assemble hd hassemble
  · rw [hnone, hstate]
    exact ⟨hs, nofun⟩

/-- Drivers hand over packets. -/
def Delivered : IpEvent ι → ReassLedger ι → Prop
  | .input _ _ _ p, _ => IsPacket p
  | .tmr, _ => True

instance : (e : IpEvent ι) → (s : ReassLedger ι) → Decidable (Delivered e s)
  | .input _ _ _ p, _ => inferInstanceAs (Decidable (IsPacket p))
  | .tmr, _ => inferInstanceAs (Decidable True)

/-- **Every run** keeps the totals of the fragments. -/
theorem run_fragTotals {forward : Bool} {upper : UpperLayers} {es : List (IpEvent ι)}
    (hrun : runLabels (guardStep Delivered (ipStep forward upper)) es ReassLedger.init = some s) :
    ∀ d ∈ s.reass.datagrams, FragTotals d := by
  refine runLabels_invariant (I := fun s : ReassLedger ι ↦ ∀ d ∈ s.reass.datagrams, FragTotals d)
    (fun _ hd ↦ absurd hd List.not_mem_nil) (fun e t t' ht hstep ↦ ?_) hrun
  obtain ⟨hev, hstep⟩ := guardStep_eq_some.1 hstep
  rcases e with ⟨netifs, env, inp, p⟩ | -
  · obtain ⟨res, hcall, rfl⟩ := Option.map_eq_some_iff.1 hstep
    exact (ipInput_lengthsFit ht hev hcall).1
  · obtain ⟨⟨t'', freed⟩, htmr, rfl⟩ := Option.map_eq_some_iff.1 hstep
    have herase := t.ipReassTmr_erase
    rw [htmr, Option.map_some] at herase
    exact Reass.tmrLoop_keeps (fun d n hd ↦ hd) (by simp) ht herase.symm

/-- **The segments of `ip_input` are taken off rightly or dropped** if and only if their headers fit: in every run
of packets and ticks, for every packet that is passed on to TCP. -/
theorem tcpInputHeader_iff {forward : Bool} {upper : UpperLayers} {netifs : List IpNetif} {es : List (IpEvent ι)}
    (hrun : runLabels (guardStep Delivered (ipStep forward upper)) es ReassLedger.init = some s) (hp : IsPacket ps)
    (hcall : ipInput ⟨forward, netifs, upper⟩ ienv inp s ps = some res) (hq : (Receiver.tcp, q) ∈ res.passed)
    (env : HeaderEnv) : (tcpInputHeader env q).Right q ↔ HeaderFits env q := by
  obtain ⟨⟨b, rest, hpbufs, htot⟩, hlen⟩ := (ipInput_lengthsFit (run_fragTotals hrun) hp hcall).2 _ hq
  exact tcpInputHeader_right_iff hpbufs htot hlen

/-- The host of the examples, at the segments from 10.0.0.1. -/
def hostHeaderEnv : HeaderEnv := ⟨true, true, .two, hostNetif, 0x0100000a, 0x0200000a, fun _ ↦ 0⟩

/-- A segment without data, with this byte for the data offset, and its checksum. -/
def hostSegment (offset chksum : BitVec 8) : List (ℕ × Pbuf) :=
  hostPbuf 0 (hostPacket 0x45 40 0 6 20 20 ++ List.replicate 12 0 ++ [offset, 0, 0, 0, chksum, 0xe2, 0, 0])

/-- A segment with a header of twenty bytes is taken off rightly. -/
theorem tcpInputHeader_host : ∃ res, ipInput hostConfig plainEnv hostNetif ReassLedger.init (hostSegment 0x50 0x9b) =
      some res ∧ ∃ q, (Receiver.tcp, q) ∈ res.passed ∧ (tcpInputHeader hostHeaderEnv q).Right q := by
  have hcall : (ipInput hostConfig plainEnv hostNetif ReassLedger.init (hostSegment 0x50 0x9b)).map (fun res ↦
      res.passed.map fun x ↦ (x.1, decide (HeaderFits hostHeaderEnv x.2))) = some [(.raw, true), (.tcp, true)] := by
    decide
  obtain ⟨res, hcall, hpassed⟩ := Option.map_eq_some_iff.1 hcall
  have hmem : (Receiver.tcp, true) ∈ res.passed.map fun x ↦ (x.1, decide (HeaderFits hostHeaderEnv x.2)) := by
    rw [hpassed]
    decide
  obtain ⟨⟨r, q⟩, hq, heq⟩ := List.mem_map.1 hmem
  obtain ⟨rfl, hfits⟩ := Prod.mk.inj heq
  have hrun : runLabels (guardStep Delivered (ipStep hostConfig.ipForward lwipStubs)) [] (ReassLedger.init (ι := ℕ)) =
      some ReassLedger.init := rfl
  exact ⟨res, hcall, q, hq, (tcpInputHeader_iff hrun (by decide) hcall hq
    hostHeaderEnv).2 (of_decide_eq_true hfits)⟩

/-- The data offset of a segment that is passed on. -/
def HeaderResult.hdrlen? : HeaderResult → Option ℕ
  | .passed g => some g.hdrlen
  | _ => none

/-- **A data offset of zero is accepted**: the twenty bytes of the header are handed on as data. -/
theorem zero_offset_passed : ∃ res, ipInput hostConfig plainEnv hostNetif ReassLedger.init (hostSegment 0 0xeb) =
      some res ∧ ∃ q, (Receiver.tcp, q) ∈ res.passed ∧ ¬(tcpInputHeader hostHeaderEnv q).Right q := by
  have hcall : (ipInput hostConfig plainEnv hostNetif ReassLedger.init (hostSegment 0 0xeb)).map (fun res ↦
      res.passed.map fun x ↦ (x.1, (tcpInputHeader hostHeaderEnv x.2).hdrlen?)) =
        some [(.raw, some 0), (.tcp, some 0)] := by
    decide
  obtain ⟨res, hcall, hpassed⟩ := Option.map_eq_some_iff.1 hcall
  have hmem : (Receiver.tcp, some 0) ∈ res.passed.map fun x ↦ (x.1, (tcpInputHeader hostHeaderEnv x.2).hdrlen?) := by
    rw [hpassed]
    decide
  obtain ⟨⟨r, q⟩, hq, heq⟩ := List.mem_map.1 hmem
  obtain ⟨rfl, hzero⟩ := Prod.mk.inj heq
  refine ⟨res, hcall, q, hq, fun hright ↦ ?_⟩
  dsimp only at hzero
  rcases hresult : tcpInputHeader hostHeaderEnv q with - | - | g <;> rw [hresult] at hzero hright
  · cases hzero
  · cases hzero
  · have hlen : g.hdrlen = 0 := Option.some.inj hzero
    exact absurd hright.offset (by rw [hlen]; decide)

end Lwip.Tcp
