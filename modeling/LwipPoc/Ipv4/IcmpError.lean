import LwipPoc.Ipv4.Forward
import LwipPoc.Ipv4.Icmp
import LwipPoc.Ipv4.InputChecks

/-!
# ICMP errors

`icmp_send_response` of `ipv4/icmp.c`, and the calls that lead to it: for an unknown protocol in `ip_input`, a
port without a pcb in `udp_input`, a packet that lived too long or is too large in `ip_forward`, and a datagram
that is given up in `ip_reass_free_complete_datagram`.

The message quotes the twenty bytes of a header and eight bytes behind it. They are copied from the `payload` of
the first pbuf, **whatever its length is**. Only `udp_input` has looked for eight bytes behind the header
(`quotesPacket_of_udp`). The others have not: what is quoted is the packet if and only if its first pbuf, as it
came in and cut to the length that its header says, has twenty-eight bytes (`icmpError_quotes_iff`).

For a datagram that is given up, this is the fragment at the offset zero, which has come in some calls before. So
the statement is about runs: every fragment in the queue is a packet of the run (`run_arrived`).
-/

namespace Lwip.Ipv4

open Lwip.Core IpHdr

variable {ι : Type*}

/-! ### The message -/

/-- The header in memory. -/
def IpHdr.bytes (h : IpHdr) : List (BitVec 8) :=
  [BitVec.ofNat 8 h.vhl, BitVec.ofNat 8 h.tos, BitVec.ofNat 8 (h.len / 2 ^ 8), BitVec.ofNat 8 h.len,
    BitVec.ofNat 8 (h.id / 2 ^ 8), BitVec.ofNat 8 h.id, BitVec.ofNat 8 (h.offset / 2 ^ 8), BitVec.ofNat 8 h.offset,
    BitVec.ofNat 8 h.ttl, BitVec.ofNat 8 h.proto] ++ storeU16 h.chksum ++
    storeU16 h.src ++ storeU16 (h.src / 2 ^ 16) ++ storeU16 h.dest ++ storeU16 (h.dest / 2 ^ 16)

/-- A call of `icmp_send_response`: the packet has its header as it is in memory by now. -/
structure IcmpError where
  type : BitVec 8
  code : BitVec 8
  packet : IpPacket
  deriving DecidableEq

/-- The memory from the header of a packet on. -/
def IpPacket.mem (behind : ℕ → BitVec 8) (p : IpPacket) : ℕ → BitVec 8 :=
  writeAt (bytesAt (firstBytes p.pbufs) behind) 0 p.hdr.bytes

/-- **`icmp_send_response`**, if a pbuf can be allocated: the message, and where it is sent. -/
def icmpSendResponse (behind : ℕ → BitVec 8) (e : IcmpError) : List (BitVec 8) × ℕ :=
  -- `ICMP_DEST_UNREACH_DATASIZE`
  let quote := memBytes (e.packet.mem behind) (ipHlen + 8)
  let message := fun chksum ↦ [e.type, e.code] ++ (storeU16 chksum ++ ([0, 0, 0, 0] ++ quote))
  (message (inetChksum .two ⟨0, message 0⟩), e.packet.hdr.src)

/-- `icmp_dest_unreach`, with one of the types `ICMP_DUR_PROTO`, `ICMP_DUR_PORT` and `ICMP_DUR_FRAG`. -/
def destUnreach (code : BitVec 8) (p : IpPacket) : IcmpError := ⟨3, code, p⟩

/-- `icmp_time_exceeded`, with one of the types `ICMP_TE_TTL` and `ICMP_TE_FRAG`. -/
def timeExceeded (code : BitVec 8) (p : IpPacket) : IcmpError := ⟨11, code, p⟩

/-- **The quote consists of bytes of the packet**: of the first pbuf, whatever lies behind it. -/
def QuotesPacket (e : IcmpError) : Prop :=
  ∀ behind, (icmpSendResponse behind e).1.drop 8 <+:
    memBytes (e.packet.mem behind) (firstBytes e.packet.pbufs).length

/-! ### The calls -/

/-- What is around a call. -/
structure ErrorEnv (ι : Type*) where
  fwd : ForwardEnv ι
  /-- There is a pcb in `udp_pcbs` for the datagram. -/
  udpPcb : IpPacket → Bool

/-- `udp_input`, as far as it leads to a message. A call that fails an assertion sends none. -/
def udpErrors (env : IpEnv ι) (out : ErrorEnv ι) (inp : IpNetif) (dest : Arp.IpAddr) (p : IpPacket) :
    List IcmpError :=
  let hlen := p.hdr.hl * 4
  -- `UDP_HLEN`
  if pbufTotLen p.pbufs < hlen + 8 then []
  else
    match pbufHide hlen p.pbufs with
    | none => []
    | some q =>
      let udphdr := fun i ↦ bytesAt (firstBytes p.pbufs) env.behindTrim (hlen + i)
      if !(out.udpPcb p || inp.ipAddr = dest) then []
      else if [udphdr 6, udphdr 7] ≠ [0, 0] ∧
          inetChksumPseudo .two (q.map fun b ↦ ⟨0, b.payload⟩) p.hdr.srcAddr dest 17
            (BitVec.ofNat 16 (pbufTotLen q)) ≠ 0 then []
      else
        match pbufHide 8 q with
        | none => []
        | some _ =>
          if out.udpPcb p || Arp.ipAddrIsBroadcast dest inp.toNetif || Arp.ipAddrIsMulticast dest then []
          -- `p->payload == iphdr`
          else if env.movable = true then [destUnreach 3 p]
          else []

/-- The messages for a packet that is handed to the upper layers. -/
def upperErrors (cfg : IpConfig) (env : IpEnv ι) (out : ErrorEnv ι) (inp : IpNetif) (dest : Arp.IpAddr)
    (p : IpPacket) : List IcmpError :=
  if cfg.upper.rawInput p = true then []
  else if p.hdr.proto = 17 then udpErrors env out inp dest p
  else if p.hdr.proto = 6 ∨ p.hdr.proto = 1 then []
  else if !Arp.ipAddrIsBroadcast dest inp.toNetif && !Arp.ipAddrIsMulticast dest then [destUnreach 2 p]
  else []

/-- The messages of `ip_forward`. -/
def forwardErrors (cfg : IpConfig) (fwd : ForwardEnv ι) (inp : IpNetif) (p : IpPacket) : List IcmpError :=
  if ipCanforward fwd p.hdr.destAddr = false then []
  else if Arp.ipAddrIsLinkLocal p.hdr.destAddr then []
  else
    match ipRoute cfg fwd p.hdr.destAddr with
    | none => []
    | some netif =>
      if netif = inp then []
      else
        let h := forwardHdr p.hdr
        if h.ttl = 0 then
          -- the checksum is not adjusted any more
          if h.proto ≠ 1 then [timeExceeded 0 { p with hdr := { p.hdr with ttl := 0 } }] else []
        else if fwd.mtu netif ≠ 0 ∧ fwd.mtu netif < pbufTotLen p.pbufs ∧ h.offset / 2 ^ 14 % 2 ≠ 0 then
          [destUnreach 4 { p with hdr := h }]
        else []

namespace Reass

/-- The message of `ip_reass_free_complete_datagram`: the header of the datagram is copied back into its first
fragment. -/
def freeErrors (d : ReassData) : List IcmpError :=
  match d.frags with
  | [] => []
  | q :: _ => if q.start = 0 then [timeExceeded 1 ⟨d.iphdr, q.frag.pbufs⟩] else []

/-- The messages of `ip_reass_remove_oldest_datagram`. -/
def removeOldestErrors (fraghdr : IpHdr) (needed : ℕ) : ℕ → ℕ → Reass → List IcmpError
  | 0, _, _ => []
  | fuel + 1, freed, s =>
    match findOldest fraghdr s.datagrams 0 none 0 with
    | (none, _) => []
    | (some i, others) =>
      match s.freeCompleteDatagram i (searchPrev s.datagrams) with
      | none => []
      | some r =>
        ((s.datagrams[i]?).map freeErrors).getD [] ++
          if freed + r.1 < needed ∧ 1 < others then removeOldestErrors fraghdr needed fuel (freed + r.1) r.2
          else []

/-- The messages of `ip_reass`: for the datagrams that are given up for its pbufs, and for its entry. -/
def ipReassErrors (s : Reass) (p : IpPacket) : List IcmpError :=
  let clen := pbufClen p.pbufs
  let oldest := fun s : Reass ↦ removeOldestErrors p.hdr clen (s.datagrams.length + 1) 0 s
  if p.hdr.hl * 4 ≠ ipHlen then []
  else
    (if ipReassMaxPbufs < s.pbufcount + clen then oldest s else []) ++
      match s.makeRoom p with
      | some (true, s) =>
        match s.datagrams.findIdx? fun d ↦ addressesAndIdMatch d.iphdr p.hdr with
        | some _ => []
        | none => if s.datagrams.length < mempNumReassdata then [] else oldest s
      | _ => []

/-- The messages of `ip_reass_tmr`. -/
def tmrErrors (s : Reass) : List IcmpError := (s.datagrams.filter fun d ↦ d.timer = 0).flatMap freeErrors

end Reass

/-- The messages for a packet that is for this host. -/
def deliverErrors (cfg : IpConfig) (env : IpEnv ι) (out : ErrorEnv ι) (inp : IpNetif) (s : Reass) (p : IpPacket) :
    List IcmpError :=
  if p.hdr.offset % 2 ^ 14 ≠ 0 then
    s.ipReassErrors p ++
      match s.ipReass p with
      | some (some r, _) => upperErrors cfg env out inp p.hdr.destAddr r
      | _ => []
  else upperErrors cfg env out inp p.hdr.destAddr p

/-- The messages of `ip_input`, behind the checks of the header. -/
def routeErrors (cfg : IpConfig) (env : IpEnv ι) (out : ErrorEnv ι) (inp : IpNetif) (s : Reass) (p : IpPacket) :
    List IcmpError :=
  if Arp.ipAddrIsBroadcast p.hdr.srcAddr inp.toNetif || Arp.ipAddrIsMulticast p.hdr.srcAddr then []
  else
    match matchNetif cfg inp p.hdr.destAddr with
    | none =>
      if cfg.ipForward && !Arp.ipAddrIsBroadcast p.hdr.destAddr inp.toNetif then forwardErrors cfg out.fwd inp p
      else []
    | some _ => deliverErrors cfg env out inp s p

/-- **The messages of an event.** -/
def eventErrors (forward : Bool) (upper : UpperLayers) (out : ErrorEnv ι) : IpEvent ι → Reass → List IcmpError
  | .input netifs env inp p, s =>
    ((checked env p).map (routeErrors ⟨forward, netifs, upper⟩ env out inp s)).getD []
  | .tmr, s => s.tmrErrors

variable {cfg : IpConfig} {env : IpEnv ι} {out : ErrorEnv ι} {fwd : ForwardEnv ι} {inp : IpNetif} {dest : Arp.IpAddr}
  {behind f : ℕ → BitVec 8} {p q r : IpPacket} {ps : List (ι × Pbuf)} {e : IcmpError} {es : List (IpEvent ι)}
  {ev : IpEvent ι} {forward : Bool} {upper : UpperLayers} {ids : List ι}

/-! ### The header -/

theorem quotesPacket_iff : QuotesPacket e ↔ ipHlen + 8 ≤ (firstBytes e.packet.pbufs).length := by
  have hquote : ∀ behind, (icmpSendResponse behind e).1.drop 8 = memBytes (e.packet.mem behind) (ipHlen + 8) :=
    fun _ ↦ rfl
  simp only [QuotesPacket, hquote]
  constructor
  · intro hall
    have hle := (hall fun _ ↦ 0).length_le
    rwa [length_memBytes, length_memBytes] at hle
  · intro hle behind
    obtain ⟨n, hn⟩ := Nat.exists_eq_add_of_le hle
    rw [hn, memBytes_add _ (ipHlen + 8)]
    exact List.prefix_append _ _

/-! ### Who is quoted -/

theorem udpErrors_packet (he : e ∈ udpErrors env out inp dest p) :
    e = destUnreach 3 p ∧ ∃ q, pbufHide (p.hdr.hl * 4) p.pbufs = some q ∧ ∃ q', pbufHide 8 q = some q' := by
  rw [udpErrors, List.mem_ite_nil_left] at he
  rcases hq : pbufHide (p.hdr.hl * 4) p.pbufs with _ | q
  · simp [hq] at he
  simp only [hq, List.mem_ite_nil_left] at he
  rcases hq' : pbufHide 8 q with _ | q'
  · simp [hq'] at he
  simp only [hq', List.mem_ite_nil_left, List.mem_ite_nil_right, List.mem_singleton] at he
  exact ⟨he.2.2.2.2.2, q, rfl, q', hq'⟩

/-- **A datagram without a pcb is quoted as it is**: `udp_input` has hidden the eight bytes behind the header. -/
theorem quotesPacket_of_udp (he : e ∈ udpErrors env out inp dest p) (hhlen : ipHlen ≤ p.hdr.hl * 4) :
    QuotesPacket e := by
  obtain ⟨rfl, q, hq, q', hq'⟩ := udpErrors_packet he
  rw [quotesPacket_iff]
  show _ ≤ (firstBytes p.pbufs).length
  obtain ⟨hdr, _ | ⟨b, bs⟩⟩ := p
  · cases hq
  rw [pbufHide] at hq
  split_ifs at hq with hlen
  rw [← Option.some.inj hq, pbufHide] at hq'
  split_ifs at hq' with hlen8
  rw [Pbuf.len, List.length_drop] at hlen8
  show _ ≤ b.payload.length
  omega

theorem upperErrors_packet (he : e ∈ upperErrors cfg env out inp dest p) : e.packet = p := by
  rw [upperErrors] at he
  split_ifs at he
  · cases he
  · rw [(udpErrors_packet he).1]
    rfl
  · cases he
  · rw [List.mem_singleton.1 he]
    rfl
  · cases he

theorem forwardErrors_packet (he : e ∈ forwardErrors cfg fwd inp p) : e.packet.pbufs = p.pbufs := by
  rw [forwardErrors, List.mem_ite_nil_left, List.mem_ite_nil_left] at he
  obtain ⟨-, -, he⟩ := he
  rcases hroute : ipRoute cfg fwd p.hdr.destAddr with _ | netif
  · simp [hroute] at he
  simp only [hroute, List.mem_ite_nil_left] at he
  obtain ⟨-, he⟩ := he
  split_ifs at he
  · rw [List.mem_singleton.1 he]
    rfl
  · cases he
  · rw [List.mem_singleton.1 he]
    rfl
  · cases he

namespace Reass

variable {s s' : Reass} {d : ReassData} {h : IpHdr} {needed fuel freed : ℕ}

/-- The first fragment of a datagram. -/
theorem freeErrors_packet (he : e ∈ freeErrors d) : ∃ x ∈ d.frags, e.packet.pbufs = x.frag.pbufs := by
  rw [freeErrors] at he
  split at he
  · cases he
  next q qs hfrags =>
  rw [List.mem_ite_nil_right] at he
  rw [List.mem_singleton.1 he.2, hfrags]
  exact ⟨q, List.mem_cons_self, rfl⟩

theorem removeOldestErrors_datagram (he : e ∈ removeOldestErrors h needed fuel freed s) :
    ∃ d ∈ s.datagrams, e ∈ freeErrors d := by
  induction fuel generalizing freed s with
  | zero => cases he
  | succ fuel ih =>
    rw [removeOldestErrors] at he
    rcases hfind : findOldest h s.datagrams 0 none 0 with ⟨_ | i, others⟩
    · simp [hfind] at he
    rcases hfree : s.freeCompleteDatagram i (searchPrev s.datagrams) with _ | ⟨n, s'⟩
    · simp [hfind, hfree] at he
    simp only [hfind, hfree, List.mem_append, List.mem_ite_nil_right] at he
    rcases he with he | ⟨-, he⟩
    · rcases hd : s.datagrams[i]? with _ | d
      · simp [hd] at he
      · rw [hd] at he
        exact ⟨d, List.mem_of_getElem? hd, he⟩
    · -- there is one datagram less in the next round
      obtain ⟨d, hd, he⟩ := ih he
      rw [freeCompleteDatagram_datagrams hfree] at hd
      exact ⟨d, (List.eraseIdx_sublist _ _).subset hd, he⟩

theorem ipReassErrors_datagram (he : e ∈ s.ipReassErrors p) : ∃ d ∈ s.datagrams, e ∈ freeErrors d := by
  rw [ipReassErrors, List.mem_ite_nil_left, List.mem_append, List.mem_ite_nil_right] at he
  obtain ⟨-, ⟨-, he⟩ | he⟩ := he
  · exact removeOldestErrors_datagram he
  rcases hroom : s.makeRoom p with _ | ⟨_ | _, s₁⟩
  · simp [hroom] at he
  · simp [hroom] at he
  rw [hroom] at he
  rcases hfind : s₁.datagrams.findIdx? fun d ↦ addressesAndIdMatch d.iphdr p.hdr with _ | i
  · simp only [hfind, List.mem_ite_nil_left] at he
    obtain ⟨d, hd, he⟩ := removeOldestErrors_datagram he.2
    exact ⟨d, (makeRoom_spec hroom).1.subset hd, he⟩
  · simp [hfind] at he

theorem tmrErrors_datagram (he : e ∈ s.tmrErrors) : ∃ d ∈ s.datagrams, e ∈ freeErrors d := by
  obtain ⟨d, hd, he⟩ := List.mem_flatMap.1 he
  exact ⟨d, (List.mem_filter.1 hd).1, he⟩

/-- The first pbuf of a reassembled packet is that of a fragment. -/
theorem firstBytes_assemble (hr : assemble d d.frags = some r) :
    ∃ x ∈ d.frags, firstBytes r.pbufs = firstBytes x.frag.pbufs := by
  rcases hfrags : d.frags with _ | ⟨q, qs⟩
  · rw [hfrags] at hr
    cases hr
  rw [hfrags] at hr
  obtain ⟨c, hc, rfl⟩ := Option.map_eq_some_iff.1 hr
  refine ⟨q, List.mem_cons_self, ?_⟩
  rcases hq : q.frag.pbufs.head? with _ | b
  · rw [List.head?_eq_none_iff.1 hq] at hc ⊢
    rcases qs with _ | ⟨x, qs⟩
    · rw [← Option.some.inj hc]
    · obtain ⟨t, -, hc⟩ := Option.bind_eq_some_iff.1 hc
      cases hc
  · obtain ⟨b', hb', hpay⟩ := head?_chainPbufs hq hc
    show ((c.head?.map Pbuf.payload).getD []) = _
    rw [hb', firstBytes, hq, Option.map_some, Option.map_some, hpay]

end Reass

/-! ### Runs -/

/-- The packet, behind the checks of its header, has come in. -/
def Arrived (es : List (IpEvent ι)) (q : IpPacket) : Prop :=
  ∃ netifs env inp p, IpEvent.input netifs env inp p ∈ es ∧ q ∈ checked env p

/-- So have all fragments of a datagram. -/
def FragsArrived (es : List (IpEvent ι)) (d : ReassData) : Prop := ∀ x ∈ d.frags, Arrived es x.frag

theorem Arrived.mono {es' : List (IpEvent ι)} (h : Arrived es q) (hes : es ⊆ es') : Arrived es' q := by
  obtain ⟨netifs, env, inp, p, hmem, hq⟩ := h
  exact ⟨netifs, env, inp, p, hes hmem, hq⟩

theorem keeps_fragsArrived (hq : Arrived es q) : Reass.Keeps (FragsArrived es) q := by
  refine ⟨fun x hx ↦ absurd hx List.not_mem_nil, fun d hd ↦ ?_, fun d hd ↦ ?_, fun d qs hd hperm x hx ↦ ?_⟩
  · rw [Reass.adoptHdr]
    split_ifs
    · exact hd
    · exact hd
  · rw [FragsArrived, Reass.noteLast_frags]
    exact hd
  · rcases List.mem_cons.1 (hperm.mem_iff.1 hx) with rfl | hx
    · exact hq
    · exact hd x hx

/-- **Every fragment in the queue has come in.** -/
theorem run_arrived {s : ReassLedger ι} (hrun : runLabels (ipStep forward upper) es ReassLedger.init = some s) :
    ∀ d ∈ s.reass.datagrams, FragsArrived es d := by
  refine runLabels_induction (I := fun es s ↦ ∀ d ∈ s.reass.datagrams, FragsArrived es d)
    (fun d hd ↦ absurd hd List.not_mem_nil) (fun es e t t' _ ht hstep ↦ ?_) hrun
  have ht' : ∀ d ∈ t.reass.datagrams, FragsArrived (es ++ [e]) d := fun d hd x hx ↦
    (ht d hd x hx).mono (List.subset_append_left _ _)
  rcases e with ⟨netifs, env, inp, p⟩ | -
  · obtain ⟨res, hcall, rfl⟩ := Option.map_eq_some_iff.1 hstep
    rcases ipInput_passes hcall with ⟨q, hq, -, hpasses⟩ | ⟨-, -, hstate⟩
    · have harrived : Arrived (es ++ [IpEvent.input netifs env inp p]) q :=
        ⟨netifs, env, inp, p, List.mem_append_right _ (List.mem_singleton_self _), hq⟩
      rcases hpasses.state with hstate | ⟨-, o, hreass⟩
      · rw [hstate]
        exact ht'
      · exact ((keeps_fragsArrived harrived).ipReass ht' hreass).1
    · rw [hstate]
      exact ht'
  · obtain ⟨⟨t'', freed⟩, htmr, rfl⟩ := Option.map_eq_some_iff.1 hstep
    have herase := t.ipReassTmr_erase
    rw [htmr, Option.map_some] at herase
    exact Reass.tmrLoop_keeps (fun d n hd ↦ hd) (by simp) ht' herase.symm

/-- **Who is quoted**: the first pbuf is that of a packet that has come in. -/
theorem eventErrors_arrived {s : ReassLedger ι}
    (hrun : runLabels (ipStep forward upper) es ReassLedger.init = some s)
    (he : e ∈ eventErrors forward upper out ev s.reass) :
    ∃ q, Arrived (es ++ [ev]) q ∧ firstBytes e.packet.pbufs = firstBytes q.pbufs := by
  have hs : ∀ d ∈ s.reass.datagrams, FragsArrived (es ++ [ev]) d := fun d hd x hx ↦
    (run_arrived hrun d hd x hx).mono (List.subset_append_left _ _)
  -- the first fragment of a datagram that is given up
  have hqueue : (∃ d ∈ s.reass.datagrams, e ∈ Reass.freeErrors d) →
      ∃ q, Arrived (es ++ [ev]) q ∧ firstBytes e.packet.pbufs = firstBytes q.pbufs := fun ⟨d, hd, hfree⟩ ↦ by
    obtain ⟨x, hx, hpbufs⟩ := Reass.freeErrors_packet hfree
    exact ⟨x.frag, hs d hd x hx, by rw [hpbufs]⟩
  rcases ev with ⟨netifs, env, inp, p⟩ | -
  · rcases hq : checked env p with _ | q
    · simp [eventErrors, hq] at he
    have harrived : Arrived (es ++ [IpEvent.input netifs env inp p]) q :=
      ⟨netifs, env, inp, p, List.mem_append_right _ (List.mem_singleton_self _), hq⟩
    rw [eventErrors, hq, Option.map_some, Option.getD_some, routeErrors, List.mem_ite_nil_left] at he
    obtain ⟨-, he⟩ := he
    rcases hmatch : matchNetif ⟨forward, netifs, upper⟩ inp q.hdr.destAddr with _ | netif
    · simp only [hmatch, List.mem_ite_nil_right] at he
      exact ⟨q, harrived, by rw [forwardErrors_packet he.2]⟩
    simp only [hmatch] at he
    rw [deliverErrors] at he
    split_ifs at he
    · rcases List.mem_append.1 he with he | he
      · exact hqueue (Reass.ipReassErrors_datagram he)
      · rcases hreass : s.reass.ipReass q with _ | ⟨_ | r, s'⟩
        · simp [hreass] at he
        · simp [hreass] at he
        rw [hreass] at he
        obtain ⟨-, hmade⟩ := (keeps_fragsArrived harrived).ipReass hs hreass
        obtain ⟨d, hd, hassemble⟩ := hmade r rfl
        obtain ⟨x, hx, hfirst⟩ := Reass.firstBytes_assemble hassemble
        exact ⟨x.frag, hd x hx, by rw [upperErrors_packet he, hfirst]⟩
    · exact ⟨q, harrived, by rw [upperErrors_packet he]⟩
  · exact hqueue (Reass.tmrErrors_datagram he)

/-- **An ICMP error quotes its packet** if and only if the first pbuf of the packet, as it came in and cut to its
length, has a header and eight bytes: for every run, and every message that an event leads to. -/
theorem icmpError_quotes_iff {s : ReassLedger ι}
    (hrun : runLabels (ipStep forward upper) es ReassLedger.init = some s)
    (hpackets : ∀ netifs env inp p, IpEvent.input netifs env inp p ∈ es ++ [ev] → IsPacket p)
    (he : e ∈ eventErrors forward upper out ev s.reass) :
    ∃ netifs env inp i first rest, IpEvent.input netifs env inp ((i, first) :: rest) ∈ es ++ [ev] ∧
      firstBytes e.packet.pbufs =
        first.payload.take (readHdr (bytesAt first.payload env.behind)).len ∧
      (QuotesPacket e ↔
        ipHlen + 8 ≤ first.len ∧ ipHlen + 8 ≤ (readHdr (bytesAt first.payload env.behind)).len) := by
  obtain ⟨q, ⟨netifs, env, inp, p, hmem, hq⟩, hfirst⟩ := eventErrors_arrived hrun he
  have hp := hpackets netifs env inp p hmem
  rcases p with _ | ⟨⟨i, first⟩, rest⟩
  · cases hq
  rw [checked] at hq
  simp only [Option.mem_def] at hq
  split_ifs at hq with hchecks
  obtain ⟨ps, hps, rfl⟩ := Option.map_eq_some_iff.1 hq
  have hle : first.len ≤ first.totLen := by
    have htot := hp.2.1.1
    rw [htot, Pbuf.len]
    show _ ≤ (first.payload ++ pbufBytes _).length
    rw [List.length_append]
    exact Nat.le_add_right _ _
  obtain ⟨b, hb, hpay⟩ := head?_realloc hps hle
  have hbytes : firstBytes e.packet.pbufs =
      first.payload.take (readHdr (bytesAt first.payload env.behind)).len := by
    rw [hfirst, ← hpay]
    show ((ps.head?.map Pbuf.payload).getD []) = _
    rw [hb]
    rfl
  refine ⟨netifs, env, inp, i, first, rest, hmem, hbytes, ?_⟩
  rw [quotesPacket_iff, hbytes, List.length_take, Pbuf.len]
  omega

/-- No routes, and no pcbs. -/
def plainErrorEnv : ErrorEnv ℕ :=
  ⟨⟨false, false, none, fun _ ↦ 0, fun _ _ ↦ false, none, none, []⟩, fun _ ↦ false⟩

/-- A packet of this length for this host, with an unknown protocol. -/
def unknownProto (n : ℕ) : IpEvent ℕ :=
  .input [hostNetif] plainEnv hostNetif (hostPbuf 0 (hostPacket 0x45 (BitVec.ofNat 8 n) 0 99 20 n))

/-- Twenty-eight bytes are quoted. -/
theorem icmpError_quotes_iff_unknown :
    ∃ e ∈ eventErrors false lwipStubs plainErrorEnv (unknownProto 28) Reass.init, QuotesPacket e := by
  have herrors : (eventErrors false lwipStubs plainErrorEnv (unknownProto 28) Reass.init).map IcmpError.code = [2] := by
    decide
  obtain ⟨e, es, hes, -, -⟩ := List.map_eq_cons_iff.1 herrors
  have he : e ∈ eventErrors false lwipStubs plainErrorEnv (unknownProto 28) Reass.init := by
    rw [hes]
    exact List.mem_cons_self
  have hpackets : ∀ netifs env inp p, IpEvent.input netifs env inp p ∈ [] ++ [unknownProto 28] → IsPacket p := by
    intro netifs env inp p hmem
    obtain ⟨-, -, -, rfl⟩ := IpEvent.input.inj (List.mem_singleton.1 hmem)
    decide
  have hrun : runLabels (ipStep false lwipStubs) ([] : List (IpEvent ℕ)) ReassLedger.init = some ReassLedger.init := rfl
  obtain ⟨netifs, env, inp, i, first, rest, hmem, -, hiff⟩ := icmpError_quotes_iff hrun hpackets he
  obtain ⟨-, rfl, -, hp⟩ := IpEvent.input.inj (List.mem_singleton.1 hmem)
  obtain ⟨hfirst, -⟩ := List.cons.inj hp
  obtain ⟨-, rfl⟩ := Prod.mk.inj hfirst
  exact ⟨e, he, hiff.2 (by decide)⟩

/-- **A packet without a payload**: the eight bytes behind it are sent, whatever they are. -/
theorem not_icmpError_quotes :
    ∃ e ∈ eventErrors false lwipStubs plainErrorEnv (unknownProto 20) Reass.init,
      (∀ behind, (icmpSendResponse behind e).1.drop 28 = bytesFrom behind 20 8) ∧ ¬ QuotesPacket e := by
  refine ⟨destUnreach 2 ⟨readHdr (bytesAt (hostPacket 0x45 20 0 99 20 20) fun _ ↦ 0),
    [⟨hostPacket 0x45 20 0 99 20 20, 20⟩]⟩, by decide, fun behind ↦ rfl, ?_⟩
  rw [quotesPacket_iff]
  decide

end Lwip.Ipv4
