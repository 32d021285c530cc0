import LwipPoc.Ipv4.InetChksum
import LwipPoc.Ipv4.ReassLedger
import LwipPoc.Netif.Etharp

/-!
# `ip_input`

`ipv4/ip.c`, with `icmp_input` of `ipv4/icmp.c`, for the repository's configuration: reassembly, raw
pcbs, UDP, TCP and ICMP, and options allowed; no IGMP, AUTOIP or DHCP. Forwarding is a parameter, and so
are the input functions of the upper layers, which in the proof-of-concept build are those of
`lwip_stubs.c`.

A packet is a chain of pbufs with their **names**, and the model keeps the ledger of the caller's
references to them: which are released, and which are taken over by an upper layer. It also notes which
packets are **passed on**, and to whom.

The header is read through the `payload` pointer of the first pbuf, which may be shorter than the
header. What lies behind its bytes is whatever the memory holds there, and may change when the chain is
trimmed. The contents of the ICMP messages that are sent are left out.
-/

namespace Lwip.Ipv4

open Lwip.Core IpHdr

/-- What `ip_input` looks at of a `struct netif`. -/
structure IpNetif extends Arp.Netif where
  /-- `netif_is_up`. -/
  up : Bool
  deriving DecidableEq, Repr

/-- Who a packet is passed on to. -/
inductive Receiver
  | reass
  | forward
  | raw
  | udp
  | tcp
  | icmp
  deriving DecidableEq, Repr

/-- The input functions of the upper layers: whether they take over the packet. -/
structure UpperLayers where
  /-- `raw_input`: the packet was eaten. -/
  rawInput : IpPacket → Bool
  udpInput : IpPacket → Bool
  tcpInput : IpPacket → Bool

/-- `raw_input`, `tcp_input` and `udp_input` of `lwip_stubs.c`: they return zero, and that is all. -/
def lwipStubs : UpperLayers := ⟨fun _ ↦ false, fun _ ↦ false, fun _ ↦ false⟩

/-- The configuration. -/
structure IpConfig where
  /-- `IP_FORWARD`. -/
  ipForward : Bool
  /-- `netif_list`. -/
  netifList : List IpNetif
  upper : UpperLayers

/-- What the environment decides in a call. -/
structure IpEnv (ι : Type*) where
  /-- The memory behind the bytes of the first pbuf, by the distance from `payload`. -/
  behind : ℕ → BitVec 8
  /-- The same after the chain was trimmed. -/
  behindTrim : ℕ → BitVec 8
  /-- The first pbuf is a `PBUF_RAM` or `PBUF_POOL`, whose payload can move back over a header. -/
  movable : Bool
  /-- There is room for link headers in front of an echo request. -/
  room : Bool
  /-- The copy of an echo request, if it can be allocated. -/
  echoCopy : Option (List ι)
  /-- The pbuf of a "destination unreachable", if it can be allocated. -/
  unreach : Option (List ι)

/-- What a call did: the reassembly afterwards, the packets passed on, and the pbufs allocated,
released, and taken over by an upper layer. -/
structure IpResult (ι : Type*) where
  state : ReassLedger ι
  passed : List (Receiver × IpPacket)
  allocated : List ι
  released : List ι
  taken : List ι

/-! ### The header -/

/-- The header that starts at `payload`. -/
def readHdr (f : ℕ → BitVec 8) : IpHdr where
  vhl := (f 0).toNat
  tos := (f 1).toNat
  len := readU16 f 2
  id := readU16 f 4
  offset := readU16 f 6
  ttl := (f 8).toNat
  proto := (f 9).toNat
  chksum := loadU16 (f 10) (f 11)
  src := loadU32 (f 12) (f 13) (f 14) (f 15)
  dest := loadU32 (f 16) (f 17) (f 18) (f 19)

/-- `IPH_V`. -/
def IpHdr.version (h : IpHdr) : ℕ := h.vhl / 16

/-- `iphdr->src`. -/
def IpHdr.srcAddr (h : IpHdr) : Arp.IpAddr := BitVec.ofNat 32 h.src

/-- `iphdr->dest`. -/
def IpHdr.destAddr (h : IpHdr) : Arp.IpAddr := BitVec.ofNat 32 h.dest

variable {ι : Type*}

/-! ### ICMP -/

/-- `icmp_input`, for a packet that was sent to `dest`: the pbufs it allocates and releases. -/
def icmpInput (env : IpEnv ι) (inp : IpNetif) (dest : Arp.IpAddr) (p : IpPacket) (ids : List ι) :
    Option (List ι × List ι) :=
  let hlen := p.hdr.hl * 4
  (pbufHide hlen p.pbufs).bind fun q ↦
    if pbufTotLen q < 4 then some ([], ids)
    else
      let type := bytesAt ((p.pbufs.head?.map Pbuf.payload).getD []) env.behindTrim hlen
      if type = 8 then
        if Arp.ipAddrIsMulticast dest || Arp.ipAddrIsBroadcast dest inp.toNetif then some ([], ids)
        else if pbufTotLen q < 8 then some ([], ids)
        -- the sum is the same wherever the pbufs lie
        else if inetChksumPbuf .two (q.map fun b ↦ ⟨0, b.payload⟩) ≠ 0 then some ([], ids)
        else if env.room = true then some ([], ids)
        -- the payload must move back over the header, which fails an assertion if it cannot
        else if env.movable = false then none
        else
          match env.echoCopy with
          | none => some ([], ids)
          | some copy => some (copy, ids ++ copy)
      else some ([], ids)

/-- `icmp_dest_unreach`: the message that is allocated, and released. -/
def icmpDestUnreach (env : IpEnv ι) : List ι := (env.unreach).getD []

/-! ### `ip_input` -/

/-- The interface is up and configured, and the packet is sent to it or to its network. -/
def accepts (dest : Arp.IpAddr) (netif : IpNetif) : Bool :=
  netif.up && !Arp.ipAddrIsAny netif.ipAddr &&
    (dest = netif.ipAddr || Arp.ipAddrIsBroadcast dest netif.toNetif)

/-- The interface that a packet is for: the one it came in on is tried first. -/
def matchNetif (cfg : IpConfig) (inp : IpNetif) (dest : Arp.IpAddr) : Option IpNetif :=
  (inp :: cfg.netifList.filter fun netif ↦ netif ≠ inp).find? (accepts dest)

/-- A packet is handed to the upper layers. -/
def upperInput (cfg : IpConfig) (env : IpEnv ι) (inp : IpNetif) (s : ReassLedger ι)
    (dest : Arp.IpAddr) (p : IpPacket) (ids : List ι) : Option (IpResult ι) :=
  if cfg.upper.rawInput p = true then some ⟨s, [(.raw, p)], [], [], ids⟩
  else if p.hdr.proto = 17 then
    some ⟨s, [(.raw, p), (.udp, p)], [], [], if cfg.upper.udpInput p = true then ids else []⟩
  else if p.hdr.proto = 6 then
    some ⟨s, [(.raw, p), (.tcp, p)], [], [], if cfg.upper.tcpInput p = true then ids else []⟩
  else if p.hdr.proto = 1 then
    (icmpInput env inp dest p ids).map fun r ↦ ⟨s, [(.raw, p), (.icmp, p)], r.1, r.2, []⟩
  else if !Arp.ipAddrIsBroadcast dest inp.toNetif && !Arp.ipAddrIsMulticast dest then
    some ⟨s, [(.raw, p)], icmpDestUnreach env, icmpDestUnreach env ++ ids, []⟩
  else some ⟨s, [(.raw, p)], [], ids, []⟩

/-- `ip_input` from the point on where the packet was found to be for this host. -/
def deliver (cfg : IpConfig) (env : IpEnv ι) (inp : IpNetif) (s : ReassLedger ι) (p : IpPacket)
    (ids : List ι) : Option (IpResult ι) :=
  -- `IP_OFFMASK | IP_MF`
  if p.hdr.offset % 2 ^ 14 ≠ 0 then
    (s.ipReass p ids).bind fun
      | (none, s, freed) => some ⟨s, [(.reass, p)], [], freed, []⟩
      | (some r, s, freed) =>
        (upperInput cfg env inp s p.hdr.destAddr r.1 r.2).map fun res ↦
          { res with passed := (.reass, p) :: res.passed, released := freed ++ res.released }
  else upperInput cfg env inp s p.hdr.destAddr p ids

/-- `ip_input` behind the checks of the header, with the trimmed packet. -/
def route (cfg : IpConfig) (env : IpEnv ι) (inp : IpNetif) (s : ReassLedger ι) (p : IpPacket)
    (ids : List ι) : Option (IpResult ι) :=
  if Arp.ipAddrIsBroadcast p.hdr.srcAddr inp.toNetif || Arp.ipAddrIsMulticast p.hdr.srcAddr then
    some ⟨s, [], [], ids, []⟩
  else
    match matchNetif cfg inp p.hdr.destAddr with
    | none =>
      if cfg.ipForward && !Arp.ipAddrIsBroadcast p.hdr.destAddr inp.toNetif then
        some ⟨s, [(.forward, p)], [], ids, []⟩
      else some ⟨s, [], [], ids, []⟩
    | some _ => deliver cfg env inp s p ids

/-- The checks of version, lengths and checksum. -/
def headerChecks (h : IpHdr) (first : Pbuf) : Bool :=
  h.version = 4 && h.hl * 4 ≤ first.len && h.len ≤ first.totLen &&
    inetChksum .two ⟨0, first.payload.take (h.hl * 4)⟩ = 0

/-- The packet after the chain was trimmed, with its header read again. -/
def trimmed (env : IpEnv ι) (ps : List Pbuf) : IpPacket :=
  ⟨readHdr (bytesAt ((ps.head?.map Pbuf.payload).getD []) env.behindTrim), ps⟩

/-- **`ip_input`**. -/
def ipInput (cfg : IpConfig) (env : IpEnv ι) (inp : IpNetif) (s : ReassLedger ι)
    (p : List (ι × Pbuf)) : Option (IpResult ι) :=
  match p with
  | [] => none
  | (i, first) :: rest =>
    let h := readHdr (bytesAt first.payload env.behind)
    if headerChecks h first = true then
      (pbufRealloc h.len (first :: rest.map Prod.snd)).bind fun ps ↦
        let ids := i :: rest.map Prod.fst
        (route cfg env inp s (trimmed env ps) (ids.take ps.length)).map fun res ↦
          { res with released := ids.drop ps.length ++ res.released }
    else some ⟨s, [], [], i :: rest.map Prod.fst, []⟩

/-! ### Runs -/

/-- What happens to the module: a packet comes in on one of the interfaces, or the timer of the
reassembly ticks. -/
inductive IpEvent (ι : Type*)
  | input (netifs : List IpNetif) (env : IpEnv ι) (inp : IpNetif) (p : List (ι × Pbuf))
  | tmr

/-- One event. -/
def ipStep (forward : Bool) (upper : UpperLayers) : IpEvent ι → ReassLedger ι → Option (ReassLedger ι)
  | .input netifs env inp p, s =>
    (ipInput ⟨forward, netifs, upper⟩ env inp s p).map IpResult.state
  | .tmr, s => s.ipReassTmr.map Prod.fst

end Lwip.Ipv4
