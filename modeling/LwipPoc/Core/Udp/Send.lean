import LwipPoc.Core.PbufHeap
import LwipPoc.Core.Udp.Bind
import LwipPoc.Ipv4.Frag
import LwipPoc.Ipv4.Output
import LwipPoc.Ipv4.PseudoPartial

/-!
# Sending datagrams

`udp_sendto_if_chksum` of `core/udp.c` down to what `ip_output_if` passes on, on a little-endian machine and without
UDP-Lite. The header goes in front of the first pbuf, if it has room there, and else into a pbuf of its own; the header
of IP goes in front of that.

Each of the two headers is added to a `tot_len`, a `u16_t`, and nothing looks at what comes out of it. So **the lengths
in the headers are right if and only if they fit** (`udpSendto_right_iff`): a datagram that is too long is sent with
all its bytes, and its headers say that it has few.
-/

namespace Lwip.Udp

open Lwip.Core Lwip.Ipv4 IpHdr

/-- `UDP_HLEN`. -/
def udpHlen : ℕ := 8

/-- `IP_PROTO_UDP`. -/
def ipProtoUdp : BitVec 8 := 17

/-! ### Room for headers -/

/-- A chain of pbufs, and the bytes in front of its payload; there are none in a `PBUF_REF` or `PBUF_ROM`. -/
structure UdpBuf where
  pbufs : List Pbuf
  room : ℕ
  deriving DecidableEq, Repr

namespace UdpBuf

/-- `p->len`, a `u16_t`. -/
def len (b : UdpBuf) : ℕ := ((b.pbufs.head?.map Pbuf.len).getD 0) % 2 ^ 16

/-- `p->tot_len`. -/
def totLen (b : UdpBuf) : ℕ := pbufTotLen b.pbufs

/-- `pbuf_header` with a positive increment: the bytes `junk` that were in the room come to the front. -/
def header (junk : ℕ → BitVec 8) (n : ℕ) : UdpBuf → Option UdpBuf
  | ⟨[], _⟩ => none
  | ⟨p :: ps, room⟩ =>
    if n ≤ room then
      some ⟨⟨(List.range n).map junk ++ p.payload, (p.totLen + n) % 2 ^ 16⟩ :: ps, room - n⟩
    else none

/-- A header is written at the payload. -/
def write (hdr : List (BitVec 8)) : UdpBuf → UdpBuf
  | ⟨[], room⟩ => ⟨[], room⟩
  | ⟨p :: ps, room⟩ => ⟨{ p with payload := hdr ++ p.payload.drop hdr.length } :: ps, room⟩

/-- What the checksum functions see: the `k`th pbuf has its payload at `addr k`. -/
def buffers (addr : ℕ → ℕ) (b : UdpBuf) : List Buffer := b.pbufs.mapIdx fun k p ↦ ⟨addr k, p.payload⟩

end UdpBuf

/-- The packet of a caller: a chain with the right totals. -/
structure UdpPacket extends UdpBuf where
  ne_nil : pbufs ≠ []
  totals : Totals pbufs
  /-- `tot_len` is a `u16_t`. -/
  lt : (pbufBytes pbufs).length < 2 ^ 16

/-- `ip_output_if` without options, if it makes the header and the interface has this address: what is passed on to the
interface, to `ip_frag` or to the loopback queue. A failed assertion is `none`. -/
def ipOutputIf (b : UdpBuf) (a : OutParams) (netifAddr : U32) (ipId : BitVec 16) (junk : ℕ → BitVec 8) :
    Option (Except ErrT (UdpBuf × BitVec 16)) :=
  match b.header junk ipHlen with
  | none => some (.error .buf)
  | some b =>
    -- "check that first pbuf can hold struct ip_hdr"
    if b.len < ipHlen then none
    else
      let src := if a.src = 0 then netifAddr else a.src
      let chksum := inlineChksum (inlineSum .little a src b.totLen ipId.toNat)
      some (.ok (b.write (outHdr .little a src b.totLen ipId.toNat chksum), ipId + 1))

/-! ### `udp_sendto_if_chksum` -/

/-- `struct udp_hdr` in memory. -/
def udpHdr (src dest len chksum : ℕ) : List (BitVec 8) := netU16 src ++ netU16 dest ++ netU16 len ++ storeU16 chksum

/-- How the module is configured. -/
structure UdpConf where
  soReuse : Bool
  /-- `IP_SOF_BROADCAST`. -/
  ipSofBroadcast : Bool
  alg : ChksumAlgorithm

/-- A call of `udp_sendto_if_chksum`, and what it finds. -/
structure UdpSend where
  /-- The number of the control block. -/
  pcb : ℕ
  /-- `SOF_BROADCAST`. -/
  sofBroadcast : Bool
  /-- `UDP_FLAGS_NOCHKSUM`. -/
  nochksum : Bool
  ttl : BitVec 8
  tos : BitVec 8
  p : UdpPacket
  dstIp : U32
  dstPort : ℕ
  netif : Arp.Netif
  haveChksum : Bool
  chksum : BitVec 16
  /-- What is in the memory of a new pbuf, if there is memory. -/
  mem : Option (ℕ → BitVec 8)
  /-- What is in the room for headers. -/
  junk : ℕ → BitVec 8
  /-- Where the payloads of the pbufs are. -/
  addr : ℕ → ℕ
  ipId : BitVec 16

namespace UdpSend

/-- "broadcast filter?" -/
def filtered (cfg : UdpConf) (c : UdpSend) : Bool :=
  cfg.ipSofBroadcast && !c.sofBroadcast && Arp.ipAddrIsBroadcast c.dstIp c.netif

/-- "if the PCB is not yet bound to a port, bind it here". -/
def bindPort (cfg : UdpConf) (c : UdpSend) (s : UdpState) : Option (ErrT × UdpState) :=
  if (s.pcb c.pcb).localPort = 0 then
    UdpState.udpBind cfg.soReuse s c.pcb (s.pcb c.pcb).localIp (s.pcb c.pcb).localPort
  else some (.ok, s)

/-- `pbuf_alloc(PBUF_IP, UDP_HLEN, PBUF_RAM)`. -/
def headerPbuf (mem : ℕ → BitVec 8) : UdpBuf :=
  ⟨[⟨(List.range udpHlen).map mem, udpHlen⟩], memAlignSize (sizeofStructPbuf + PbufLayer.ip.offset) - sizeofStructPbuf⟩

/-- `q`: the chain with a header in front, in `p` itself or in a pbuf of its own. Nothing is chained behind that if
there is no data. -/
def withHeader (c : UdpSend) : Option (Except ErrT UdpBuf) :=
  match c.p.header c.junk udpHlen with
  | some q => some (.ok q)
  | none =>
    match c.mem with
    | none => some (.error .mem)
    | some mem =>
      let q := headerPbuf mem
      if c.p.totLen ≠ 0 then (pbufCat c.p.pbufs q.pbufs).map fun ps ↦ .ok { q with pbufs := ps }
      else some (.ok q)

/-- `src_ip`, unless the control block has another address than the interface. -/
def srcIp (c : UdpSend) (s : UdpState) : Option U32 :=
  if (s.pcb c.pcb).localIp = 0 then some c.netif.ipAddr
  else if (s.pcb c.pcb).localIp ≠ c.netif.ipAddr then none
  else some (s.pcb c.pcb).localIp

/-- `udphdr->chksum`: with a sum of the data it is enough to sum the header. -/
def udpChksum (cfg : UdpConf) (c : UdpSend) (q : UdpBuf) (src : U32) : Option ℕ :=
  if c.nochksum = true then some 0
  else
    (if c.haveChksum = true then
      (inetChksumPseudoPartial cfg.alg (q.buffers c.addr) src c.dstIp ipProtoUdp (BitVec.ofNat 16 q.totLen)
        (BitVec.ofNat 16 udpHlen)).map fun udpchksum ↦
          foldU32 (udpchksum + (2 ^ 16 - 1 - c.chksum.toNat)) % 2 ^ 16
    else some (inetChksumPseudo cfg.alg (q.buffers c.addr) src c.dstIp ipProtoUdp (BitVec.ofNat 16 q.totLen))).map
      fun udpchksum ↦ if udpchksum = 0 then 0xffff else udpchksum

/-- **`udp_sendto_if_chksum`**: an error, or what is passed on. A failed assertion is `none`. -/
def udpSendtoIf (cfg : UdpConf) (c : UdpSend) (s : UdpState) : Option (UdpState × Except ErrT UdpBuf) :=
  if c.filtered cfg = true then some (s, .error .val)
  else
    (c.bindPort cfg s).bind fun r ↦
      let s := r.2
      if r.1 ≠ .ok then some (s, .error r.1)
      else
        c.withHeader.bind fun
          | .error e => some (s, .error e)
          | .ok q =>
            -- "check that first pbuf can hold struct udp_hdr"
            if q.len < udpHlen then none
            else
              match c.srcIp s with
              | none => some (s, .error .val)
              | some src =>
                let q := q.write (udpHdr (s.pcb c.pcb).localPort c.dstPort q.totLen 0)
                (c.udpChksum cfg q src).bind fun chksum ↦
                  let q := q.write (udpHdr (s.pcb c.pcb).localPort c.dstPort q.totLen chksum)
                  (ipOutputIf q ⟨src, c.dstIp, c.ttl, c.tos, ipProtoUdp, []⟩ c.netif.ipAddr c.ipId c.junk).map fun r ↦
                    (s, r.map Prod.fst)

/-- **What is asked of a call**: an error, and nothing is sent; or an IP packet with the right lengths in its two
headers, and the data behind them. -/
def Right (cfg : UdpConf) (c : UdpSend) (s : UdpState) : Prop :=
  ∃ s' r, c.udpSendtoIf cfg s = some (s', r) ∧ ∀ k, r = .ok k → ∀ behind,
    readU16 (bytesAt (pbufBytes k.pbufs) behind) (ipHlen + 4) = c.p.totLen + udpHlen ∧
    (readHdr (bytesAt (pbufBytes k.pbufs) behind)).len = c.p.totLen + udpHlen + ipHlen ∧
    (pbufBytes k.pbufs).drop (ipHlen + udpHlen) = pbufBytes c.p.pbufs

/-- The control block cannot be bound. -/
def Unbound (cfg : UdpConf) (c : UdpSend) (s : UdpState) : Prop := ∃ r, c.bindPort cfg s = some r ∧ r.1 ≠ .ok

/-- The control block has another address than the interface. -/
def Misplaced (c : UdpSend) (s : UdpState) : Prop :=
  (s.pcb c.pcb).localIp ≠ 0 ∧ (s.pcb c.pcb).localIp ≠ c.netif.ipAddr

/-- **The call returns an error**. If the header is in the first pbuf, the assertion about its length comes first. -/
def Refused (cfg : UdpConf) (c : UdpSend) (s : UdpState) : Prop :=
  c.filtered cfg = true ∨ c.Unbound cfg s ∨
    (c.p.room < udpHlen ∧ (c.mem = none ∨ c.Misplaced s)) ∨
    (udpHlen ≤ c.p.room ∧ c.p.len + udpHlen < 2 ^ 16 ∧ (c.Misplaced s ∨ c.p.room < udpHlen + ipHlen))

end UdpSend

/-! ### Headers in front of a chain -/

/-- **A chain with a header in front** of its data, of which `n` bytes are in the same pbuf. -/
structure UdpBuf.Headed (b : UdpBuf) (hdr data : List (BitVec 8)) (n : ℕ) : Prop where
  shape : ∃ pay totLen ps, b.pbufs = ⟨hdr ++ pay, totLen⟩ :: ps ∧ pay.length = n ∧ pay ++ pbufBytes ps = data
  totLen_eq : b.totLen = (hdr.length + data.length) % 2 ^ 16

namespace UdpBuf.Headed

variable {b : UdpBuf} {hdr old data : List (BitVec 8)} {n : ℕ}

theorem bytes (h : b.Headed hdr data n) : pbufBytes b.pbufs = hdr ++ data := by
  obtain ⟨pay, totLen, ps, hb, -, rfl⟩ := h.shape
  rw [hb, pbufBytes_cons, List.append_assoc]

theorem len_eq (h : b.Headed hdr data n) : b.len = (hdr.length + n) % 2 ^ 16 := by
  obtain ⟨pay, totLen, ps, hb, rfl, -⟩ := h.shape
  rw [UdpBuf.len, hb, List.head?_cons, Option.map_some, Option.getD_some, Pbuf.len, List.length_append]

theorem le (h : b.Headed hdr data n) : n ≤ data.length := by
  obtain ⟨pay, -, ps, -, rfl, rfl⟩ := h.shape
  rw [List.length_append]
  exact Nat.le_add_right _ _

/-- A header is written over what is there. -/
theorem write (h : b.Headed (old ++ hdr) data n) (hdr' : List (BitVec 8)) (hlen : hdr'.length = old.length) :
    (b.write hdr').Headed (hdr' ++ hdr) data n ∧ (b.write hdr').room = b.room ∧
      (b.write hdr').totLen = b.totLen := by
  obtain ⟨⟨pay, totLen, ps, hb, hn, hdata⟩, htot⟩ := h
  obtain ⟨pbufs, room⟩ := b
  obtain rfl : pbufs = _ := hb
  refine ⟨⟨⟨pay, totLen, ps, ?_, hn, hdata⟩, ?_⟩, rfl, rfl⟩
  · rw [UdpBuf.write, hlen, List.append_assoc, List.drop_left, List.append_assoc]
  · rw [List.length_append, hlen, ← List.length_append, ← htot]
    rfl

/-- `pbuf_header`, where there is room. -/
theorem header (h : b.Headed hdr data n) (junk : ℕ → BitVec 8) {k : ℕ} (hk : k ≤ b.room) :
    ∃ q, b.header junk k = some q ∧ q.Headed ((List.range k).map junk ++ hdr) data n ∧ q.room = b.room - k := by
  obtain ⟨⟨pay, totLen, ps, hb, hn, hdata⟩, htot⟩ := h
  obtain ⟨pbufs, room⟩ := b
  obtain rfl : pbufs = _ := hb
  refine ⟨_, if_pos hk, ⟨⟨pay, (totLen + k) % 2 ^ 16, ps, ?_, hn, hdata⟩, ?_⟩, rfl⟩
  · rw [List.append_assoc]
  · obtain rfl : totLen = (hdr.length + data.length) % 2 ^ 16 := htot
    rw [List.length_append, List.length_map, List.length_range]
    show ((hdr.length + data.length) % 2 ^ 16 + k) % 2 ^ 16 = _
    omega

theorem header_none (h : b.Headed hdr data n) (junk : ℕ → BitVec 8) {k : ℕ} (hk : b.room < k) :
    b.header junk k = none := by
  obtain ⟨⟨pay, totLen, ps, hb, -, -⟩, -⟩ := h
  obtain ⟨pbufs, room⟩ := b
  obtain rfl : pbufs = _ := hb
  exact if_neg (not_le.2 hk)

end UdpBuf.Headed

/-- The packet of a caller. -/
theorem UdpPacket.headed (p : UdpPacket) :
    p.Headed [] (pbufBytes p.pbufs) p.len ∧ p.totLen = (pbufBytes p.pbufs).length := by
  obtain ⟨⟨pbufs, room⟩, hne, htotals, hlt⟩ := p
  obtain ⟨q, qs, rfl⟩ := List.exists_cons_of_ne_nil hne
  have hlen : q.len < 2 ^ 16 := by
    rw [pbufBytes_cons, List.length_append] at hlt
    exact lt_of_le_of_lt (Nat.le_add_right _ _) hlt
  refine ⟨⟨⟨q.payload, q.totLen, qs, rfl, (Nat.mod_eq_of_lt hlen).symm, rfl⟩, ?_⟩, htotals.totLen_eq⟩
  rw [List.length_nil, Nat.zero_add, Nat.mod_eq_of_lt hlt]
  exact htotals.totLen_eq

/-! ### `ip_output_if` -/

section IpOutput

variable {b : UdpBuf} {hdr data : List (BitVec 8)} {n : ℕ} (h : b.Headed hdr data n) (a : OutParams) (netifAddr : U32)
  (ipId : BitVec 16) (junk : ℕ → BitVec 8)

include h

theorem ipOutputIf_error (hroom : b.room < ipHlen) : ipOutputIf b a netifAddr ipId junk = some (.error .buf) := by
  rw [ipOutputIf, h.header_none junk hroom]

theorem ipOutputIf_none (hroom : ipHlen ≤ b.room) (hlen : (ipHlen + hdr.length + n) % 2 ^ 16 < ipHlen) :
    ipOutputIf b a netifAddr ipId junk = none := by
  obtain ⟨q, hq, hheaded, -⟩ := h.header junk hroom
  have hqlen := hheaded.len_eq
  rw [List.length_append, List.length_map, List.length_range] at hqlen
  rw [ipOutputIf, hq]
  exact if_pos (hqlen ▸ hlen)

/-- What is passed on: the header says how long it is, modulo `2 ^ 16`. -/
theorem ipOutputIf_spec (hroom : ipHlen ≤ b.room) (hlen : ipHlen ≤ (ipHlen + hdr.length + n) % 2 ^ 16) :
    ∃ k chksum, ipOutputIf b a netifAddr ipId junk = some (.ok (k, ipId + 1)) ∧
      k.Headed (outHdr .little a (if a.src = 0 then netifAddr else a.src) ((ipHlen + hdr.length + data.length) % 2 ^ 16)
        ipId.toNat chksum ++ hdr) data n := by
  obtain ⟨q, hq, hheaded, -⟩ := h.header junk hroom
  have hqlen := hheaded.len_eq
  have hqtot := hheaded.totLen_eq
  rw [List.length_append, List.length_map, List.length_range] at hqlen hqtot
  rw [ipOutputIf, hq]
  dsimp only
  rw [if_neg (not_lt.2 (hqlen ▸ hlen)), ← hqtot]
  refine ⟨_, _, rfl, (hheaded.write _ ?_).1⟩
  rw [length_outHdr, List.length_map, List.length_range]
  rfl

end IpOutput

/-! ### The header of UDP -/

@[simp] theorem length_udpHdr (src dest len chksum : ℕ) : (udpHdr src dest len chksum).length = udpHlen := rfl

namespace UdpSend

variable {cfg : UdpConf} {c : UdpSend} {s s' : UdpState}

/-- The data of a call. -/
def data (c : UdpSend) : List (BitVec 8) := pbufBytes c.p.pbufs

/-- The header is in front of the data. -/
theorem withHeader_inPlace (c : UdpSend) (hroom : udpHlen ≤ c.p.room) : ∃ q junk, c.withHeader = some (.ok q) ∧
    junk.length = udpHlen ∧ q.Headed junk c.data c.p.len ∧ q.room = c.p.room - udpHlen := by
  obtain ⟨q, hq, hqheaded, hqroom⟩ := c.p.headed.1.header c.junk hroom
  rw [List.append_nil] at hqheaded
  refine ⟨q, (List.range udpHlen).map c.junk, by rw [withHeader, hq], ?_, hqheaded, hqroom⟩
  rw [List.length_map, List.length_range]

/-- The header is in a pbuf of its own, in front of which there is room for the header of IP. -/
theorem withHeader_own (c : UdpSend) (hroom : c.p.room < udpHlen) {mem : ℕ → BitVec 8} (hmem : c.mem = some mem) :
    ∃ q junk, c.withHeader = some (.ok q) ∧ junk.length = udpHlen ∧ q.Headed junk c.data 0 ∧ ipHlen ≤ q.room := by
  have htot : c.p.totLen = c.data.length := c.p.headed.2
  have hbig : ipHlen ≤ memAlignSize (sizeofStructPbuf + PbufLayer.ip.offset) - sizeofStructPbuf := by decide
  set junk := (List.range udpHlen).map mem with hjunk
  have hlen : junk.length = udpHlen := by rw [hjunk, List.length_map, List.length_range]
  rw [withHeader, c.p.headed.1.header_none c.junk hroom, hmem]
  dsimp only
  rcases Decidable.em (c.p.totLen ≠ 0) with hne | hzero
  · have hcat : pbufCat c.p.pbufs (headerPbuf mem).pbufs =
        some (⟨junk, (udpHlen + pbufTotLen c.p.pbufs) % 2 ^ 16⟩ :: c.p.pbufs) := if_pos hlen.symm
    rw [if_pos hne, hcat]
    refine ⟨_, junk, rfl, hlen, ⟨⟨[], (udpHlen + pbufTotLen c.p.pbufs) % 2 ^ 16, c.p.pbufs, ?_, rfl, rfl⟩, ?_⟩, hbig⟩
    · rw [List.append_nil]
    · rw [hlen, ← htot]
      rfl
  · -- there is no data, and nothing to be chained
    have hnil : c.data = [] := by
      rw [← List.length_eq_zero_iff, ← htot, not_not.1 hzero]
    rw [if_neg hzero]
    refine ⟨_, junk, rfl, hlen, ⟨⟨[], udpHlen, [], ?_, rfl, hnil.symm⟩, ?_⟩, hbig⟩
    · rw [List.append_nil]
      rfl
    · rw [hlen, hnil]
      rfl

/-- **The header finds a place**, if there is memory where it needs some. -/
theorem withHeader_spec (c : UdpSend) :
    (c.p.room < udpHlen ∧ c.mem = none → c.withHeader = some (.error .mem)) ∧
    (¬(c.p.room < udpHlen ∧ c.mem = none) → ∃ q junk, c.withHeader = some (.ok q) ∧ junk.length = udpHlen ∧
      q.Headed junk c.data (if udpHlen ≤ c.p.room then c.p.len else 0) ∧
      (if udpHlen ≤ c.p.room then q.room = c.p.room - udpHlen else ipHlen ≤ q.room)) := by
  refine ⟨fun h ↦ ?_, fun h ↦ ?_⟩
  · rw [withHeader, c.p.headed.1.header_none c.junk h.1, h.2]
  · split_ifs with hroom
    · exact c.withHeader_inPlace hroom
    · obtain ⟨mem, hmem⟩ := Option.ne_none_iff_exists'.1 fun hnone ↦ h ⟨not_le.1 hroom, hnone⟩
      exact c.withHeader_own (not_le.1 hroom) hmem

/-- What the checksum functions see of a chain with a header. -/
theorem buffers_headed {q : UdpBuf} {hdr data : List (BitVec 8)} {n : ℕ} (h : q.Headed hdr data n) (addr : ℕ → ℕ) :
    ∃ pay qs, q.buffers addr = ⟨addr 0, hdr ++ pay⟩ :: qs ∧ pay.length = n := by
  obtain ⟨pay, totLen, ps, hb, hn, -⟩ := h.shape
  rw [UdpBuf.buffers, hb, List.mapIdx_cons]
  exact ⟨pay, _, rfl, hn⟩

/-- No assertion fails on the way to the checksum. -/
theorem udpChksum_isSome {q : UdpBuf} {hdr data : List (BitVec 8)} {n : ℕ} (h : q.Headed hdr data n)
    (hhdr : hdr.length = udpHlen) (hn : udpHlen + n < 2 ^ 16) (cfg : UdpConf) (c : UdpSend) (src : U32) :
    ∃ chksum, c.udpChksum cfg q src = some chksum := by
  obtain ⟨pay, qs, hbuf, hpay⟩ := buffers_headed h c.addr
  have hne : hdr ≠ [] := by
    rintro rfl
    cases hhdr
  rw [udpChksum]
  split_ifs
  · exact ⟨0, rfl⟩
  · obtain ⟨sum, -, hsum, -⟩ := pseudoPartial_header (q := ⟨c.addr 0, hdr ++ pay⟩) cfg.alg qs src c.dstIp ipProtoUdp
      (BitVec.ofNat 16 q.totLen) rfl hne (by rw [List.length_append, hhdr, hpay]; exact hn)
    rw [hbuf, ← hhdr, hsum]
    exact ⟨_, rfl⟩
  · exact ⟨_, rfl⟩

/-- A control block that is bound keeps its address. -/
theorem bindPort_spec (cfg : UdpConf) (c : UdpSend) (hs : s.udpPcbs.Nodup) :
    ∃ r, c.bindPort cfg s = some r ∧ (r.1 = .ok → (r.2.pcb c.pcb).localIp = (s.pcb c.pcb).localIp) := by
  rw [bindPort]
  split_ifs with hport
  · have hsome : UdpState.bindCheck cfg.soReuse s c.pcb (s.pcb c.pcb).localIp (s.pcb c.pcb).localPort s.udpPcbs false ≠
        none := (bindCheck_spec hs fun h ↦ absurd h Bool.false_ne_true).1
    obtain ⟨found, hfound⟩ := Option.ne_none_iff_exists'.1 hsome
    rw [UdpState.udpBind, hfound, Option.map_some]
    refine ⟨_, rfl, fun hok ↦ ?_⟩
    rcases found with - | rebind
    · cases hok
    · dsimp only at hok ⊢
      rw [if_pos hport] at hok ⊢
      split_ifs at hok ⊢
      rw [UdpState.bound, UdpState.set, UdpState.set]
      dsimp only
      split_ifs <;> simp only [Function.update_self]
  · exact ⟨_, rfl, fun _ ↦ rfl⟩

/-- The source address is that of the interface. -/
theorem srcIp_spec (c : UdpSend) (s : UdpState) :
    (c.Misplaced s → c.srcIp s = none) ∧ (¬c.Misplaced s → c.srcIp s = some c.netif.ipAddr) := by
  rw [srcIp, Misplaced]
  split_ifs with hany hother
  · exact ⟨fun h ↦ absurd hany h.1, fun _ ↦ rfl⟩
  · exact ⟨fun _ ↦ rfl, fun h ↦ absurd ⟨hany, hother⟩ h⟩
  · exact ⟨fun h ↦ absurd h.2 hother, fun _ ↦ congrArg some (not_not.1 hother)⟩

/-- This is stored as the checksum, which was zero when the sum was made. -/
def Stores (cfg : UdpConf) (c : UdpSend) (src chksum n : ℕ) : Prop :=
  udpHlen + n < 2 ^ 16 ∧ ∃ q : UdpBuf, q.Headed (udpHdr src c.dstPort ((udpHlen + c.data.length) % 2 ^ 16) 0) c.data n ∧
    c.udpChksum cfg q c.netif.ipAddr = some chksum

/-- **An assertion fails**: the length of the first pbuf does not fit any more. -/
def Overflows (c : UdpSend) : Prop := udpHlen ≤ c.p.room ∧ 2 ^ 16 ≤ c.p.len + udpHlen + ipHlen

/-- The header of IP that is sent with a datagram. -/
def ipHdr (c : UdpSend) (chksum : ℕ) : List (BitVec 8) :=
  outHdr .little ⟨c.netif.ipAddr, c.dstIp, c.ttl, c.tos, ipProtoUdp, []⟩ c.netif.ipAddr
    ((ipHlen + udpHlen + c.data.length) % 2 ^ 16) c.ipId.toNat chksum

@[simp] theorem length_ipHdr (c : UdpSend) (chksum : ℕ) : (c.ipHdr chksum).length = ipHlen := length_outHdr ..

section Headed

variable {q : UdpBuf} {junk : List (BitVec 8)} {n : ℕ} (hfilter : ¬c.filtered cfg = true)
  (hbind : c.bindPort cfg s = some (.ok, s')) (hwith : c.withHeader = some (.ok q)) (hq : q.Headed junk c.data n)
  (hjunk : junk.length = udpHlen)

include hfilter hbind hwith hq hjunk

/-- **The call once there is a place for the header**, with the assertion about its pbuf. -/
theorem udpSendtoIf_headed (hn : n < 2 ^ 16) :
    (2 ^ 16 ≤ udpHlen + n → c.udpSendtoIf cfg s = none) ∧
    (udpHlen + n < 2 ^ 16 → c.Misplaced s' → c.udpSendtoIf cfg s = some (s', .error .val)) ∧
    (udpHlen + n < 2 ^ 16 → ¬c.Misplaced s' → ∃ r chksum, c.Stores cfg (s'.pcb c.pcb).localPort chksum n ∧
      r.Headed (udpHdr (s'.pcb c.pcb).localPort c.dstPort ((udpHlen + c.data.length) % 2 ^ 16) chksum) c.data n ∧
      r.room = q.room ∧
      c.udpSendtoIf cfg s = (ipOutputIf r ⟨c.netif.ipAddr, c.dstIp, c.ttl, c.tos, ipProtoUdp, []⟩ c.netif.ipAddr c.ipId
        c.junk).map fun r ↦ (s', r.map Prod.fst)) := by
  have hlen : q.len = (udpHlen + n) % 2 ^ 16 := hjunk ▸ hq.len_eq
  have htot : q.totLen = (udpHlen + c.data.length) % 2 ^ 16 := hjunk ▸ hq.totLen_eq
  have h8 : udpHlen = 8 := rfl
  obtain ⟨hmisplaced, hplaced⟩ := c.srcIp_spec s'
  rw [udpSendtoIf, if_neg hfilter, hbind, Option.bind_some]
  dsimp only
  rw [if_neg (not_not.2 rfl), hwith, Option.bind_some]
  dsimp only
  refine ⟨fun hbig ↦ if_pos (by omega), fun hsmall hmis ↦ ?_, fun hsmall hmis ↦ ?_⟩
  · rw [if_neg (by omega), hmisplaced hmis]
  · rw [if_neg (by omega), hplaced hmis]
    dsimp only
    rw [← List.append_nil junk] at hq
    obtain ⟨hzero, hroom, htotLen⟩ := hq.write (udpHdr (s'.pcb c.pcb).localPort c.dstPort q.totLen 0) hjunk.symm
    have hfield := hzero
    rw [List.append_nil] at hfield
    obtain ⟨chksum, hchksum⟩ := udpChksum_isSome hfield (length_udpHdr ..) hsmall cfg c c.netif.ipAddr
    have hstores : c.Stores cfg (s'.pcb c.pcb).localPort chksum n := ⟨hsmall, _, htot ▸ hfield, hchksum⟩
    rw [hchksum, Option.bind_some, htotLen, htot]
    obtain ⟨hr, hroom', -⟩ := hzero.write (udpHdr (s'.pcb c.pcb).localPort c.dstPort q.totLen chksum) rfl
    rw [List.append_nil, htot] at hr
    rw [htot] at hroom' hroom
    exact ⟨_, chksum, hstores, hr, hroom'.trans hroom, rfl⟩

/-- What becomes of it in `ip_output_if`. -/
theorem udpSendtoIf_cases (hn : n < 2 ^ 16) :
    (udpHlen + n < 2 ^ 16 → c.Misplaced s' ∨ q.room < ipHlen → ∃ e, c.udpSendtoIf cfg s = some (s', .error e)) ∧
    (2 ^ 16 ≤ udpHlen + n ∨ (¬c.Misplaced s' ∧ ipHlen ≤ q.room) ∧ 2 ^ 16 ≤ ipHlen + udpHlen + n →
      c.udpSendtoIf cfg s = none) ∧
    (¬c.Misplaced s' → ipHlen ≤ q.room → ipHlen + udpHlen + n < 2 ^ 16 → ∃ k ipChksum chksum,
      c.udpSendtoIf cfg s = some (s', .ok k) ∧ c.Stores cfg (s'.pcb c.pcb).localPort chksum n ∧
      k.Headed (c.ipHdr ipChksum ++
        udpHdr (s'.pcb c.pcb).localPort c.dstPort ((udpHlen + c.data.length) % 2 ^ 16) chksum) c.data n) := by
  obtain ⟨hassert, hmisplaced, hsend⟩ := udpSendtoIf_headed hfilter hbind hwith hq hjunk hn
  have h8 : udpHlen = 8 := rfl
  have h20 : ipHlen = 20 := rfl
  refine ⟨fun hsmall hwhy ↦ ?_, fun hwhy ↦ ?_, fun hplaced hroom hsmall ↦ ?_⟩
  · rcases Classical.em (c.Misplaced s') with hmis | hmis
    · exact ⟨.val, hmisplaced hsmall hmis⟩
    · obtain ⟨r, chksum, -, hr, hroom, hcall⟩ := hsend hsmall hmis
      rw [hcall, ipOutputIf_error hr _ _ _ _ (hroom ▸ hwhy.resolve_left hmis)]
      exact ⟨.buf, rfl⟩
  · rcases lt_or_ge (udpHlen + n) (2 ^ 16) with hsmall | hbig
    · obtain ⟨⟨hplaced, hroom'⟩, hbig⟩ := hwhy.resolve_left (not_le.2 hsmall)
      obtain ⟨r, chksum, -, hr, hroom, hcall⟩ := hsend hsmall hplaced
      rw [hcall, ipOutputIf_none hr _ _ _ _ (hroom ▸ hroom') (by rw [length_udpHdr]; omega), Option.map_none]
    · exact hassert hbig
  · obtain ⟨r, chksum, hstores, hr, hroom', hcall⟩ := hsend (by omega) hplaced
    obtain ⟨k, ipChksum, hk, hheaded⟩ := ipOutputIf_spec hr ⟨c.netif.ipAddr, c.dstIp, c.ttl, c.tos, ipProtoUdp, []⟩
      c.netif.ipAddr c.ipId c.junk (hroom' ▸ hroom) (by rw [length_udpHdr]; omega)
    rw [ite_self] at hheaded
    rw [hcall, hk]
    exact ⟨k, ipChksum, chksum, rfl, hstores, hheaded⟩

end Headed

/-- **What a call comes to.** -/
theorem udpSendtoIf_spec (cfg : UdpConf) (c : UdpSend) (hs : s.udpPcbs.Nodup) :
    (c.Refused cfg s → ∃ s' e, c.udpSendtoIf cfg s = some (s', .error e)) ∧
    (¬c.Refused cfg s → c.Overflows → c.udpSendtoIf cfg s = none) ∧
    (¬c.Refused cfg s → ¬c.Overflows → ∃ s' k ipChksum chksum n, c.udpSendtoIf cfg s = some (s', .ok k) ∧
      c.Stores cfg (s'.pcb c.pcb).localPort chksum n ∧ k.Headed (c.ipHdr ipChksum ++
        udpHdr (s'.pcb c.pcb).localPort c.dstPort ((udpHlen + c.data.length) % 2 ^ 16) chksum) c.data n) := by
  rcases Decidable.em (c.filtered cfg = true) with hfilter | hfilter
  · exact ⟨fun _ ↦ ⟨s, .val, if_pos hfilter⟩, fun h ↦ absurd (.inl hfilter) h, fun h ↦ absurd (.inl hfilter) h⟩
  obtain ⟨⟨e, s'⟩, hbind, hkeep⟩ := bindPort_spec cfg c hs
  rcases Decidable.em (e = .ok) with rfl | hne
  swap
  · have hunbound : c.Unbound cfg s := ⟨_, hbind, hne⟩
    refine ⟨fun _ ↦ ⟨s', e, ?_⟩, fun h ↦ absurd (.inr (.inl hunbound)) h, fun h ↦ absurd (.inr (.inl hunbound)) h⟩
    rw [udpSendtoIf, if_neg hfilter, hbind, Option.bind_some]
    exact if_pos hne
  have hbound : ¬c.Unbound cfg s := by
    rintro ⟨r, hr, hne⟩
    rw [hbind, Option.some.injEq] at hr
    exact hne (hr ▸ rfl)
  have hmisplaced : c.Misplaced s' ↔ c.Misplaced s := by
    rw [Misplaced, Misplaced, hkeep rfl]
  obtain ⟨hnomem, hplace⟩ := c.withHeader_spec
  rcases Decidable.em (c.p.room < udpHlen ∧ c.mem = none) with hmem | hmem
  · have hrefused : c.Refused cfg s := .inr (.inr (.inl ⟨hmem.1, .inl hmem.2⟩))
    refine ⟨fun _ ↦ ⟨s', .mem, ?_⟩, fun h ↦ absurd hrefused h, fun h ↦ absurd hrefused h⟩
    rw [udpSendtoIf, if_neg hfilter, hbind, Option.bind_some]
    dsimp only
    rw [if_neg (not_not.2 rfl), hnomem hmem, Option.bind_some]
  obtain ⟨q, junk, hwith, hjunk, hq, hroom⟩ := hplace hmem
  have h8 : udpHlen = 8 := rfl
  have h20 : ipHlen = 20 := rfl
  have hlen : c.p.len < 2 ^ 16 := Nat.mod_lt _ (by decide)
  have hrefused : c.Refused cfg s ↔ (c.p.room < udpHlen ∧ c.Misplaced s') ∨
      (udpHlen ≤ c.p.room ∧ c.p.len + udpHlen < 2 ^ 16 ∧ (c.Misplaced s' ∨ c.p.room < udpHlen + ipHlen)) := by
    rw [Refused, hmisplaced, or_iff_right hfilter, or_iff_right hbound]
    exact or_congr_left (and_congr_right fun hlt ↦ or_iff_right fun hnone ↦ hmem ⟨hlt, hnone⟩)
  rw [hrefused, Overflows]
  rcases lt_or_ge c.p.room udpHlen with hsmall | hbig
  · rw [if_neg (not_le.2 hsmall)] at hq hroom
    obtain ⟨herror, -, hok⟩ := udpSendtoIf_cases hfilter hbind hwith hq hjunk (by decide)
    refine ⟨fun h ↦ ?_, fun _ h ↦ absurd h.1 (not_le.2 hsmall), fun h _ ↦ ?_⟩
    · exact ⟨s', herror (by decide) (.inl (h.elim And.right fun h ↦ absurd h.1 (not_le.2 hsmall)))⟩
    · obtain ⟨k, ipChksum, chksum, hcall, hk⟩ := hok (fun hmis ↦ h (.inl ⟨hsmall, hmis⟩)) hroom (by decide)
      exact ⟨s', k, ipChksum, chksum, 0, hcall, hk⟩
  · rw [if_pos hbig] at hq hroom
    obtain ⟨herror, hassert, hok⟩ := udpSendtoIf_cases hfilter hbind hwith hq hjunk hlen
    refine ⟨fun h ↦ ?_, fun h hover ↦ hassert ?_, fun h hover ↦ ?_⟩
    · obtain ⟨-, hlt, hwhy⟩ := h.resolve_left fun h ↦ absurd h.1 (not_lt.2 hbig)
      exact ⟨s', herror (by omega) (hwhy.imp_right fun h ↦ by omega)⟩
    · rcases lt_or_ge (udpHlen + c.p.len) (2 ^ 16) with hlt | hge
      · have hfine : ¬c.Misplaced s' ∧ ¬c.p.room < udpHlen + ipHlen :=
          not_or.1 fun hwhy ↦ h (.inr ⟨hbig, by omega, hwhy⟩)
        exact .inr ⟨⟨hfine.1, by omega⟩, by omega⟩
      · exact .inl hge
    · have hfit : c.p.len + udpHlen + ipHlen < 2 ^ 16 := not_le.1 fun hle ↦ hover ⟨hbig, hle⟩
      have hfine : ¬c.Misplaced s' ∧ ¬c.p.room < udpHlen + ipHlen :=
        not_or.1 fun hwhy ↦ h (.inr ⟨hbig, by omega, hwhy⟩)
      obtain ⟨k, ipChksum, chksum, hcall, hk⟩ := hok hfine.1 (by omega) (by omega)
      exact ⟨s', k, ipChksum, chksum, _, hcall, hk⟩

/-! ### The lengths in the headers -/

/-- A field behind a header. -/
theorem readU16_append (pre bs : List (BitVec 8)) (behind : ℕ → BitVec 8) (i : ℕ) :
    readU16 (bytesAt (pre ++ bs) behind) (pre.length + i) =
      readU16 (bytesAt bs fun j ↦ behind (pre.length + j)) i := by
  have hat : ∀ j, bytesAt (pre ++ bs) behind (pre.length + j) =
      bytesAt bs (fun j ↦ behind (pre.length + j)) j := fun j ↦ by
    rw [bytesAt, List.getElem?_append_right (Nat.le_add_right _ _), Nat.add_sub_cancel_left, bytesAt]
  rw [readU16, readU16, hat, Nat.add_assoc, hat]

theorem readU16_netU16 {n : ℕ} (hn : n < 2 ^ 16) (pre bs : List (BitVec 8)) (behind : ℕ → BitVec 8) :
    readU16 (bytesAt (pre ++ (netU16 n ++ bs)) behind) pre.length = n := by
  rw [← Nat.add_zero pre.length, readU16_append]
  show (BitVec.ofNat 8 (n / 2 ^ 8)).toNat * 2 ^ 8 + (BitVec.ofNat 8 n).toNat = n
  rw [BitVec.toNat_ofNat, BitVec.toNat_ofNat]
  omega

/-- **What the headers say**, and what is behind them. -/
theorem headers_read {k : UdpBuf} {ipChksum src len chksum n : ℕ} (hlen : len < 2 ^ 16)
    (hk : k.Headed (c.ipHdr ipChksum ++ udpHdr src c.dstPort len chksum) c.data n) (behind : ℕ → BitVec 8) :
    readU16 (bytesAt (pbufBytes k.pbufs) behind) (ipHlen + 4) = len ∧
      (readHdr (bytesAt (pbufBytes k.pbufs) behind)).len = (ipHlen + udpHlen + c.data.length) % 2 ^ 16 ∧
      (pbufBytes k.pbufs).drop (ipHlen + udpHlen) = c.data := by
  rw [hk.bytes]
  refine ⟨?_, ?_, ?_⟩
  · have hread := readU16_netU16 hlen (c.ipHdr ipChksum ++ (netU16 src ++ netU16 c.dstPort)) (storeU16 chksum ++ c.data)
      behind
    rw [List.length_append, length_ipHdr] at hread
    rw [udpHdr]
    simp only [List.append_assoc] at hread ⊢
    exact hread
  · rw [List.append_assoc, ipHdr]
    exact (readHdr_outHdr .little (by exact Nat.zero_le 40) _ (Nat.mod_lt _ (by decide)) _ _ _ behind).2.2
  · refine List.drop_left' ?_
    rw [List.length_append, length_ipHdr, length_udpHdr]

/-- **The lengths are right**, for every chain and every control block, if and only if the call returns an error or the
packet is not longer than its header can say. -/
theorem udpSendto_right_iff (cfg : UdpConf) (c : UdpSend) (s : UdpState) (hs : s.udpPcbs.Nodup) :
    c.Right cfg s ↔ c.Refused cfg s ∨ c.p.totLen + udpHlen + ipHlen < 2 ^ 16 := by
  obtain ⟨hrefused, hassert, hsent⟩ := udpSendtoIf_spec cfg c hs
  obtain ⟨hheaded, htot⟩ := c.p.headed
  have hdata : c.p.totLen = c.data.length := htot
  have hle : c.p.len ≤ c.data.length := hheaded.le
  have h8 : udpHlen = 8 := rfl
  have h20 : ipHlen = 20 := rfl
  constructor
  · rintro ⟨s', r, hcall, hright⟩
    refine or_iff_not_imp_left.2 fun hnot ↦ ?_
    rcases Classical.em c.Overflows with hover | hover
    · rw [hassert hnot hover] at hcall
      cases hcall
    · obtain ⟨t, k, ipChksum, chksum, n, hcall', -, hk⟩ := hsent hnot hover
      rw [hcall', Option.some.injEq, Prod.mk.injEq] at hcall
      obtain ⟨-, hlen, -⟩ := hright k hcall.2.symm 0
      obtain ⟨-, hread, -⟩ := headers_read (Nat.mod_lt _ (by decide)) hk 0
      rw [hread] at hlen
      omega
  · intro hwhy
    rcases Classical.em (c.Refused cfg s) with hyes | hnot
    · obtain ⟨s', e, hcall⟩ := hrefused hyes
      exact ⟨s', _, hcall, nofun⟩
    · have hfit := hwhy.resolve_left hnot
      obtain ⟨s', k, ipChksum, chksum, n, hcall, -, hk⟩ := hsent hnot fun hover ↦ by
        have := hover.2
        omega
      refine ⟨s', _, hcall, fun k' hk' behind ↦ ?_⟩
      cases hk'
      obtain ⟨hudp, hip, hbytes⟩ := headers_read (Nat.mod_lt _ (by decide)) hk behind
      exact ⟨by omega, by omega, hbytes⟩

/-- A control block with the port 68, and no other. -/
def oneBound : UdpState := ⟨udpLocalPortRangeStart, [0], fun _ ↦ ⟨0, 68, 0, 0, true, false⟩, [0]⟩

/-- So many bytes of a caller, in a `PBUF_REF`. -/
def refPacket (n : ℕ) (hn : n < 2 ^ 16) : UdpPacket where
  pbufs := [⟨List.replicate n 0, n⟩]
  room := 0
  ne_nil := List.cons_ne_nil _ _
  totals := ⟨by rw [pbufBytes_cons, List.length_append, List.length_replicate]; rfl, trivial⟩
  lt := by
    rw [pbufBytes_cons, List.length_append, List.length_replicate]
    exact hn

/-- It is sent from 10.0.0.1 to 10.0.0.2, and there is memory for a header. -/
def refSend (nochksum : Bool) (p : UdpPacket) : UdpSend :=
  ⟨0, true, nochksum, 255, 0, p, 0x0200000a, 67, ⟨0, 0x0100000a, 0x000000ff, 0, true⟩, false, 0, some 0, 0,
    fun _ ↦ 0, 0⟩

theorem udpSendto_right_iff_three :
    (refSend false (refPacket 3 (by decide))).Right ⟨false, true, .two⟩ oneBound ↔
      (refSend false (refPacket 3 (by decide))).Refused ⟨false, true, .two⟩ oneBound ∨ 3 + udpHlen + ipHlen < 2 ^ 16 :=
  udpSendto_right_iff ⟨false, true, .two⟩ (refSend false (refPacket 3 (by decide))) oneBound (by decide)

/-- Such a call goes through. -/
theorem refSend_spec (nochksum : Bool) {p : UdpPacket} (hp : p.room = 0) :
    ∃ s' k ipChksum src chksum n, (refSend nochksum p).udpSendtoIf ⟨false, true, .two⟩ oneBound = some (s', .ok k) ∧
      k.Headed ((refSend nochksum p).ipHdr ipChksum ++
        udpHdr src 67 ((udpHlen + (refSend nochksum p).data.length) % 2 ^ 16) chksum) (refSend nochksum p).data n := by
  have hroom : ¬udpHlen ≤ p.room := by
    rw [hp]
    decide
  have hbind : bindPort ⟨false, true, .two⟩ (refSend nochksum p) oneBound = some (.ok, oneBound) := rfl
  have hnot : ¬(refSend nochksum p).Refused ⟨false, true, .two⟩ oneBound := by
    rintro (hfilter | ⟨r, hr, hne⟩ | ⟨-, hmem | hmis⟩ | ⟨hle, -⟩)
    · exact Bool.false_ne_true hfilter
    · rw [hbind, Option.some.injEq] at hr
      exact hne (hr ▸ rfl)
    · cases hmem
    · exact hmis.1 rfl
    · exact hroom hle
  obtain ⟨-, -, hsent⟩ := udpSendtoIf_spec (s := oneBound) ⟨false, true, .two⟩ (refSend nochksum p) (by decide)
  obtain ⟨s', k, ipChksum, chksum, n, hcall, -, hk⟩ := hsent hnot fun hover ↦ hroom hover.1
  exact ⟨s', k, ipChksum, _, chksum, n, hcall, hk⟩

/-- **65535 bytes are sent**, and the headers say that there are seven and twenty-seven. -/
theorem udpSendto_wraps : ∃ c : UdpSend, c.p.totLen = 65535 ∧ ¬c.Right ⟨false, true, .two⟩ oneBound ∧
    ∃ s' k, c.udpSendtoIf ⟨false, true, .two⟩ oneBound = some (s', .ok k) ∧
      (pbufBytes k.pbufs).drop (ipHlen + udpHlen) = pbufBytes c.p.pbufs ∧
      ∀ behind, readU16 (bytesAt (pbufBytes k.pbufs) behind) (ipHlen + 4) = 7 ∧
        (readHdr (bytesAt (pbufBytes k.pbufs) behind)).len = 27 := by
  set p := refPacket 65535 (by decide) with hp
  have hlen : (refSend false p).data.length = 65535 := by
    rw [data, ← (refSend false p).p.headed.2]
    rfl
  obtain ⟨s', k, ipChksum, src, chksum, n, hcall, hk⟩ := refSend_spec false (show p.room = 0 from rfl)
  have hread := fun behind ↦ headers_read (Nat.mod_lt _ (by decide)) hk behind
  rw [hlen] at hread
  refine ⟨refSend false p, rfl, ?_, s', k, hcall, (hread 0).2.2, fun behind ↦ ⟨(hread behind).1, (hread behind).2.1⟩⟩
  rintro ⟨t, r, hcall', hright⟩
  rw [hcall, Option.some.injEq, Prod.mk.injEq] at hcall'
  obtain ⟨hudp, -⟩ := hright k hcall'.2.symm 0
  rw [(hread 0).1] at hudp
  exact absurd hudp (by decide : ¬7 = 65535 + udpHlen)

end UdpSend

end Lwip.Udp
