import LwipPoc.Tcp.TxLayout

/-!
# Sending segments

`tcp_output_segment` of `core/tcp_out.c` and what moves segments from queue to queue, on segments in memory. A segment
that was sent comes back with the headers of the lower layers in front; when it is sent again its payload is set back to
the TCP header first. So **a segment is well laid out before and after**, whatever is in front of it, and what is handed
to `ip_output` starts at the TCP header (`tcpOutputSegment_spec`).

The header of a segment is in `tcphdr`, and in the bytes of its first pbuf from the first attempt to send it on.
-/

namespace Lwip.Tcp.Tx

open Lwip.Core (PbufLayer PbufType sizeofStructPbuf memcpyAt length_memcpyAt)
open Lwip.Ipv4 (Buffer chainBytes netU16 storeU16 inetChksumPseudo inetChksumPseudoPartial memSum pseudoHeader)
open Lwip.Ipv4.IpHdr (foldU32 swap16)

/-! ### Headers -/

/-- What `tcp_output_segment` reads of the control block and of the rest of the stack, and what the lower layers put in
front of the segment. -/
structure OutCall where
  rcvNxt : SeqNum
  rcvAnnWnd : ℕ
  /-- What `tcp_eff_send_mss` returns. -/
  effSendMss : ℕ
  /-- `sys_now`. -/
  now : U32
  tsRecent : U32
  /-- The local address, or the one of the interface that the route leads to, if there is one. -/
  localIp : Option (BitVec 32)
  remoteIp : BitVec 32
  front : List Byte
  deriving DecidableEq, Repr

/-- `TCP_BUILD_MSS_OPTION`. -/
def tcpBuildMssOption (mss : ℕ) : List Byte := [2, 4] ++ netU16 mss

/-- `tcp_build_timestamp_option`. -/
def tcpBuildTimestampOption (now tsRecent : U32) : List Byte := [1, 1, 8, 10] ++ netU32 now ++ netU32 tsRecent

/-- The options of a segment. -/
def OutCall.options (o : OutCall) (seg : TxSeg) : List Byte :=
  (if seg.optsMss = true then tcpBuildMssOption o.effSendMss else []) ++
    if seg.optsTs = true then tcpBuildTimestampOption o.now o.tsRecent else []

/-- Writing into the first pbuf. -/
def writeFirst (i : ℕ) (data : List Byte) : List TxPbuf → Option (List TxPbuf)
  | [] => none
  | p :: ps => (p.copyIn i data).map (· :: ps)

/-- `len` of `tcp_output_segment`: how far the header is behind the payload. -/
def frontLen (hdrAt : ℕ) (p : List TxPbuf) : ℕ := toU16 (hdrAt + 2 ^ 32 - (p.head?.map TxPbuf.payload).getD 0)

/-- The payload is set back to the header. -/
def backToHeader (hdrAt : ℕ) : List TxPbuf → Option (List TxPbuf)
  | [] => none
  | p :: ps =>
    let len := frontLen hdrAt (p :: ps)
    if len ≤ p.bytes.length then
      some ({ p with
        payload := hdrAt
        bytes := p.bytes.drop len
        totLen := toU16 (p.totLen + 2 ^ 16 - len) } :: ps)
    else none

/-- What the lower layers put in front, if there is room. -/
def putFront (front : List Byte) (p : List TxPbuf) : List TxPbuf :=
  ((pbufHeader front.length p).bind (writeFirst 0 front)).getD p

/-! ### `tcp_output_segment` -/

/-- `IP_PROTO_TCP`. -/
def ipProtoTcp : BitVec 8 := 6

/-- A chain for the checksum functions. -/
def txBuffers (p : List TxPbuf) : List Buffer := p.map fun q ↦ ⟨q.payload, q.bytes⟩

/-- What is handed to `ip_output`. -/
structure TxPacket where
  p : List TxPbuf
  src : BitVec 32
  dest : BitVec 32
  deriving DecidableEq, Repr

/-- The checksum of the whole segment is right. -/
def TxPacket.Verifies (alg : Ipv4.ChksumAlgorithm) (k : TxPacket) : Prop :=
  inetChksumPseudo alg (txBuffers k.p) k.src k.dest ipProtoTcp (BitVec.ofNat 16 (txTotLen k.p)) = 0

instance (alg : Ipv4.ChksumAlgorithm) (k : TxPacket) : Decidable (k.Verifies alg) :=
  inferInstanceAs (Decidable (_ = _))

variable (cfg : TxConf)

/-- `tcphdr->chksum`, and what becomes of the sum of the data. Without `TCP_CHECKSUM_ON_COPY` all is summed. -/
def outputChksum (seg : TxSeg) (src dest : BitVec 32) (p : List TxPbuf) : Option (ℕ × ℕ × Bool) :=
  if cfg.checksumOnCopy = true then
    if seg.dataChecksummed = false ∧ txTotLen p ≠ seg.tcphdr.hdrlen * 4 then none
    else
      (inetChksumPseudoPartial cfg.alg (txBuffers p) src dest ipProtoTcp (BitVec.ofNat 16 (txTotLen p))
        (BitVec.ofNat 16 (seg.tcphdr.hdrlen * 4))).map fun acc ↦
          let chksum := if seg.chksumSwapped = true then swap16 seg.chksum else seg.chksum
          (toU16 (foldU32 (acc + (2 ^ 16 - 1 - chksum))), chksum, false)
  else
    some (inetChksumPseudo cfg.alg (txBuffers p) src dest ipProtoTcp (BitVec.ofNat 16 (txTotLen p)), seg.chksum,
      seg.chksumSwapped)

/-- `tcp_output_segment`: nothing is sent without a local address and a route. -/
def tcpOutputSegment (o : OutCall) (seg : TxSeg) : Option (TxSeg × Option TxPacket) :=
  let hdr := { seg.tcphdr with ackno := o.rcvNxt, wnd := o.rcvAnnWnd }
  (writeFirst (frontLen seg.hdrAt seg.p) (hdr.bytes ++ o.options seg) seg.p).bind fun p ↦
    match o.localIp with
    | none => some ({ seg with p := p, tcphdr := hdr }, none)
    | some src =>
      (backToHeader seg.hdrAt p).bind fun p ↦
        (writeFirst 0 { hdr with chksum := 0 }.bytes p).bind fun p ↦
          (outputChksum cfg seg src o.remoteIp p).bind fun r ↦
            let hdr := { hdr with chksum := r.1 }
            (writeFirst 0 hdr.bytes p).map fun p ↦
              ({ seg with
                p := putFront o.front p
                chksum := r.2.1
                chksumSwapped := r.2.2
                tcphdr := hdr }, some ⟨p, src, o.remoteIp⟩)

/-! ### The queues -/

/-- `TCP_TCPLEN`. -/
def TxSeg.tcpLen (seg : TxSeg) : ℕ := seg.len + if seg.tcphdr.flags &&& (tcpFin ||| tcpSyn) ≠ 0 then 1 else 0

/-- Put a segment into a queue, in front of the first one that is not before it. -/
def insertSorted (seg : TxSeg) (q : List TxSeg) : List TxSeg :=
  q.takeWhile (fun x ↦ SeqLt x.tcphdr.seqno seg.tcphdr.seqno) ++ seg ::
    q.dropWhile (fun x ↦ SeqLt x.tcphdr.seqno seg.tcphdr.seqno)

/-- Put a segment that was sent on the unacked queue. -/
def insertUnacked (seg : TxSeg) (q : List TxSeg) : List TxSeg :=
  match q.getLast? with
  | none => [seg]
  | some useg => if SeqLt seg.tcphdr.seqno useg.tcphdr.seqno then insertSorted seg q else q ++ [seg]

/-- One round of the loop in `tcp_output`: the first segment on `unsent` is sent. -/
def outputOne (s : TxPcb) (o : OutCall) (m : Pools) : Option (TxPcb × Pools × Option TxPacket) :=
  match s.unsent with
  | [] => none
  | seg :: rest =>
    let s := { s with unsent := rest, unsentOversize := if rest = [] then 0 else s.unsentOversize }
    (tcpOutputSegment cfg o (if s.state ≠ .synSent then seg.setFlag tcpAck else seg)).bind fun r ↦
      if 0 < r.1.tcpLen then some ({ s with unacked := insertUnacked r.1 s.unacked }, m, r.2)
      else (tcpSegFree r.1 m).map (s, ·, r.2)

/-- `tcp_rexmit_rto`, but for the call of `tcp_output`. -/
def tcpRexmitRto (s : TxPcb) : TxPcb := { s with unsent := s.unacked ++ s.unsent, unacked := [] }

/-- `tcp_rexmit`. -/
def tcpRexmit (s : TxPcb) : TxPcb :=
  match s.unacked with
  | [] => s
  | seg :: rest =>
    { s with
      unacked := rest
      unsent := insertSorted seg s.unsent
      unsentOversize :=
        if s.unsent.dropWhile (fun x ↦ SeqLt x.tcphdr.seqno seg.tcphdr.seqno) = [] then 0 else s.unsentOversize }

/-- The first segment on `unacked` is acknowledged. -/
def ackUnacked (s : TxPcb) (m : Pools) : Option (TxPcb × Pools) :=
  match s.unacked with
  | [] => none
  | seg :: rest =>
    if txClen seg.p ≤ s.sndQueuelen then
      (tcpSegFree seg m).map fun m ↦ ({ s with unacked := rest, sndQueuelen := s.sndQueuelen - txClen seg.p }, m)
    else none

/-- The first segment on `unsent` is acknowledged. -/
def ackUnsent (s : TxPcb) (m : Pools) : Option (TxPcb × Pools) :=
  match s.unsent with
  | [] => none
  | seg :: rest =>
    if txClen seg.p ≤ s.sndQueuelen then
      (tcpSegFree seg m).map fun m ↦ ({ s with
        unsent := rest
        unsentOversize := if rest = [] then 0 else s.unsentOversize
        sndQueuelen := s.sndQueuelen - txClen seg.p }, m)
    else none

variable (mem : ℕ → Option ℕ)

/-- `tcp_enqueue_flags`, with a `SYN` or a `FIN`. -/
def tcpEnqueueFlags (s : TxPcb) (flags : BitVec 6) (m : Pools) : Option (Err × TxPcb × Pools) :=
  let optsMss := decide (flags &&& tcpSyn ≠ 0)
  if flags &&& (tcpSyn ||| tcpFin) = 0 then none
  else if tcpSndQueuelen ≤ s.sndQueuelen ∨ tcpSndQueuelenOverflow < s.sndQueuelen then
    some (.mem, { s with nagleMemErr := true }, m)
  else if s.sndBuf = 0 then some (.mem, s, m)
  else
    match pbufAlloc mem m .transport (optLength optsMss (s.optsTs cfg)) .ram with
    | (none, m) => some (.mem, { s with nagleMemErr := true }, m)
    | (some p, m) =>
      (tcpCreateSegment mem m s [p] flags s.sndLbb optsMss (s.optsTs cfg)).bind fun r ↦
        match r with
        | (none, m) => some (.mem, { s with nagleMemErr := true }, m)
        | (some seg, m) =>
          if seg.len = 0 then
            some (.ok, { s with
              unsent := s.unsent ++ [seg]
              unsentOversize := 0
              sndLbb := s.sndLbb + 1
              sndBuf := s.sndBuf - 1
              sndQueuelen := toU16 (s.sndQueuelen + txClen seg.p) }, m)
          else none

/-- `tcp_send_fin`. -/
def tcpSendFin (s : TxPcb) (m : Pools) : Option (Err × TxPcb × Pools) :=
  match s.unsent.getLast? with
  | some last =>
    if last.tcphdr.flags &&& (tcpSyn ||| tcpFin ||| 0x04) = 0 then
      some (.ok, { s with unsent := mapLast (TxSeg.setFlag tcpFin) s.unsent }, m)
    else tcpEnqueueFlags cfg mem s tcpFin m
  | none => tcpEnqueueFlags cfg mem s tcpFin m

/-! ### Writing to the first pbuf -/

variable {cfg mem} {p : List TxPbuf} {seg : TxSeg} {front hdr hdr' more data : List Byte} {hdrAt : ℕ}

/-- **A chain with a header**: what is in front of it, the header and some of the data are in the first pbuf. -/
structure Headed (p : List TxPbuf) (hdrAt : ℕ) (front hdr data : List Byte) : Prop where
  first : ∃ b bs rest, p = b :: bs ∧ b.bytes = front ++ (hdr ++ rest) ∧ data = rest ++ txBytes bs ∧ b.Inside ∧
    hdrAt = b.payload + front.length
  totals : TxTotals p
  small : ∀ q ∈ p, q.Small

theorem TxSeg.Laid.headed (h : seg.Laid front hdr data) : Headed seg.p seg.hdrAt front hdr data := by
  obtain ⟨b, bs, hp, hinside, hle, hat⟩ := h.first
  have hbytes := h.bytes
  rw [hp, txBytes_cons, ← List.append_assoc front] at hbytes
  obtain ⟨rest, hrest⟩ : front ++ hdr <+: b.bytes :=
    List.prefix_of_prefix_length_le ⟨data, hbytes.symm⟩ ⟨txBytes bs, rfl⟩ (by rw [List.length_append]; exact hle)
  refine ⟨⟨b, bs, rest, hp, by rw [← hrest, List.append_assoc], ?_, hinside, hat⟩, h.totals, h.small⟩
  rw [← hrest, List.append_assoc (front ++ hdr)] at hbytes
  exact (List.append_cancel_left hbytes).symm

theorem Headed.laid (h : Headed seg.p seg.hdrAt front hdr data) (hhdr : hdr.length = tcpHlen + seg.optLen)
    (hlen : seg.len = toU16 data.length) (hhdrlen : seg.tcphdr.hdrlen = 5 + seg.optLen / 4) :
    seg.Laid front hdr data := by
  obtain ⟨b, bs, rest, hp, hbytes, hdata, hinside, hat⟩ := h.first
  refine ⟨?_, hhdr, ⟨b, bs, hp, hinside, ?_, hat⟩, hlen, h.totals, h.small, hhdrlen⟩
  · rw [hp, txBytes_cons, hbytes, hdata, List.append_assoc, List.append_assoc]
  · rw [hbytes, List.length_append, List.length_append]
    omega

/-- A first pbuf with other bytes, of the same number. -/
theorem Headed.rewrite (h : Headed p hdrAt front (hdr ++ more) data) (hdr' : List Byte)
    (hlen : hdr'.length = hdr.length) :
    ∃ p', writeFirst front.length hdr' p = some p' ∧ Headed p' hdrAt front (hdr' ++ more) data := by
  obtain ⟨⟨b, bs, rest, rfl, hbytes, hdata, hinside, hat⟩, htotals, hsmall⟩ := h
  have hcopied : memcpyAt b.bytes front.length hdr' = front ++ ((hdr' ++ more) ++ rest) := by
    rw [hbytes, Core.memcpyAt_append_right, memcpyAt, List.take_zero, List.nil_append, Nat.zero_add, hlen,
      List.append_assoc, List.drop_left, List.append_assoc]
  have hsame : (memcpyAt b.bytes front.length hdr').length = b.bytes.length := by
    rw [hcopied, hbytes]
    simp only [List.length_append, hlen]
  have hroom : front.length + hdr'.length ≤ b.bytes.length := by
    rw [hbytes]
    simp only [List.length_append, hlen]
    omega
  refine ⟨{ b with bytes := memcpyAt b.bytes front.length hdr' } :: bs, ?_,
    ⟨_, bs, rest, rfl, hcopied, hdata, ⟨hinside.type, hinside.payload, ?_⟩, hat⟩, ⟨?_, htotals.2⟩, fun q hq ↦ ?_⟩
  · rw [writeFirst, TxPbuf.copyIn, if_pos hroom]
    rfl
  · rw [hsame]
    exact hinside.extent
  · have htot := htotals.1
    rw [txBytes_cons, List.length_append] at htot ⊢
    dsimp only
    rw [hsame]
    exact htot
  · rcases List.mem_cons.1 hq with rfl | hq
    · rw [TxPbuf.Small, hsame]
      exact hsmall b List.mem_cons_self
    · exact hsmall q (List.mem_cons_of_mem _ hq)

theorem Headed.frontLen_eq (h : Headed p hdrAt front hdr data) : frontLen hdrAt p = front.length := by
  obtain ⟨⟨b, bs, rest, rfl, hbytes, -, hinside, hat⟩, -, -⟩ := h
  have hextent := hinside.extent
  rw [hbytes, List.length_append] at hextent
  rw [frontLen, List.head?_cons, Option.map_some, Option.getD_some, hat, toU16]
  omega

/-- **The payload starts at the header** again, and nothing is in front. -/
theorem Headed.back (h : Headed p hdrAt front hdr data) :
    ∃ p', backToHeader hdrAt p = some p' ∧ Headed p' hdrAt [] hdr data := by
  have hfront := h.frontLen_eq
  obtain ⟨⟨b, bs, rest, rfl, hbytes, hdata, hinside, hat⟩, htotals, hsmall⟩ := h
  have hextent := hinside.extent
  have hpayload := hinside.payload
  have hlength : b.bytes.length = front.length + (hdr ++ rest).length := by rw [hbytes, List.length_append]
  have hdrop : b.bytes.drop front.length = hdr ++ rest := by rw [hbytes, List.drop_left]
  refine ⟨{ b with
    payload := hdrAt
    bytes := b.bytes.drop front.length
    totLen := toU16 (b.totLen + 2 ^ 16 - front.length) } :: bs, ?_,
    ⟨_, bs, rest, rfl, by rw [hdrop, List.nil_append], hdata, ⟨hinside.type, ?_, ?_⟩, by simp⟩, ⟨?_, htotals.2⟩,
    fun q hq ↦ ?_⟩
  · simp only [backToHeader, hfront]
    rw [if_pos (by omega)]
  · dsimp only
    omega
  · dsimp only
    rw [hdrop]
    omega
  · have htot := htotals.1
    rw [txBytes_cons, List.length_append] at htot ⊢
    dsimp only
    rw [hdrop, htot, hlength, toU16, toU16, toU16]
    omega
  · rcases List.mem_cons.1 hq with rfl | hq
    · rw [TxPbuf.Small, hdrop]
      dsimp only
      omega
    · exact hsmall q (List.mem_cons_of_mem _ hq)

/-- The first bytes of a header are what is in front of the others. -/
theorem Headed.shift (h : Headed p hdrAt [] (hdr ++ more) data) : Headed p (hdrAt + hdr.length) hdr more data := by
  obtain ⟨⟨b, bs, rest, rfl, hbytes, hdata, hinside, hat⟩, htotals, hsmall⟩ := h
  refine ⟨⟨b, bs, rest, rfl, ?_, hdata, hinside, by rw [hat, List.length_nil, Nat.add_zero]⟩, htotals, hsmall⟩
  rw [hbytes, List.nil_append, List.append_assoc]

/-- **Headers of the lower layers** are in front, if there is room. -/
theorem Headed.putFront (h : Headed p hdrAt [] hdr data) (front : List Byte) :
    ∃ front', Headed (putFront front p) hdrAt front' hdr data := by
  rcases hr : pbufHeader front.length p with - | p₁
  · exact ⟨[], by rwa [Tx.putFront, hr]⟩
  obtain ⟨⟨b, bs, rest, rfl, hbytes, hdata, hinside, hat⟩, htotals, hsmall⟩ := h
  obtain ⟨-, htotals₁, b', bs', heq, hroom, rfl⟩ := pbufHeader_spec hr
  obtain ⟨rfl, rfl⟩ := List.cons.inj heq
  rw [List.length_nil, Nat.add_zero] at hat
  have hextent := hinside.extent
  have hpayload := hinside.payload
  have hzeros : front.length = (List.replicate front.length (0 : Byte)).length := List.length_replicate.symm
  have hheaded : Headed ({ b with
      payload := b.payload - front.length
      bytes := List.replicate front.length 0 ++ b.bytes
      totLen := toU16 (b.totLen + front.length) } :: bs) (b.payload - front.length) []
      (List.replicate front.length 0 ++ hdr) data := by
    refine ⟨⟨_, bs, rest, rfl, ?_, hdata, ⟨hinside.type, ?_, ?_⟩, rfl⟩, htotals₁ htotals, fun q hq ↦ ?_⟩
    · rw [hbytes, List.nil_append, List.nil_append, List.append_assoc]
    · dsimp only
      omega
    · dsimp only
      rw [List.length_append, ← hzeros]
      omega
    · rcases List.mem_cons.1 hq with rfl | hq
      · rw [TxPbuf.Small, List.length_append, ← hzeros]
        dsimp only
        omega
      · exact hsmall q (List.mem_cons_of_mem _ hq)
  obtain ⟨p₂, hwrite, hheaded₂⟩ := hheaded.rewrite front hzeros
  refine ⟨front, ?_⟩
  rw [Tx.putFront, hr, Option.bind_some, show writeFirst 0 front _ = some p₂ from hwrite, Option.getD_some]
  have hshift := hheaded₂.shift
  rwa [Nat.sub_add_cancel (by omega), ← hat] at hshift

/-! ### The checksum -/

variable {alg : Ipv4.ChksumAlgorithm} {src dest : BitVec 32} {o : OutCall} {h : TxHdr} {n : ℕ}

theorem Headed.txBytes_eq (h : Headed p hdrAt front hdr data) : txBytes p = front ++ (hdr ++ data) := by
  obtain ⟨⟨b, bs, rest, rfl, hbytes, rfl, -, -⟩, -, -⟩ := h
  rw [txBytes_cons, hbytes, List.append_assoc, List.append_assoc]

theorem Headed.txTotLen_eq (h : Headed p hdrAt [] hdr data) : txTotLen p = toU16 (hdr.length + data.length) := by
  rw [h.totals.txTotLen_eq, h.txBytes_eq, List.nil_append, List.length_append]

theorem chainBytes_txBuffers (p : List TxPbuf) : chainBytes (txBuffers p) = txBytes p := by
  rw [chainBytes, txBuffers, List.flatMap_map]
  rfl

/-- The sum of all that is handed to `ip_output`. -/
def txSum (src dest : BitVec 32) (totLen : ℕ) (bs : List Byte) : ℕ :=
  memSum (pseudoHeader src dest ipProtoTcp (BitVec.ofNat 16 totLen) ++ bs)

theorem txSum_ne_zero (totLen : ℕ) (bs : List Byte) : txSum src dest totLen bs ≠ 0 := by
  rw [txSum, Ipv4.memSum_append_of_even (by rw [Ipv4.length_pseudoHeader]), Ipv4.memSum_pseudoHeader]
  have hproto : swap16 ipProtoTcp.toNat = 1536 := rfl
  omega

/-- What `inet_chksum_pseudo` returns for a chain with a header. -/
theorem Headed.pseudo_spec (hp : Headed p hdrAt [] hdr data) (alg : Ipv4.ChksumAlgorithm) (src dest : BitVec 32) :
    ∃ sum < 2 ^ 16, inetChksumPseudo alg (txBuffers p) src dest ipProtoTcp (BitVec.ofNat 16 (txTotLen p)) =
        2 ^ 16 - 1 - sum ∧
      OnesEq sum (txSum src dest (toU16 (hdr.length + data.length)) (hdr ++ data)) := by
  have hlen : ∀ q ∈ txBuffers p, q.bytes.length ≤ 2 ^ 16 - 1 := by
    intro q hq
    obtain ⟨b, hb, rfl⟩ := List.mem_map.1 hq
    exact Nat.le_pred_of_lt (hp.small b hb).length_lt
  obtain ⟨hsum, hlt⟩ := Ipv4.onesEq_chainSum_of_pbufs alg hlen
  rw [chainBytes_txBuffers, hp.txBytes_eq, List.nil_append] at hsum
  rw [Ipv4.inetChksumPseudo_eq_pseudoEnd, hp.txTotLen_eq]
  exact Ipv4.pseudoEnd_spec src dest ipProtoTcp _ hlt hsum

/-- **A segment verifies** if the sum of all its bytes is a multiple of `2 ^ 16 - 1`. -/
theorem Headed.verifies_iff (hp : Headed p hdrAt [] hdr data) :
    (TxPacket.mk p src dest).Verifies alg ↔
      txSum src dest (toU16 (hdr.length + data.length)) (hdr ++ data) % (2 ^ 16 - 1) = 0 := by
  obtain ⟨sum, hsum, hpseudo, heq⟩ := hp.pseudo_spec alg src dest
  rw [TxPacket.Verifies, hpseudo, heq.compl_eq_zero_iff hsum]
  exact and_iff_left (txSum_ne_zero _ _)

/-- A header without its checksum and what is behind it. -/
def TxHdr.before (h : TxHdr) : List Byte :=
  netU16 h.src ++ netU16 h.dest ++ netU32 h.seqno ++ netU32 h.ackno ++
    netU16 (h.hdrlen * 2 ^ 12 + h.flags.toNat) ++ netU16 h.wnd

theorem TxHdr.length_before (h : TxHdr) : h.before.length = 16 := rfl

theorem TxHdr.bytes_eq (h : TxHdr) : h.bytes = h.before ++ (storeU16 h.chksum ++ netU16 h.urgp) := List.append_assoc _ _ _

@[simp] theorem TxHdr.length_bytes (h : TxHdr) : h.bytes.length = tcpHlen := rfl

@[simp] theorem OutCall.length_options (o : OutCall) (seg : TxSeg) : (o.options seg).length = seg.optLen := by
  rw [OutCall.options, TxSeg.optLen, optLength, List.length_append]
  split_ifs <;> rfl

/-- What is stored as the checksum is added. -/
theorem txSum_chksum (totLen : ℕ) (hn : n < 2 ^ 16) (more : List Byte) :
    txSum src dest totLen ({ h with chksum := n }.bytes ++ more) =
      txSum src dest totLen ({ h with chksum := 0 }.bytes ++ more) + n := by
  have hfield : ∀ c, txSum src dest totLen ({ h with chksum := c }.bytes ++ more) =
      memSum ((pseudoHeader src dest ipProtoTcp (BitVec.ofNat 16 totLen) ++ h.before) ++
        (storeU16 c ++ (netU16 h.urgp ++ more))) := by
    intro c
    rw [txSum, TxHdr.bytes_eq, List.append_assoc, List.append_assoc, List.append_assoc]
    rfl
  rw [hfield, hfield]
  exact Ipv4.memSum_field (by rw [List.length_append, Ipv4.length_pseudoHeader, TxHdr.length_before]) hn

theorem txSum_append (totLen : ℕ) (hhdr : hdr.length % 2 = 0) :
    txSum src dest totLen (hdr ++ data) = txSum src dest totLen hdr + memSum data := by
  rw [txSum, ← List.append_assoc, Ipv4.memSum_append_of_even]
  · rfl
  · rw [List.length_append, Ipv4.length_pseudoHeader]
    omega

theorem TxSeg.optLen_le (seg : TxSeg) : seg.optLen ≤ 16 ∧ seg.optLen % 4 = 0 := by
  rw [TxSeg.optLen, optLength]
  split_ifs <;> decide

/-- The sum of the data, with its bytes the right way round. -/
def TxSeg.dataSum (seg : TxSeg) : ℕ := if seg.chksumSwapped = true then swap16 seg.chksum else seg.chksum

/-- **The header is summed**, and the sum of the data is taken from the segment. -/
theorem outputChksum_copied (hcfg : cfg.checksumOnCopy = true) (hp : Headed p hdrAt [] hdr data)
    (hhdr : hdr.length = tcpHlen + seg.optLen) (hhdrlen : seg.tcphdr.hdrlen = 5 + seg.optLen / 4)
    (hnone : seg.dataChecksummed = false → data = []) :
    ∃ sum < 2 ^ 16, OnesEq sum (txSum src dest (toU16 (hdr.length + data.length)) hdr) ∧
      outputChksum cfg seg src dest p =
        some (toU16 (foldU32 ((2 ^ 16 - 1 - sum) + (2 ^ 16 - 1 - seg.dataSum))), seg.dataSum, false) := by
  obtain ⟨hopt, hfour⟩ := seg.optLen_le
  have htcp : tcpHlen = 20 := rfl
  have hlen : seg.tcphdr.hdrlen * 4 = hdr.length := by omega
  have htot := hp.txTotLen_eq
  obtain ⟨⟨b, bs, rest, rfl, hbytes, hdata, -, -⟩, -, hsmall⟩ := hp
  have hb := (hsmall b List.mem_cons_self).length_lt
  rw [List.nil_append] at hbytes
  have hne : hdr ≠ [] := by
    rintro rfl
    rw [List.length_nil] at hhdr
    omega
  have hchksumLen : BitVec.ofNat 16 (seg.tcphdr.hdrlen * 4) = BitVec.ofNat 16 hdr.length := by rw [hlen]
  obtain ⟨sum, hsum, hpseudo, heq⟩ := Ipv4.pseudoPartial_header (q := ⟨b.payload, b.bytes⟩) cfg.alg (txBuffers bs) src dest
    ipProtoTcp (BitVec.ofNat 16 (txTotLen (b :: bs))) hbytes hne hb
  refine ⟨sum, hsum, by rwa [htot] at heq, ?_⟩
  rw [outputChksum, if_pos hcfg, if_neg]
  · rw [hchksumLen, show txBuffers (b :: bs) = ⟨b.payload, b.bytes⟩ :: txBuffers bs from rfl, hpseudo]
    rfl
  · rintro ⟨hplain, hne⟩
    rw [htot, hnone hplain, hlen, List.length_nil, Nat.add_zero, toU16, Nat.mod_eq_of_lt (by omega)] at hne
    exact hne rfl

/-- **What is stored completes the sum** exactly if the sum of the data is right. -/
theorem stored_iff {sum total n k : ℕ} (hsum : sum < 2 ^ 16) (heq : OnesEq sum total) (hn : n < 2 ^ 16) :
    toU16 (foldU32 ((2 ^ 16 - 1 - sum) + (2 ^ 16 - 1 - n))) < 2 ^ 16 ∧
      ((total + toU16 (foldU32 ((2 ^ 16 - 1 - sum) + (2 ^ 16 - 1 - n))) + k) % (2 ^ 16 - 1) = 0 ↔
        n ≡ k [MOD 2 ^ 16 - 1]) := by
  obtain ⟨hmod, -⟩ := heq
  set x := (2 ^ 16 - 1 - sum) + (2 ^ 16 - 1 - n) with hx
  have hlt : foldHalves x < 2 ^ 16 := foldHalves_lt (by omega)
  obtain ⟨hfold, -⟩ := onesEq_foldHalves x
  rw [Ipv4.foldU32_eq, toU16, Nat.mod_eq_of_lt hlt, Nat.ModEq]
  refine ⟨hlt, ?_⟩
  have hn' : x + sum + n = 2 * (2 ^ 16 - 1) := by omega
  omega

theorem TxSeg.dataSum_lt (hchk : seg.chksum < 2 ^ 16) : seg.dataSum < 2 ^ 16 := by
  rw [TxSeg.dataSum]
  split_ifs
  · exact swapBytes_lt _
  · exact hchk

/-- **What `tcp_output_segment` makes** of a segment with `data`. -/
structure Sent (cfg : TxConf) (o : OutCall) (seg : TxSeg) (data : List Byte) (seg' : TxSeg) (k : Option TxPacket) :
    Prop where
  laid : ∃ front hdr, seg'.Laid front hdr data
  fixed : seg'.len = seg.len ∧ seg'.optLen = seg.optLen ∧ seg'.dataChecksummed = seg.dataChecksummed ∧
    seg'.tcphdr.seqno = seg.tcphdr.seqno ∧ seg'.tcphdr.flags = seg.tcphdr.flags
  sum : seg'.chksum = seg.chksum ∧ seg'.chksumSwapped = seg.chksumSwapped ∨
    seg'.chksum = seg.dataSum ∧ seg'.chksumSwapped = false
  bytes : ∀ x ∈ k, ∃ n, txBytes x.p =
    { seg.tcphdr with ackno := o.rcvNxt, wnd := o.rcvAnnWnd, chksum := n }.bytes ++ (o.options seg ++ data)
  verifies : ∀ x ∈ k, x.Verifies cfg.alg ↔ (cfg.checksumOnCopy = true → seg.dataSum ≡ memSum data [MOD 2 ^ 16 - 1])

/-- **The checksum that is stored** in a segment. -/
theorem outputChksum_spec {more : List Byte} (src dest : BitVec 32)
    (hp : Headed p hdrAt [] ({ h with chksum := 0 }.bytes ++ more) data) (hmore : more.length = seg.optLen)
    (hhdrlen : seg.tcphdr.hdrlen = 5 + seg.optLen / 4) (hchk : seg.chksum < 2 ^ 16)
    (hnone : cfg.checksumOnCopy = true → seg.dataChecksummed = false → data = []) :
    ∃ r, outputChksum cfg seg src dest p = some r ∧
      (r.2 = (seg.chksum, seg.chksumSwapped) ∨ r.2 = (seg.dataSum, false)) ∧
      ∀ p', Headed p' hdrAt [] ({ h with chksum := r.1 }.bytes ++ more) data →
        ((TxPacket.mk p' src dest).Verifies cfg.alg ↔
          (cfg.checksumOnCopy = true → seg.dataSum ≡ memSum data [MOD 2 ^ 16 - 1])) := by
  obtain ⟨-, hfour⟩ := seg.optLen_le
  have htcp : tcpHlen = 20 := rfl
  have hlen : ∀ n, ({ h with chksum := n }.bytes ++ more).length = tcpHlen + seg.optLen := fun n ↦ by
    rw [List.length_append, TxHdr.length_bytes, hmore]
  by_cases hcfg : cfg.checksumOnCopy = true
  · obtain ⟨sum, hsum, heq, hr⟩ := outputChksum_copied hcfg hp (hlen 0) hhdrlen (hnone hcfg)
    obtain ⟨hlt, hiff⟩ := stored_iff (k := memSum data) hsum heq (TxSeg.dataSum_lt hchk)
    refine ⟨_, hr, .inr rfl, fun p' hp' ↦ ?_⟩
    rw [hp'.verifies_iff, txSum_append _ (by rw [hlen]; omega), txSum_chksum _ hlt, hlen, ← hlen 0, hiff]
    exact ⟨fun h _ ↦ h, fun h ↦ h hcfg⟩
  · obtain ⟨sum, hsum, hpseudo, heq, -⟩ := hp.pseudo_spec cfg.alg src dest
    refine ⟨_, if_neg hcfg, .inl rfl, fun p' hp' ↦ ?_⟩
    rw [hp'.verifies_iff, hlen, List.append_assoc, hpseudo, txSum_chksum _ (by dsimp only; omega)]
    rw [hlen, List.append_assoc] at heq
    refine ⟨fun _ h ↦ absurd h hcfg, fun _ ↦ ?_⟩
    dsimp only
    omega

/-- **`tcp_output_segment`** sends the segment, if there is a way, and leaves it well laid out. -/
theorem tcpOutputSegment_spec (hl : seg.Laid front hdr data) (hchk : seg.chksum < 2 ^ 16)
    (hnone : cfg.checksumOnCopy = true → seg.dataChecksummed = false → data = []) :
    ∃ seg' k, tcpOutputSegment cfg o seg = some (seg', k) ∧ Sent cfg o seg data seg' k := by
  have hopts : ∀ x : TxHdr, (x.bytes ++ o.options seg).length = tcpHlen + seg.optLen := fun x ↦ by
    rw [List.length_append, TxHdr.length_bytes, OutCall.length_options]
  have hhead : Headed seg.p seg.hdrAt front (hdr ++ []) data := by
    rw [List.append_nil]
    exact hl.headed
  simp only [tcpOutputSegment, hl.headed.frontLen_eq]
  set h₁ : TxHdr := { seg.tcphdr with ackno := o.rcvNxt, wnd := o.rcvAnnWnd }
  obtain ⟨p₁, hp₁, hhead₁⟩ := hhead.rewrite (h₁.bytes ++ o.options seg) (by rw [hopts, hl.length_hdr])
  rw [List.append_nil] at hhead₁
  rw [hp₁, Option.bind_some]
  rcases hip : o.localIp with - | src <;> dsimp only
  · have hlaid : TxSeg.Laid { seg with p := p₁, tcphdr := h₁ } front (h₁.bytes ++ o.options seg) data :=
      Headed.laid hhead₁ (hopts _) hl.len hl.hdrlen
    exact ⟨_, _, rfl, ⟨⟨front, _, hlaid⟩, ⟨rfl, rfl, rfl, rfl, rfl⟩, .inl ⟨rfl, rfl⟩, nofun, nofun⟩⟩
  obtain ⟨p₂, hp₂, hhead₂⟩ := hhead₁.back
  obtain ⟨p₃, hp₃, hhead₃⟩ := hhead₂.rewrite { h₁ with chksum := 0 }.bytes rfl
  rw [List.length_nil] at hp₃
  obtain ⟨r, hr, hsum, hverifies⟩ := outputChksum_spec src o.remoteIp hhead₃
    (OutCall.length_options o seg) hl.hdrlen hchk hnone
  obtain ⟨p₄, hp₄, hhead₄⟩ := hhead₃.rewrite { h₁ with chksum := r.1 }.bytes rfl
  rw [List.length_nil] at hp₄
  obtain ⟨front', hhead₅⟩ := hhead₄.putFront o.front
  rw [hp₂, Option.bind_some, hp₃, Option.bind_some, hr, Option.bind_some, hp₄, Option.map_some]
  refine ⟨_, _, rfl, ⟨⟨front', { h₁ with chksum := r.1 }.bytes ++ o.options seg, ?_⟩, ⟨rfl, rfl, rfl, rfl, rfl⟩, ?_,
    fun x hx ↦ ?_, fun x hx ↦ ?_⟩⟩
  · exact Headed.laid hhead₅ (hopts _) hl.len hl.hdrlen
  · rcases hsum with heq | heq <;> dsimp only <;> rw [heq]
    · exact .inl ⟨rfl, rfl⟩
    · exact .inr ⟨rfl, rfl⟩
  · obtain rfl := Option.some.inj hx
    exact ⟨r.1, by rw [hhead₄.txBytes_eq, List.nil_append, List.append_assoc]⟩
  · obtain rfl := Option.some.inj hx
    exact hverifies p₄ hhead₄

end Lwip.Tcp.Tx
