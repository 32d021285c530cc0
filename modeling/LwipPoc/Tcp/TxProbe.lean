import LwipPoc.Ipv4.FragFrame
import LwipPoc.Tcp.TxStream

/-!
# Probes of a closed window

`tcp_zero_window_probe` of `core/tcp_out.c` sends one number of the sequence space again: the first byte of the first
segment, or its `FIN`. It finds the byte from the end, at `tot_len - len`, and so it does not matter what the lower
layers have put in front of the header, nor how long the options are (`tcpZeroWindowProbe_spec`).

But that takes the chain to be what `tcp_output_segment` has handed to `ip_output`. **`ip_frag` walks along the chain
itself**: in the version that mirrors the pbufs it moves their payloads and leaves `tot_len` as it is, and then the
probe has another byte of the stream, or none (`run_fragmented`). In every run in which no packet is larger than the MTU
of its interface, the probe has the unit of the stream that belongs to its sequence number (`run_probe_carries`).
-/

namespace Lwip.Tcp.Tx

open Lwip.Core (Pbuf PbufLayer PbufType pbufCopyPartial pbufCopyPartial_eq pbufBytes memcpyAt)
open Lwip.Ipv4 (FragEnv FragPbuf FragVariant inetChksumPseudo ipHlen)

/-! ### `tcp_zero_window_probe` -/

/-- What a probe needs of the control block, besides the queues. -/
structure ProbeCall where
  rcvNxt : SeqNum
  rcvAnnWnd : ℕ
  localIp : BitVec 32
  remoteIp : BitVec 32
  deriving DecidableEq, Repr

/-- `is_fin`. -/
def TxSeg.isFin (seg : TxSeg) : Bool := decide (seg.tcphdr.flags &&& tcpFin ≠ 0 ∧ seg.len = 0)

variable (cfg : TxConf) (mem : ℕ → Option ℕ)

/-- `tcp_output_alloc_header`: a pbuf with a header, and the header. -/
def tcpOutputAllocHeader (s : TxPcb) (r : ProbeCall) (optlen datalen : ℕ) (seqno : SeqNum) (m : Pools) :
    Option (Option (TxPbuf × TxHdr) × Pools) :=
  match pbufAlloc mem m .ip (tcpHlen + optlen + datalen) .ram with
  | (none, m) => some (none, m)
  | (some p, m) =>
    if p.len < tcpHlen + optlen then none
    else
      let hdr : TxHdr := ⟨s.localPort, s.remotePort, seqno, r.rcvNxt, 5 + optlen / 4, tcpAck, r.rcvAnnWnd, 0, 0⟩
      (p.copyIn 0 hdr.bytes).map fun p ↦ (some (p, hdr), m)

/-- The end of `tcp_zero_window_probe`: the checksum, `ip_output`, and `pbuf_free`. -/
def probeOutput (r : ProbeCall) (hdr : TxHdr) (p : TxPbuf) (m : Pools) : Option (Option TxPacket × Pools) :=
  let chksum := inetChksumPseudo cfg.alg (txBuffers [p]) r.localIp r.remoteIp ipProtoTcp (BitVec.ofNat 16 p.totLen)
  (p.copyIn 0 { hdr with chksum := chksum }.bytes).bind fun p ↦
    (pbufFree [p] m).map fun m ↦ (some ⟨[p], r.localIp, r.remoteIp⟩, m)

/-- `tcp_zero_window_probe`: what is handed to `ip_output`. -/
def tcpZeroWindowProbe (s : TxPcb) (r : ProbeCall) (m : Pools) : Option (Option TxPacket × Pools) :=
  match (s.unacked ++ s.unsent).head? with
  | none => some (none, m)
  | some seg =>
    (tcpOutputAllocHeader mem s r 0 (if seg.isFin = true then 0 else 1) seg.tcphdr.seqno m).bind fun x ↦
      match x with
      | (none, m) => some (none, m)
      | (some (p, hdr), m) =>
        let hdr := if seg.isFin = true then { hdr with flags := tcpAck ||| tcpFin } else hdr
        let filled :=
          if seg.isFin = true then p.copyIn 0 hdr.bytes
          else
            -- the first byte of the data, seen from the end of the chain
            p.copyIn tcpHlen (pbufCopyPartial (seg.p.map fun q ↦ ⟨q.bytes, q.totLen⟩) (p.bytes.drop tcpHlen) 1
              (toU16 (txTotLen seg.p + 2 ^ 16 - seg.len))).1
        filled.bind fun p ↦ probeOutput cfg r hdr p m

variable {cfg mem} {s : TxPcb} {r : ProbeCall} {m m' : Pools} {seg x : TxSeg} {front hdr data : List Byte}

/-- **The byte behind the header**, whatever is in front of it and however the data is cut. -/
theorem TxSeg.Laid.copy_first (h : x.Laid front hdr data) (junk : Byte) :
    (pbufCopyPartial (x.p.map fun q ↦ ⟨q.bytes, q.totLen⟩) [junk] 1 (toU16 (txTotLen x.p + 2 ^ 16 - x.len))).1 =
      [data.headD junk] := by
  have hall : pbufBytes (x.p.map fun q ↦ (⟨q.bytes, q.totLen⟩ : Pbuf)) = txBytes x.p := by
    rw [pbufBytes, List.flatMap_map]
    rfl
  obtain ⟨b, bs, -, hinside, hle, -⟩ := h.first
  have hextent := hinside.extent
  have hoffset : toU16 (txTotLen x.p + 2 ^ 16 - x.len) = front.length + hdr.length := by
    rw [h.totals.txTotLen_eq, h.len, h.bytes, List.length_append, List.length_append, toU16, toU16, toU16]
    omega
  have hdrop : (txBytes x.p).drop (front.length + hdr.length) = data := by
    rw [h.bytes, ← List.append_assoc, ← List.length_append, List.drop_left]
  rw [hoffset, pbufCopyPartial_eq (by rw [List.length_take]; exact Nat.min_le_left _ _), hall, hdrop]
  rcases data with - | ⟨d, ds⟩ <;> rfl

theorem TxPbuf.copyIn_append {p : TxPbuf} {before old new behind : List Byte}
    (hbytes : p.bytes = before ++ (old ++ behind)) (hlen : new.length = old.length) :
    p.copyIn before.length new = some { p with bytes := before ++ (new ++ behind) } := by
  have hcopied : memcpyAt p.bytes before.length new = before ++ (new ++ behind) := by
    rw [hbytes, Core.memcpyAt_append_right, memcpyAt, List.take_zero, List.nil_append, Nat.zero_add, hlen,
      List.drop_left]
  rw [TxPbuf.copyIn, if_pos, hcopied]
  rw [hbytes, List.length_append, List.length_append, hlen]
  omega

/-- What the probe of a segment with `data` has behind its header. -/
def TxSeg.probePayload (seg : TxSeg) (data : List Byte) : List Byte := if seg.isFin = true then [] else [data.headD 0]

/-- `ACK`, and the `FIN`. -/
def TxSeg.probeFlags (seg : TxSeg) : BitVec 6 := if seg.isFin = true then tcpAck ||| tcpFin else tcpAck

/-- **`tcp_output_alloc_header`**, if there is memory for it: zeros behind a header without options. -/
theorem tcpOutputAllocHeader_spec (mem : ℕ → Option ℕ) (s : TxPcb) (r : ProbeCall) {datalen : ℕ} (hlen : datalen ≤ 1)
    (seqno : SeqNum) (m : Pools) :
    (∃ m', tcpOutputAllocHeader mem s r 0 datalen seqno m = some (none, m') ∧ mem m.tries = none ∧ m'.live = m.live) ∨
      ∃ p h m', tcpOutputAllocHeader mem s r 0 datalen seqno m = some (some (p, h), m') ∧
        p.bytes = h.bytes ++ List.replicate datalen 0 ∧ m'.live = p.slot ::ₘ m.live ∧
        h.seqno = seqno ∧ h.hdrlen = 5 ∧ h.flags = tcpAck := by
  rcases halloc : pbufAlloc mem m .ip (tcpHlen + 0 + datalen) .ram with ⟨- | p, m₁⟩
  · have hmap := (Prod.mk.inj halloc).1
    have hnone : mem m.tries = none := Option.map_eq_none_iff.1 hmap
    exact .inl ⟨m₁, by rw [tcpOutputAllocHeader, halloc], hnone, (pbufAlloc_live halloc).trans (zero_add _)⟩
  obtain ⟨-, hbytes, -, -, -⟩ := pbufAlloc_some halloc
  have hlive : m₁.live = p.slot ::ₘ m.live := pbufAlloc_live halloc
  have htcp : tcpHlen = 20 := rfl
  have hplen : ¬p.len < tcpHlen + 0 := by
    rw [TxPbuf.len, hbytes, List.length_replicate, toU16]
    omega
  set h : TxHdr := ⟨s.localPort, s.remotePort, seqno, r.rcvNxt, 5 + 0 / 4, tcpAck, r.rcvAnnWnd, 0, 0⟩ with hh
  have hzeros : p.bytes = [] ++ (List.replicate tcpHlen 0 ++ List.replicate datalen 0) := by
    rw [hbytes, Nat.add_zero, List.replicate_add, List.nil_append]
  have hcopy : p.copyIn 0 h.bytes = _ := TxPbuf.copyIn_append hzeros List.length_replicate.symm
  refine .inr ⟨{ p with bytes := [] ++ (h.bytes ++ List.replicate datalen 0) }, h, m₁, ?_, rfl, hlive, rfl, rfl, rfl⟩
  rw [tcpOutputAllocHeader, halloc]
  dsimp only
  rw [if_neg hplen, ← hh, hcopy, Option.map_some]

theorem probeOutput_spec (cfg : TxConf) (r : ProbeCall) {h : TxHdr} {p : TxPbuf} {payload : List Byte}
    (hbytes : p.bytes = h.bytes ++ payload) (hlive : m'.live = p.slot ::ₘ m.live) :
    ∃ k m₁, probeOutput cfg r h p m' = some (some k, m₁) ∧ m₁.live = m.live ∧
      ∃ h' : TxHdr, h'.seqno = h.seqno ∧ h'.hdrlen = h.hdrlen ∧ h'.flags = h.flags ∧ txBytes k.p = h'.bytes ++ payload := by
  rw [probeOutput]
  set n := inetChksumPseudo cfg.alg (txBuffers [p]) r.localIp r.remoteIp ipProtoTcp (BitVec.ofNat 16 p.totLen)
  have hfront : p.bytes = [] ++ (h.bytes ++ payload) := by rw [hbytes, List.nil_append]
  have hcopy : p.copyIn 0 { h with chksum := n }.bytes = _ := TxPbuf.copyIn_append hfront rfl
  set p' : TxPbuf := { p with bytes := [] ++ ({ h with chksum := n }.bytes ++ payload) }
  have hslots : m'.live = ([p'].map TxPbuf.slot : Multiset _) + m.live := hlive
  obtain ⟨m₁, hfree, hlive₁⟩ := pbufFree_live hslots
  exact ⟨_, m₁, by rw [hcopy, Option.bind_some, hfree, Option.map_some], hlive₁, { h with chksum := n }, rfl, rfl, rfl,
    List.append_nil _⟩

/-- **`tcp_zero_window_probe`**, if there is memory for it. -/
theorem tcpZeroWindowProbe_spec (cfg : TxConf) (mem : ℕ → Option ℕ) (r : ProbeCall) (m : Pools)
    (hx : (s.unacked ++ s.unsent).head? = some x) (hlaid : x.Laid front hdr data) :
    ∃ k m', tcpZeroWindowProbe cfg mem s r m = some (k, m') ∧ (k = none → mem m.tries = none) ∧ m'.live = m.live ∧
      ∀ y ∈ k, ∃ h : TxHdr, h.seqno = x.tcphdr.seqno ∧ h.hdrlen = 5 ∧ h.flags = x.probeFlags ∧
        txBytes y.p = h.bytes ++ x.probePayload data := by
  have hle : (if x.isFin = true then 0 else 1) ≤ 1 := by split_ifs <;> decide
  rcases tcpOutputAllocHeader_spec mem s r hle x.tcphdr.seqno m with
    ⟨m₁, halloc, hnone, hlive⟩ | ⟨p, h, m₁, halloc, hbytes, hlive, hseqno, hhdrlen, hflags⟩
  · exact ⟨none, m₁, by simp only [tcpZeroWindowProbe, hx, halloc, Option.bind_some], fun _ ↦ hnone, hlive, nofun⟩
  suffices hsome : ∃ k m', tcpZeroWindowProbe cfg mem s r m = some (some k, m') ∧ m'.live = m.live ∧
      ∃ h : TxHdr, h.seqno = x.tcphdr.seqno ∧ h.hdrlen = 5 ∧ h.flags = x.probeFlags ∧
        txBytes k.p = h.bytes ++ x.probePayload data by
    obtain ⟨k, m', hk, hlive', hprobe⟩ := hsome
    exact ⟨some k, m', hk, nofun, hlive', fun y hy ↦ Option.some.inj hy ▸ hprobe⟩
  simp only [tcpZeroWindowProbe, hx, halloc, Option.bind_some]
  rw [TxSeg.probeFlags, TxSeg.probePayload]
  split_ifs at hbytes ⊢ with hfin
  · -- the `FIN`
    have hfront : p.bytes = [] ++ (h.bytes ++ []) := by rw [hbytes]; rfl
    have hcopy : p.copyIn 0 { h with flags := tcpAck ||| tcpFin }.bytes = _ := TxPbuf.copyIn_append hfront rfl
    rw [hcopy, Option.bind_some]
    obtain ⟨k, m', hk, hlive', h', hseqno', hhdrlen', hflags', hkbytes⟩ :=
      probeOutput_spec cfg r (h := { h with flags := tcpAck ||| tcpFin })
        (p := { p with bytes := [] ++ ({ h with flags := tcpAck ||| tcpFin }.bytes ++ []) }) rfl hlive
    exact ⟨k, m', hk, hlive', h', hseqno'.trans hseqno, hhdrlen'.trans hhdrlen, hflags', hkbytes⟩
  · -- a byte
    have hfront : p.bytes = h.bytes ++ (List.replicate 1 0 ++ []) := by rw [hbytes, List.append_nil]
    have hdrop : p.bytes.drop tcpHlen = [0] := by
      rw [hbytes, ← h.length_bytes, List.drop_left]
      rfl
    have hcopy : p.copyIn tcpHlen [data.headD 0] = _ := TxPbuf.copyIn_append hfront rfl
    rw [hdrop, hlaid.copy_first 0, hcopy, Option.bind_some]
    obtain ⟨k, m', hk, hlive', h', hseqno', hhdrlen', hflags', hkbytes⟩ :=
      probeOutput_spec cfg r (h := h) (p := { p with bytes := h.bytes ++ ([data.headD 0] ++ []) }) rfl hlive
    exact ⟨k, m', hk, hlive', h', hseqno'.trans hseqno, hhdrlen'.trans hhdrlen, hflags'.trans hflags, hkbytes⟩

/-! ### What a probe carries -/

/-- The bytes of a unit. -/
def TxUnit.payload : TxUnit → List Byte
  | .byte b => [b]
  | .syn | .fin => []

/-- Its flags, with the `ACK`. -/
def TxUnit.flags : TxUnit → BitVec 6
  | .byte _ => tcpAck
  | .syn => tcpAck ||| tcpSyn
  | .fin => tcpAck ||| tcpFin

/-- **One unit of the sequence space**, without options. -/
def TxPacket.Carries (k : TxPacket) (seqno : SeqNum) (u : TxUnit) : Prop :=
  ∃ h : TxHdr, h.seqno = seqno ∧ h.hdrlen = 5 ∧ h.flags = u.flags ∧ txBytes k.p = h.bytes ++ u.payload

/-- The first unit of the segment, if what looks like a `FIN` without data is a segment without data, and nothing else
is. -/
theorem TxSeg.probe_eq (hunit : x.isFin = true ↔ data = []) :
    x.probeFlags = (x.firstUnit data).flags ∧ x.probePayload data = (x.firstUnit data).payload := by
  rw [TxSeg.probeFlags, TxSeg.probePayload, TxSeg.firstUnit]
  rcases data with - | ⟨d, ds⟩
  · have hfin := hunit.2 rfl
    have hflag : x.tcphdr.flags &&& tcpFin ≠ 0 := (of_decide_eq_true hfin).1
    rw [if_pos hfin, if_pos hfin, List.head?_nil, Option.map_none, Option.getD_none, flagUnit, if_pos hflag]
    exact ⟨rfl, rfl⟩
  · have hfin : ¬x.isFin = true := fun hfin ↦ List.cons_ne_nil _ _ (hunit.1 hfin)
    rw [if_neg hfin, if_neg hfin]
    exact ⟨rfl, rfl⟩

/-! ### `ip_output` and `ip_frag` -/

variable (cfg mem) (v : FragVariant)

/-- What is left of a chain that `ip_frag` has walked along, within more rounds than a packet has bytes. -/
def fragmented (env : FragEnv) (p : List TxPbuf) : Option (List TxPbuf) :=
  (Ipv4.Frag.ipFrag v env (p.map fun b ↦ ⟨⟨b.bytes, b.totLen⟩, 0, 1⟩) (2 ^ 16 + 1)).map fun r ↦
    p.zipWith (fun b q ↦ { b with payload := b.payload + q.moved, bytes := q.pbuf.payload }) (Ipv4.Frag.released r.2)

/-- The IP header, which is put in front first. -/
def OutCall.ipHdr (o : OutCall) : List Byte := o.front.drop (o.front.length - ipHlen)

/-- The IP header is in front, and the packet is larger than the MTU. -/
def TooLarge (env : FragEnv) (seg : TxSeg) : Prop :=
  frontLen seg.hdrAt seg.p = ipHlen ∧ env.mtu ≠ 0 ∧ env.mtu < txTotLen seg.p

instance (env : FragEnv) (seg : TxSeg) : Decidable (TooLarge env seg) := inferInstanceAs (Decidable (_ ∧ _ ∧ _))

/-- `tcp_output_segment`, over an interface with an MTU: a packet that is larger goes to `ip_frag`, and the headers of
the link layer are in front of its fragments. -/
def netOutputSegment (o : OutCall) (env : FragEnv) (seg : TxSeg) : Option (TxSeg × Option TxPacket) :=
  (tcpOutputSegment cfg { o with front := o.ipHdr } seg).bind fun r ↦
    if r.2.isSome = true ∧ TooLarge env r.1 then (fragmented v env r.1.p).map fun p ↦ ({ r.1 with p := p }, r.2)
    else tcpOutputSegment cfg o seg

/-- One round of the loop in `tcp_output`, with what sends a segment. -/
def outputWith (send : TxSeg → Option (TxSeg × Option TxPacket)) (s : TxPcb) (m : Pools) :
    Option (TxPcb × Pools × Option TxPacket) :=
  match s.unsent with
  | [] => none
  | seg :: rest =>
    let s := { s with unsent := rest, unsentOversize := if rest = [] then 0 else s.unsentOversize }
    (send (if s.state ≠ .synSent then seg.setFlag tcpAck else seg)).bind fun r ↦
      if 0 < r.1.tcpLen then some ({ s with unacked := insertUnacked r.1 s.unacked }, m, r.2)
      else (tcpSegFree r.1 m).map (s, ·, r.2)

theorem outputOne_eq (o : OutCall) (s : TxPcb) (m : Pools) :
    outputOne cfg s o m = outputWith (tcpOutputSegment cfg o) s m := rfl

/-! ### Steps -/

/-- What is done, and found around it. -/
inductive NetLabel
  /-- On an interface without an MTU, if it sends something. -/
  | tx (l : TxLabel)
  /-- On the interface of `env`. -/
  | output (o : OutCall) (env : FragEnv)
  | probe (r : ProbeCall)

/-- A connection, and what has a number of its sequence space. -/
structure NetState where
  tx : TxState
  given : List TxUnit

/-- What is given to the connection. -/
def TxLabel.units : TxLabel → List TxUnit
  | .write c => c.arg.map .byte
  | .enqueueFlags flags => [flagUnit flags]
  | .sendFin => [.fin]
  | _ => []

/-- One step. What it gives to the connection counts if `snd_lbb` has moved. A chain that `ip_frag` has walked along is
read by probes, and not sent again. -/
def netStep : NetLabel → NetState → Option NetState
  | .tx l, s => (txStep cfg mem l s.tx).map fun t ↦
    ⟨t, if t.pcb.sndLbb = s.tx.pcb.sndLbb then s.given else s.given ++ l.units⟩
  | .output o env, s => (outputWith (netOutputSegment cfg v o env) s.tx.pcb s.tx.pools).map fun r ↦
    { s with tx := ⟨r.1, r.2.1, s.tx.sent ++ r.2.2.toList⟩ }
  | .probe r, s => (tcpZeroWindowProbe cfg mem s.tx.pcb r s.tx.pools).map fun x ↦
    { s with tx := { s.tx with pools := x.2, sent := s.tx.sent ++ x.1.toList } }

/-- The length of the packet, if the segment is sent. -/
def TxSeg.packetLen (seg : TxSeg) : ℕ := toU16 (ipHlen + (tcpHlen + seg.optLen) + seg.dataLen)

/-- `ip_frag` walks along the pbufs of the segment. -/
def Walked (env : FragEnv) (seg : TxSeg) : Prop :=
  v = .customRef ∧ env.alloc 0 = true ∧ env.mtu ≠ 0 ∧ env.mtu < seg.packetLen

instance (env : FragEnv) (seg : TxSeg) : Decidable (Walked v env seg) :=
  inferInstanceAs (Decidable (_ ∧ _ ∧ _ ∧ _))

/-- The segment that is sent, if there is one, is not walked along. -/
def Unwalked : NetLabel → NetState → Prop
  | .output _ env, s => ∀ seg ∈ s.tx.pcb.unsent.head?, ¬Walked v env seg
  | _, _ => True

instance (l : NetLabel) (s : NetState) : Decidable (Unwalked v l s) := by
  unfold Unwalked
  split <;> infer_instance

/-! ### What the steps keep -/

variable {cfg mem v} {env : FragEnv} {o : OutCall} {seg' : TxSeg} {k : Option TxPacket} {first : SeqNum}
  {stream : List TxUnit}

/-- **A chain that is not walked along** is what it was. -/
theorem fragmented_eq {p p' : List TxPbuf} (h : fragmented v env p = some p') (hv : v ≠ .customRef ∨ env.alloc 0 = false) :
    p' = p := by
  obtain ⟨⟨e, t⟩, hfrag, rfl⟩ := Option.map_eq_some_iff.1 h
  obtain ⟨n, hreleased, hstill, -⟩ := Ipv4.Frag.ipFrag_released hfrag
  have hzero := hstill (hv.imp_right .inr)
  rw [hreleased, Ipv4.Frag.advanced_eq_iff.2 fun j _ ↦ hzero j, List.zipWith_map_right, List.zipWith_self]
  exact List.map_id _

/-- The packet is as long as its length says. -/
theorem Sent.packetLen (h : Sent cfg o seg data seg' k) (hdata : seg.dataLen = data.length)
    (hlarge : TooLarge env seg') : env.mtu ≠ 0 ∧ env.mtu < seg.packetLen := by
  obtain ⟨hfront, hmtu, hlt⟩ := hlarge
  obtain ⟨-, hopt, -⟩ := h.fixed
  obtain ⟨front, hdr, hlaid⟩ := h.laid
  rw [hlaid.headed.frontLen_eq] at hfront
  rw [hlaid.totals.txTotLen_eq, hlaid.bytes, List.length_append, List.length_append, hfront, hlaid.length_hdr, hopt,
    ← Nat.add_assoc] at hlt
  rw [TxSeg.packetLen, hdata]
  exact ⟨hmtu, hlt⟩

/-- **A segment that is sent, and not walked along.** -/
theorem netOutputSegment_placed (h : netOutputSegment cfg v o env seg = some (seg', k))
    (hp : seg.Placed cfg first stream data) (hw : ¬Walked v env seg) : seg'.Placed cfg first stream data := by
  obtain ⟨front, hdr, hlaid⟩ := hp.good.laid
  obtain ⟨⟨x, y⟩, hout, h⟩ := Option.bind_eq_some_iff.1 h
  obtain ⟨x', y', hout', hsent⟩ := tcpOutputSegment_spec hlaid hp.good.lt hp.good.flagged
  obtain ⟨rfl, rfl⟩ := Prod.mk.inj (Option.some.inj (hout'.symm.trans hout))
  split at h
  next hlarge =>
    obtain ⟨hmtu, hlt⟩ := hsent.packetLen hlaid.dataLen_eq hlarge.2
    obtain ⟨p, hfrag, heq⟩ := Option.map_eq_some_iff.1 h
    cases heq
    have hv : v ≠ .customRef ∨ env.alloc 0 = false := by
      rw [← Bool.not_eq_true]
      exact not_and_or.1 fun hv ↦ hw ⟨hv.1, hv.2, hmtu, hlt⟩
    rw [fragmented_eq hfrag hv]
    exact hsent.placed hp
  next =>
    obtain ⟨x', y', hout', hsent⟩ := tcpOutputSegment_spec (o := o) hlaid hp.good.lt hp.good.flagged
    obtain ⟨rfl, rfl⟩ := Prod.mk.inj (Option.some.inj (hout'.symm.trans h))
    exact hsent.placed hp

/-- **Sending the first segment** with something that keeps it in its place. -/
theorem outputWith_traced {send : TxSeg → Option (TxSeg × Option TxPacket)} {s s' : TxPcb} {m m' : Pools}
    (h : outputWith send s m = some (s', m', k)) (ht : s.Traced cfg first stream)
    (hsend : ∀ seg ∈ s.unsent.head?, ∀ x data seg' k, x = seg ∨ x = seg.setFlag tcpAck →
      x.Placed cfg first stream data → send x = some (seg', k) → seg'.Placed cfg first stream data) :
    s'.Traced cfg first stream := by
  rw [outputWith] at h
  split at h
  · cases h
  next seg rest hunsent =>
  dsimp only at h
  obtain ⟨⟨seg', k'⟩, hout, h⟩ := Option.bind_eq_some_iff.1 h
  obtain ⟨data, hseg⟩ := ht.segs seg (by rw [hunsent]; exact List.mem_append_left _ List.mem_cons_self)
  have hsent : seg'.Placed cfg first stream data := by
    refine hsend seg (by rw [hunsent]; rfl) _ data seg' k' ?_ ?_ hout
    · split_ifs
      · exact .inr rfl
      · exact .inl rfl
    · split_ifs
      · exact hseg.setFlag fun _ ↦ rfl
      · exact hseg
  have hrest : ∀ x ∈ rest, x ∈ s.unsent ++ s.unacked := fun x hx ↦
    List.mem_append_left _ (hunsent ▸ List.mem_cons_of_mem _ hx)
  have hroom : (if rest = [] then 0 else s.unsentOversize) ≠ 0 →
      ∃ last, rest.getLast? = some last ∧ last.dataLen ≠ 0 := fun hne ↦ by
    split_ifs at hne with hempty
    · exact absurd rfl hne
    · rw [getLast?_tail hunsent hempty]
      exact ht.room hne
  dsimp only at h
  split at h
  · cases h
    refine ht.keep (fun x hx ↦ ?_) rfl hroom rfl le_rfl
    rcases List.mem_append.1 hx with hx | hx
    · exact .inl (hrest x hx)
    · rcases mem_insertUnacked hx with rfl | hx
      · exact .inr ⟨data, hsent⟩
      · exact .inl (List.mem_append_right _ hx)
  · obtain ⟨m₁, -, heq⟩ := Option.map_eq_some_iff.1 h
    cases heq
    refine ht.keep (fun x hx ↦ .inl ?_) rfl hroom rfl le_rfl
    rcases List.mem_append.1 hx with hx | hx
    · exact hrest x hx
    · exact List.mem_append_right _ hx

/-- **One step of the connection**: what is given to it is behind the stream, or nothing is. -/
theorem txStep_traced {l : TxLabel} {s s' : TxState} (h : txStep cfg mem l s = some s')
    (ht : s.pcb.Traced cfg first stream) :
    s'.pcb.Traced cfg first stream ∧ s'.pcb.sndLbb = s.pcb.sndLbb ∨
      s'.pcb.Traced cfg first (stream ++ l.units) ∧
        s'.pcb.sndLbb = s.pcb.sndLbb + BitVec.ofNat 32 l.units.length := by
  -- where nothing is given, `snd_lbb` is at the end of the same stream
  have hsame : s'.pcb.Traced cfg first stream → s'.pcb.Traced cfg first stream ∧ s'.pcb.sndLbb = s.pcb.sndLbb :=
    fun ht' ↦ ⟨ht', ht'.sndLbb.trans ht.sndLbb.symm⟩
  rcases l with c | flags | - | o | - | - | - | - | - | e
  case write =>
    obtain ⟨⟨r, u, n⟩, hcall, rfl⟩ := Option.map_eq_some_iff.1 h
    rw [TxLabel.units, List.length_map]
    exact tcpWrite_traced hcall ht
  case enqueueFlags =>
    obtain ⟨⟨r, u, n⟩, hcall, rfl⟩ := Option.map_eq_some_iff.1 h
    exact tcpEnqueueFlags_traced hcall ht
  case sendFin =>
    obtain ⟨⟨r, u, n⟩, hcall, rfl⟩ := Option.map_eq_some_iff.1 h
    exact tcpSendFin_traced hcall ht
  case output =>
    obtain ⟨⟨u, n, k⟩, hcall, rfl⟩ := Option.map_eq_some_iff.1 h
    rw [outputOne_eq] at hcall
    refine .inl (hsame (outputWith_traced hcall ht fun seg _ x data seg' k _ hx hout ↦ ?_))
    obtain ⟨front, hdr, hlaid⟩ := hx.good.laid
    obtain ⟨y, z, hout', hsent⟩ := tcpOutputSegment_spec (o := o) hlaid hx.good.lt hx.good.flagged
    obtain ⟨rfl, rfl⟩ := Prod.mk.inj (Option.some.inj (hout'.symm.trans hout))
    exact hsent.placed hx
  case rexmitRto =>
    cases h
    exact .inl (hsame (tcpRexmitRto_traced ht))
  case rexmit =>
    cases h
    exact .inl (hsame (tcpRexmit_traced ht))
  case ackUnacked =>
    obtain ⟨⟨u, n⟩, hcall, rfl⟩ := Option.map_eq_some_iff.1 h
    exact .inl (hsame (ackUnacked_traced hcall ht))
  case ackUnsent =>
    obtain ⟨⟨u, n⟩, hcall, rfl⟩ := Option.map_eq_some_iff.1 h
    exact .inl (hsame (ackUnsent_traced hcall ht))
  case purge =>
    obtain ⟨⟨u, n⟩, hcall, rfl⟩ := Option.map_eq_some_iff.1 h
    exact .inl (hsame (tcpPcbPurge_traced hcall ht))
  case other =>
    cases h
    exact .inl (hsame ⟨ht.segs, ht.sndLbb, ht.room, e.sndWndMax_lt, e.sndBuf_lt⟩)

theorem TxLabel.length_units_lt (l : TxLabel) : l.units.length < 2 ^ 16 := by
  rcases l with c | - | - | - | - | - | - | - | - | -
  case write =>
    rw [TxLabel.units, List.length_map]
    exact c.length_lt
  all_goals simp [TxLabel.units]

/-- **One step** over interfaces. -/
theorem netStep_traced {l : NetLabel} {s s' : NetState} (h : netStep cfg mem v l s = some s') (hw : Unwalked v l s)
    (ht : s.tx.pcb.Traced cfg first s.given) : s'.tx.pcb.Traced cfg first s'.given := by
  rcases l with l | ⟨o, env⟩ | r
  case tx =>
    obtain ⟨t, hstep, rfl⟩ := Option.map_eq_some_iff.1 h
    dsimp only
    rcases txStep_traced hstep ht with ⟨ht', hlbb⟩ | ⟨ht', hlbb⟩
    · rw [if_pos hlbb]
      exact ht'
    · split_ifs with hzero
      · -- so little is given that `snd_lbb` has not come round
        have hlt := l.length_units_lt
        have hnat := congrArg BitVec.toNat (hlbb.symm.trans hzero)
        rw [BitVec.toNat_add, BitVec.toNat_ofNat] at hnat
        have hnone : l.units = [] := List.eq_nil_of_length_eq_zero (by omega)
        rwa [hnone, List.append_nil] at ht'
      · exact ht'
  case output =>
    obtain ⟨⟨u, n, k⟩, hcall, rfl⟩ := Option.map_eq_some_iff.1 h
    refine outputWith_traced hcall ht fun seg hseg x data seg' k hx hp hout ↦ ?_
    refine netOutputSegment_placed hout hp ?_
    rcases hx with rfl | rfl
    · exact hw _ hseg
    · exact hw seg hseg
  case probe =>
    obtain ⟨x, -, rfl⟩ := Option.map_eq_some_iff.1 h
    exact ht

/-! ### Whole runs -/

/-- A connection that nothing has been given to. -/
structure NetState.Starts (s : NetState) : Prop where
  tx : s.tx.Starts
  unsentOversize : s.tx.pcb.unsentOversize = 0
  given : s.given = []

variable {s₀ s : NetState} {ls : List NetLabel}

theorem NetState.Starts.traced (h : s₀.Starts) : s₀.tx.pcb.Traced cfg s₀.tx.pcb.sndLbb s₀.given := by
  refine ⟨fun seg hseg ↦ ?_, ?_, fun hne ↦ absurd h.unsentOversize hne, h.tx.sndWndMax, h.tx.sndBuf⟩
  · rw [h.tx.unsent, h.tx.unacked] at hseg
    cases hseg
  · rw [h.given]
    exact (BitVec.add_zero _).symm

/-- **A probe carries the unit of the stream that belongs to its sequence number**, in every run in which `ip_frag` walks
along no segment, if the first segment looks like a `FIN` without data exactly if it has no data: if it is not the `SYN`,
and its length has not wrapped to zero under a `FIN`. Without memory there is no probe. -/
theorem run_probe_carries (hs₀ : s₀.Starts)
    (h : runLabels (guardStep (Unwalked v) (netStep cfg mem v)) ls s₀ = some s)
    (hx : (s.tx.pcb.unacked ++ s.tx.pcb.unsent).head? = some x) (hunit : x.isFin = true ↔ x.dataLen = 0)
    (r : ProbeCall) :
    ∃ k m', tcpZeroWindowProbe cfg mem s.tx.pcb r s.tx.pools = some (k, m') ∧
      (k = none → mem s.tx.pools.tries = none) ∧
      ∀ y ∈ k, ∃ i u, s.given[i]? = some u ∧ y.Carries (seqAt s₀.tx.pcb.sndLbb i) u := by
  have ht : s.tx.pcb.Traced cfg s₀.tx.pcb.sndLbb s.given := by
    refine runLabels_invariant (I := fun s : NetState ↦ s.tx.pcb.Traced cfg s₀.tx.pcb.sndLbb s.given) hs₀.traced
      (fun l s s' ht hl ↦ ?_) h
    obtain ⟨hw, hl⟩ := guardStep_eq_some.1 hl
    exact netStep_traced hl hw ht
  obtain ⟨data, hdata⟩ := ht.segs x (by
    rw [List.mem_append, or_comm, ← List.mem_append]
    exact List.mem_of_head? hx)
  obtain ⟨front, hdr, hlaid⟩ := hdata.good.laid
  obtain ⟨i, hseqno, hfirst⟩ := hdata.place
  obtain ⟨k, m', hk, hnone, -, hprobe⟩ := tcpZeroWindowProbe_spec cfg mem r s.tx.pools hx hlaid
  refine ⟨k, m', hk, hnone, fun y hy ↦ ⟨i, _, hfirst, ?_⟩⟩
  rw [hlaid.dataLen_eq, List.length_eq_zero_iff] at hunit
  obtain ⟨hflags, hpayload⟩ := TxSeg.probe_eq hunit
  obtain ⟨hdr', hseqno', hhdrlen, hflags', hbytes⟩ := hprobe y hy
  exact ⟨hdr', hseqno'.trans hseqno, hhdrlen, hflags'.trans hflags, by rw [hbytes, hpayload]⟩

/-- A connection with an MSS of 536, and nothing to send. -/
def wideState : NetState :=
  ⟨{ emptyState with pcb := { emptyState.pcb with mss := 536, sndWndMax := 2048, sndBuf := 2048 } }, []⟩

theorem wideState_starts : wideState.Starts := ⟨⟨rfl, rfl, by decide, by decide, rfl⟩, rfl, rfl⟩

/-- An interface with this MTU, and memory for all fragments. -/
def roomyEnv (mtu : ℕ) : FragEnv := ⟨mtu, fun _ ↦ 0, fun _ ↦ 0, mtu, fun _ ↦ 0, fun _ ↦ true⟩

/-- A build without options. -/
def plainConf : TxConf := ⟨false, false, false, false, .two⟩

/-- A probe with a closed window. -/
def probeCall : ProbeCall := ⟨500, 1000, 0x0100000a, 0x0200000a⟩

/-- The bytes from zero on. -/
def countedBytes : WriteCall := fewBytes ((List.range 300).map (BitVec.ofNat 8)) (by simp)

/-- What can be evaluated of a probe: its length, and whether its number and its byte are those of a unit; and of the
first segment. -/
def probeSeen (s : NetState) : Option (Option (ℕ × Bool)) × Option (Bool × ℕ × ℕ) :=
  ((tcpZeroWindowProbe plainConf plenty s.tx.pcb probeCall s.tx.pools).map fun x ↦ x.1.map fun k ↦
      ((txBytes k.p).length, (List.range s.given.length).any fun i ↦
        decide (((txBytes k.p).drop 4).take 4 = netU32 (seqAt 1000 i)) &&
          decide (s.given[i]?.map TxUnit.payload = some ((txBytes k.p).drop 20))),
    (s.tx.pcb.unacked ++ s.tx.pcb.unsent).head?.map fun x ↦ (x.isFin, x.len, x.dataLen))

set_option maxRecDepth 4000 in
/-- Three hundred bytes over an interface with an MTU of 1500, and a probe. -/
theorem run_probe_carries_sent : ∃ s, runLabels (guardStep (Unwalked .customRef) (netStep plainConf plenty .customRef))
      [.tx (.write countedBytes), .output ethernetCall (roomyEnv 1500)] wideState = some s ∧
    ∃ k m', tcpZeroWindowProbe plainConf plenty s.tx.pcb probeCall s.tx.pools = some (some k, m') ∧
      ∃ i u, s.given[i]? = some u ∧ k.Carries (seqAt wideState.tx.pcb.sndLbb i) u := by
  refine exists_run_of_observe probeSeen (some (some (21, true)), some (false, 300, 300)) (by decide)
    fun s hrun hobs ↦ ?_
  obtain ⟨hprobe, hfirst⟩ := Prod.mk.inj hobs
  obtain ⟨x, hx, hseen⟩ := Option.map_eq_some_iff.1 hfirst
  obtain ⟨hfin, hlens⟩ := Prod.mk.inj hseen
  obtain ⟨-, hdata⟩ := Prod.mk.inj hlens
  have hunit : x.isFin = true ↔ x.dataLen = 0 := by rw [hfin, hdata]; decide
  obtain ⟨k, m', hk, -, hcarries⟩ := run_probe_carries wideState_starts hrun hx hunit probeCall
  rw [hk, Option.map_some, Option.some.injEq, Option.map_eq_some_iff] at hprobe
  obtain ⟨y, rfl, -⟩ := hprobe
  exact ⟨y, m', hk, hcarries y rfl⟩

set_option maxRecDepth 4000 in
/-- **A probe with another byte**: the packet of 340 bytes is cut at an MTU of 296, and its last fragment has what is now
at the offset of the first byte of the segment. -/
theorem run_fragmented : ∃ s, runLabels (netStep plainConf plenty .customRef)
      [.tx (.write countedBytes), .output ethernetCall (roomyEnv 296)] wideState = some s ∧ wideState.Starts ∧
    (∃ x, (s.tx.pcb.unacked ++ s.tx.pcb.unsent).head? = some x ∧ x.isFin = false ∧ x.len = 300) ∧
    ∃ k m', tcpZeroWindowProbe plainConf plenty s.tx.pcb probeCall s.tx.pools = some (some k, m') ∧
      ¬∃ i u, s.given[i]? = some u ∧ k.Carries (seqAt wideState.tx.pcb.sndLbb i) u := by
  refine exists_run_of_observe probeSeen (some (some (21, false)), some (false, 300, 0)) (by decide)
    fun s _ hobs ↦ ?_
  obtain ⟨hprobe, hfirst⟩ := Prod.mk.inj hobs
  obtain ⟨x, hx, hseen⟩ := Option.map_eq_some_iff.1 hfirst
  obtain ⟨hfin, hlens⟩ := Prod.mk.inj hseen
  obtain ⟨z, hz, hcall⟩ := Option.map_eq_some_iff.1 hprobe
  obtain ⟨k, hk, hnone⟩ := Option.map_eq_some_iff.1 hcall
  refine ⟨wideState_starts, ⟨x, hx, hfin, (Prod.mk.inj hlens).1⟩, k, z.2, by rw [hz, ← hk], ?_⟩
  rintro ⟨i, u, hu, h, hseqno, -, -, hbytes⟩
  have hlt := (List.getElem?_eq_some_iff.1 hu).1
  have hfalse := List.any_eq_false.1 (Prod.mk.inj hnone).2 i (List.mem_range.2 hlt)
  refine hfalse (Bool.and_eq_true_iff.2 ⟨decide_eq_true ?_, decide_eq_true ?_⟩)
  · rw [hbytes, ← show seqAt wideState.tx.pcb.sndLbb i = seqAt 1000 i from rfl, ← hseqno]
    rfl
  · rw [hu, hbytes]
    rfl

end Lwip.Tcp.Tx
