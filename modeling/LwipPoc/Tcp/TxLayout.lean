import LwipPoc.Tcp.TxWrite

/-!
# What lies where in a segment

A segment that can be sent has, from `tcphdr` on, its header, its options and its data, and of these the header and the
options in the first pbuf; in front of them there is what the lower layers have put there (`TxSeg.Laid`). How the data
is cut into pbufs does not matter, and the totals are right modulo `2 ^ 16`, like `len`.

`tcp_write` makes such segments (`newTxSeg_spec`), and what it adds to one goes behind the data (`fillTail_spec`,
`txCat_spec`).
-/

namespace Lwip.Tcp.Tx

open Lwip.Core (PbufLayer PbufType sizeofStructPbuf memcpyAt length_memcpyAt)

/-! ### Chains -/

/-- Every `tot_len` is the number of bytes from its pbuf on, as a `u16_t`. -/
def TxTotals : List TxPbuf → Prop
  | [] => True
  | p :: ps => p.totLen = toU16 (txBytes (p :: ps)).length ∧ TxTotals ps

/-- The payload and the room behind it are less than `2 ^ 16` bytes, so that `len` is the length. -/
def TxPbuf.Small (p : TxPbuf) : Prop := p.bytes.length + p.room < 2 ^ 16

/-- A pbuf that headers go into: from the pbuf on, it has less than `2 ^ 16` bytes, wherever its payload starts. -/
structure TxPbuf.Inside (p : TxPbuf) : Prop where
  type : p.type = .ram
  payload : p.addr + sizeofStructPbuf ≤ p.payload
  extent : p.payload - p.addr + (p.bytes.length + p.room) < 2 ^ 16

/-- A chain with the same first pbuf, which may have used some of the room behind it. -/
def SameFirst (p p' : List TxPbuf) : Prop :=
  ∃ b bs b' bs', p = b :: bs ∧ p' = b' :: bs' ∧ b'.type = b.type ∧ b'.addr = b.addr ∧ b'.payload = b.payload ∧
    b.bytes.length ≤ b'.bytes.length ∧ b'.bytes.length + b'.room = b.bytes.length + b.room

variable {p p' t : List TxPbuf} {b b' : TxPbuf} {bs : List TxPbuf} {data : List Byte}

@[simp] theorem txBytes_nil : txBytes [] = [] := rfl

@[simp] theorem txBytes_cons : txBytes (b :: bs) = b.bytes ++ txBytes bs := rfl

@[simp] theorem txBytes_append : txBytes (p ++ t) = txBytes p ++ txBytes t := List.flatMap_append

theorem TxTotals.txTotLen_eq (h : TxTotals p) : txTotLen p = toU16 (txBytes p).length := by
  rcases p with - | ⟨b, bs⟩
  · rfl
  · exact h.1

theorem TxPbuf.Small.length_lt (h : b.Small) : b.bytes.length < 2 ^ 16 := (Nat.le_add_right _ _).trans_lt h

/-- What a chain of right totals becomes when as many bytes are added. -/
theorem toU16_add (n k : ℕ) : toU16 (toU16 n + k) = toU16 (n + k) := by
  rw [toU16, toU16, toU16, Nat.mod_add_mod]

/-- **The room behind the last pbuf**: the bytes go to the end. -/
theorem fillTail_spec (h : fillTail data p = some p') :
    txBytes p' = txBytes p ++ data ∧ (TxTotals p → TxTotals p') ∧
      ((∀ q ∈ p, q.Small) → ∀ q ∈ p', q.Small) ∧ SameFirst p p' := by
  induction p generalizing p' with
  | nil => cases h
  | cons b bs ih =>
    rcases bs with - | ⟨c, cs⟩
    · rw [fillTail] at h
      split_ifs at h with hroom
      obtain rfl := Option.some.inj h
      refine ⟨by simp, fun ht ↦ ⟨?_, trivial⟩, fun hsmall q hq ↦ ?_, b, [], _, [], rfl, rfl, rfl, rfl, rfl, ?_, ?_⟩
      · rw [ht.1, toU16_add]
        simp
      · obtain rfl := List.mem_singleton.1 hq
        have hlt : b.bytes.length + b.room < 2 ^ 16 := hsmall b (List.mem_singleton_self _)
        rw [TxPbuf.Small, List.length_append]
        dsimp only
        omega
      · rw [List.length_append]
        exact Nat.le_add_right _ _
      · rw [List.length_append]
        dsimp only
        omega
    · rw [fillTail, Option.map_eq_some_iff] at h
      obtain ⟨qs, hqs, rfl⟩ := h
      obtain ⟨hbytes, htotals, hsmall, -⟩ := ih hqs
      have hall : txBytes ({ b with totLen := toU16 (b.totLen + data.length) } :: qs) =
          txBytes (b :: c :: cs) ++ data := by
        rw [txBytes_cons, txBytes_cons, hbytes, List.append_assoc]
      refine ⟨hall, fun ht ↦ ⟨?_, htotals ht.2⟩, fun hs q hq ↦ ?_, b, _, _, qs, rfl, rfl, rfl, rfl, rfl,
        le_refl _, rfl⟩
      · rw [hall, List.length_append]
        dsimp only
        rw [ht.1, toU16_add]
      · rcases List.mem_cons.1 hq with rfl | hq
        · exact hs b List.mem_cons_self
        · exact hsmall (fun q hq ↦ hs q (List.mem_cons_of_mem _ hq)) q hq

/-- **A chain behind another**: its bytes go to the end. -/
theorem txCat_spec (h : txCat t p = some p') :
    txBytes p' = txBytes p ++ txBytes t ∧ (TxTotals t → TxTotals p → TxTotals p') ∧
      ((∀ q ∈ t, q.Small) → (∀ q ∈ p, q.Small) → ∀ q ∈ p', q.Small) ∧ SameFirst p p' := by
  induction p generalizing p' with
  | nil => cases h
  | cons b bs ih =>
    rcases bs with - | ⟨c, cs⟩
    · rw [txCat] at h
      split_ifs at h with hlast
      obtain rfl := Option.some.inj h
      refine ⟨by simp, fun ht hp ↦ ⟨?_, ht⟩, fun hs hp q hq ↦ ?_, b, [], _, t, rfl, rfl, rfl, rfl, rfl,
        le_refl _, rfl⟩
      · dsimp only
        rw [hp.1, ht.txTotLen_eq, toU16_add, Nat.add_comm, toU16_add, Nat.add_comm]
        simp
      · rcases List.mem_cons.1 hq with rfl | hq
        · exact hp b List.mem_cons_self
        · exact hs q hq
    · rw [txCat, Option.map_eq_some_iff] at h
      obtain ⟨qs, hqs, rfl⟩ := h
      obtain ⟨hbytes, htotals, hsmall, -⟩ := ih hqs
      have hall : txBytes ({ b with totLen := toU16 (b.totLen + txTotLen t) } :: qs) =
          txBytes (b :: c :: cs) ++ txBytes t := by
        rw [txBytes_cons, txBytes_cons, hbytes, List.append_assoc]
      refine ⟨hall, fun ht hp ↦ ⟨?_, htotals ht hp.2⟩, fun hs hp q hq ↦ ?_, b, _, _, qs, rfl, rfl, rfl, rfl, rfl,
        le_refl _, rfl⟩
      · rw [hall, List.length_append]
        dsimp only
        rw [hp.1, ht.txTotLen_eq, toU16_add, Nat.add_comm, toU16_add, Nat.add_comm]
      · rcases List.mem_cons.1 hq with rfl | hq
        · exact hp b List.mem_cons_self
        · exact hsmall hs (fun q hq ↦ hp q (List.mem_cons_of_mem _ hq)) q hq

/-! ### Segments -/

/-- **A segment in memory**: what the lower layers have put in front, the header with the options, and the data. -/
structure TxSeg.Laid (seg : TxSeg) (front hdr data : List Byte) : Prop where
  bytes : txBytes seg.p = front ++ (hdr ++ data)
  length_hdr : hdr.length = tcpHlen + seg.optLen
  first : ∃ b bs, seg.p = b :: bs ∧ b.Inside ∧ front.length + hdr.length ≤ b.bytes.length ∧
    seg.hdrAt = b.payload + front.length
  len : seg.len = toU16 data.length
  totals : TxTotals seg.p
  small : ∀ q ∈ seg.p, q.Small
  hdrlen : seg.tcphdr.hdrlen = 5 + seg.optLen / 4

variable {seg : TxSeg} {front hdr more : List Byte}

/-- More data, in a chain with the same first pbuf. -/
theorem TxSeg.Laid.extend (h : seg.Laid front hdr data) (hbytes : txBytes p' = txBytes seg.p ++ more)
    (htotals : TxTotals p') (hsmall : ∀ q ∈ p', q.Small) (hfirst : SameFirst seg.p p') {seg' : TxSeg}
    (hp : seg'.p = p') (hlen : seg'.len = toU16 (seg.len + more.length)) (hat : seg'.hdrAt = seg.hdrAt)
    (hopt : seg'.optLen = seg.optLen) (hhdr : seg'.tcphdr.hdrlen = seg.tcphdr.hdrlen) :
    seg'.Laid front hdr (data ++ more) where
  bytes := by rw [hp, hbytes, h.bytes, List.append_assoc, List.append_assoc]
  length_hdr := hopt ▸ h.length_hdr
  first := by
    obtain ⟨b, bs, hseg, hinside, hle, hpayload⟩ := h.first
    obtain ⟨c, cs, c', cs', hc, hc', htype, haddr, hcpayload, hclen, hroom⟩ := hfirst
    obtain ⟨rfl, rfl⟩ := List.cons.inj (hseg.symm.trans hc)
    have hinside' : c'.Inside :=
      ⟨htype.trans hinside.type, by rw [haddr, hcpayload]; exact hinside.payload, by
        rw [haddr, hcpayload, hroom]
        exact hinside.extent⟩
    exact ⟨c', cs', hp.trans hc', hinside', hle.trans hclen, by rw [hat, hpayload, hcpayload]⟩
  len := by rw [hlen, h.len, toU16_add, List.length_append]
  totals := hp ▸ htotals
  small := hp ▸ hsmall
  hdrlen := by rw [hhdr, h.hdrlen, hopt]

theorem TxSeg.Laid.fill (h : seg.Laid front hdr data) (hfill : fillTail more seg.p = some p') {seg' : TxSeg}
    (hp : seg'.p = p') (hlen : seg'.len = toU16 (seg.len + more.length)) (hat : seg'.hdrAt = seg.hdrAt)
    (hopt : seg'.optLen = seg.optLen) (hhdr : seg'.tcphdr.hdrlen = seg.tcphdr.hdrlen) :
    seg'.Laid front hdr (data ++ more) := by
  obtain ⟨hbytes, htotals, hsmall, hfirst⟩ := fillTail_spec hfill
  exact h.extend hbytes (htotals h.totals) (hsmall h.small) hfirst hp hlen hat hopt hhdr

theorem TxSeg.Laid.concat (h : seg.Laid front hdr data) (hcat : txCat [b] seg.p = some p')
    (htot : b.totLen = toU16 b.bytes.length) (hb : b.Small) {seg' : TxSeg} (hp : seg'.p = p')
    (hlen : seg'.len = toU16 (seg.len + b.bytes.length)) (hat : seg'.hdrAt = seg.hdrAt)
    (hopt : seg'.optLen = seg.optLen) (hhdr : seg'.tcphdr.hdrlen = seg.tcphdr.hdrlen) :
    seg'.Laid front hdr (data ++ b.bytes) := by
  obtain ⟨hbytes, htotals, hsmall, hfirst⟩ := txCat_spec hcat
  have hone : txBytes [b] = b.bytes := List.append_nil _
  rw [hone] at hbytes
  refine h.extend hbytes (htotals ⟨by rw [hone]; exact htot, trivial⟩ h.totals) (hsmall ?_ h.small) hfirst hp hlen hat
    hopt hhdr
  intro q hq
  obtain rfl := List.mem_singleton.1 hq
  exact hb

/-! ### What is allocated -/

variable {cfg : TxConf} {mem : ℕ → Option ℕ} {s : TxPcb} {c : WriteCall} {m m' : Pools} {layer : PbufLayer}
  {length maxLength oversize src pos : ℕ} {first moreFlag : Bool} {acc acc' : TxNew}

theorem tcpPbufPrealloc_some
    (h : tcpPbufPrealloc cfg mem s layer length maxLength moreFlag first m = (some (b, oversize), m')) :
    b.type = .ram ∧ b.bytes = List.replicate (min length (preallocSize cfg s length maxLength moreFlag first)) 0 ∧
      b.room = preallocSize cfg s length maxLength moreFlag first - length ∧ b.totLen = length ∧
      b.addr + sizeofStructPbuf + layer.offset ≤ b.payload ∧ b.payload ≤ b.addr + sizeofStructPbuf + layer.offset + 3 := by
  obtain ⟨hb, -⟩ := Prod.mk.inj h
  obtain ⟨b', hb', heq⟩ := Option.map_eq_some_iff.1 hb
  obtain ⟨htype, hbytes, -, -, hpayload⟩ := pbufAlloc_some (Prod.ext hb' rfl)
  obtain ⟨rfl, -⟩ := Prod.mk.inj heq
  exact ⟨htype, (congrArg _ hbytes).trans List.take_replicate, rfl, rfl, hpayload rfl⟩

theorem TxPbuf.copyIn_some {i : ℕ} (h : b.copyIn i data = some b') :
    i + data.length ≤ b.bytes.length ∧ b' = { b with bytes := memcpyAt b.bytes i data } := by
  rw [TxPbuf.copyIn] at h
  split_ifs at h with hle
  exact ⟨hle, (Option.some.inj h).symm⟩

theorem preallocSize_le (s : TxPcb) (hle : length ≤ preallocSize cfg s length maxLength moreFlag first) :
    preallocSize cfg s length maxLength moreFlag first ≤ max length maxLength := by
  rw [preallocSize] at hle ⊢
  split_ifs at hle ⊢ <;> omega

/-- **The pbufs of a new segment** hold room for the options, and the data. -/
structure SegPbufs.Right (cfg : TxConf) (copies : Bool) (optlen src : ℕ) (data : List Byte) (b : SegPbufs) : Prop where
  bytes : txBytes b.p = List.replicate optlen 0 ++ data
  totals : TxTotals b.p
  small : ∀ q ∈ b.p, q.Small
  first : ∃ q qs, b.p = q :: qs ∧ q.Inside ∧ q.addr + sizeofStructPbuf + PbufLayer.transport.offset ≤ q.payload ∧
    optlen ≤ q.bytes.length
  sum : ∃ dst, (b.chksum, b.chksumSwapped) =
    if copies = true then cfg.copySum dst data else (cfg.nocopyChksum src data, false)

theorem segPbufs_right {r : SegPbufs} (h : segPbufs cfg mem s c src data oversize first m = some (some r, m'))
    (hwnd : s.sndWndMax < 2 ^ 16) (hdata : data.length + s.optlen cfg + 81 < 2 ^ 16) :
    r.Right cfg (c.copies cfg) (s.optlen cfg) src data := by
  have hsize : sizeofStructPbuf = 24 := rfl
  have hoffset : PbufLayer.transport.offset = 54 := rfl
  have hmss : s.mssLocal ≤ s.sndWndMax / 2 := min_le_right _ _
  rw [segPbufs] at h
  split_ifs at h with hcopy hover
  · rw [toU16, Nat.mod_eq_of_lt (by omega)] at h
    rcases hr : tcpPbufPrealloc cfg mem s .transport (data.length + s.optlen cfg) s.mssLocal c.more first m
      with ⟨- | ⟨q, oversize'⟩, m₁⟩ <;> rw [hr] at h <;> dsimp only at h
    · cases h
    split_ifs at h
    obtain ⟨q', hq', heq⟩ := Option.map_eq_some_iff.1 h
    obtain ⟨hr', -⟩ := Prod.mk.inj heq
    obtain rfl := Option.some.inj hr'
    obtain ⟨htype, hbytes, hroom, htot, hlow, hhigh⟩ := tcpPbufPrealloc_some hr
    obtain ⟨hfits, rfl⟩ := TxPbuf.copyIn_some hq'
    set alloc := preallocSize cfg s (data.length + s.optlen cfg) s.mssLocal c.more first with halloc
    rw [hbytes, List.length_replicate] at hfits
    have hle : data.length + s.optlen cfg ≤ alloc := by omega
    have hmax : alloc ≤ max (data.length + s.optlen cfg) s.mssLocal := preallocSize_le s hle
    rw [min_eq_left hle] at hbytes
    have hcopied : memcpyAt q.bytes (s.optlen cfg) data = List.replicate (s.optlen cfg) 0 ++ data := by
      rw [hbytes, memcpyAt, List.take_replicate, List.drop_replicate, min_eq_left (by omega),
        show data.length + s.optlen cfg - (s.optlen cfg + data.length) = 0 by omega, List.replicate_zero,
        List.append_nil]
    have hlen : (memcpyAt q.bytes (s.optlen cfg) data).length = s.optlen cfg + data.length := by
      rw [hcopied, List.length_append, List.length_replicate]
    refine ⟨?_, ⟨?_, trivial⟩, fun x hx ↦ ?_, ⟨_, [], rfl, ⟨htype, by dsimp only; omega, ?_⟩, hlow, ?_⟩,
      q.payload + s.optlen cfg, (if_pos hcopy).symm⟩
    · exact (List.append_nil _).trans hcopied
    · rw [txBytes_cons, txBytes_nil, List.append_nil]
      dsimp only
      rw [hlen, htot, toU16, Nat.mod_eq_of_lt (by omega), Nat.add_comm]
    · obtain rfl := List.mem_singleton.1 hx
      rw [TxPbuf.Small, hlen, hroom]
      omega
    · dsimp only
      rw [hlen, hroom]
      omega
    · dsimp only
      omega
  · rcases hr : pbufAlloc mem m .transport data.length .rom with ⟨- | p2, m₁⟩ <;> rw [hr] at h <;> dsimp only at h
    · cases h
    obtain ⟨htype₂, -, hroom₂, htot₂, -⟩ := pbufAlloc_some hr
    rcases hr' : pbufAlloc mem m₁ .transport (s.optlen cfg) .ram with ⟨- | q, m₂⟩ <;> rw [hr'] at h <;>
      obtain ⟨ps, hps, heq⟩ := Option.map_eq_some_iff.1 h
    · cases heq
    obtain ⟨heq, -⟩ := Prod.mk.inj heq
    obtain rfl := Option.some.inj heq
    obtain ⟨htype, hbytes, hroom, htot, hpayload⟩ := pbufAlloc_some hr'
    obtain ⟨hlow, hhigh⟩ := hpayload rfl
    obtain ⟨hcat, htotals, hsmall, c₁, cs, c₁', cs', hc, hc', htype', haddr', hpayload', hlen', hroom'⟩ := txCat_spec hps
    obtain ⟨rfl, rfl⟩ := List.cons.inj hc
    have hdata' : txBytes [{ p2 with payload := src, bytes := data }] = data := List.append_nil _
    have hopts : txBytes [q] = List.replicate (s.optlen cfg) 0 := (List.append_nil _).trans hbytes
    rw [hbytes, hroom, List.length_replicate] at hroom'
    rw [hbytes, List.length_replicate] at hlen'
    refine ⟨by rw [hcat, hdata', hopts], htotals ⟨?_, trivial⟩ ⟨?_, trivial⟩, hsmall (fun x hx ↦ ?_) (fun x hx ↦ ?_),
      ⟨c₁', cs', hc', ⟨htype'.trans htype, ?_, ?_⟩, ?_, hlen'⟩, 0, (if_neg hcopy).symm⟩
    · rw [hdata', toU16, Nat.mod_eq_of_lt (by omega)]
      exact htot₂
    · rw [hopts, List.length_replicate, toU16, Nat.mod_eq_of_lt (by omega), htot]
    · obtain rfl := List.mem_singleton.1 hx
      rw [TxPbuf.Small, hroom₂]
      dsimp only
      omega
    · obtain rfl := List.mem_singleton.1 hx
      rw [TxPbuf.Small, hbytes, hroom, List.length_replicate]
      omega
    all_goals
      rw [haddr', hpayload']
      omega

/-! ### New segments -/

/-- **A new segment** with `data`, which is at `pos` of what is written. -/
structure NewSeg (cfg : TxConf) (s : TxPcb) (c : WriteCall) (pos : ℕ) (data : List Byte) (seg : TxSeg) : Prop where
  laid : seg.Laid [] (List.replicate (tcpHlen + s.optlen cfg) 0) data
  len : seg.len = data.length
  optsMss : seg.optsMss = false
  optsTs : seg.optsTs = s.optsTs cfg
  headroom : ∃ b bs, seg.p = b :: bs ∧ b.addr + sizeofStructPbuf + (PbufLayer.transport.offset - tcpHlen) ≤ b.payload
  sum : ∃ dst, (seg.chksum, seg.chksumSwapped) =
    if c.copies cfg = true then cfg.copySum dst data else (cfg.nocopyChksum (c.argAddr + pos) data, false)
  dataChecksummed : seg.dataChecksummed = cfg.checksumOnCopy
  tcphdr : seg.tcphdr = ⟨s.localPort, s.remotePort, s.sndLbb + BitVec.ofNat 32 pos, 0, 5 + s.optlen cfg / 4, 0, 0, 0, 0⟩

theorem tcpCreateSegment_some {flags : BitVec 6} {seqno : SeqNum} {optsMss optsTs : Bool}
    (h : tcpCreateSegment mem m s p flags seqno optsMss optsTs = some (some seg, m')) :
    ∃ a p', pbufHeader tcpHlen p = some p' ∧ seg = {
      addr := a
      p := p'
      len := toU16 (txTotLen p + 2 ^ 16 - optLength optsMss optsTs)
      oversizeLeft := 0
      chksum := 0
      chksumSwapped := false
      optsMss := optsMss
      optsTs := optsTs
      dataChecksummed := false
      hdrAt := (p'.head?.map TxPbuf.payload).getD 0
      tcphdr := ⟨s.localPort, s.remotePort, seqno, 0, 5 + optLength optsMss optsTs / 4, flags, 0, 0, 0⟩ } := by
  rw [tcpCreateSegment] at h
  rcases ha : m.malloc mem .tcpSeg with ⟨- | a, m₁⟩ <;> rw [ha] at h <;> dsimp only at h
  · obtain ⟨m₂, -, heq⟩ := Option.map_eq_some_iff.1 h
    cases heq
  rcases hp' : pbufHeader tcpHlen p with - | p' <;> rw [hp'] at h <;> dsimp only at h
  · obtain ⟨m₂, -, heq⟩ := Option.map_eq_some_iff.1 h
    cases heq
  · cases h
    exact ⟨a, p', rfl, rfl⟩

/-- **The header** is in front of what the first pbuf holds. -/
theorem pbufHeader_spec {n : ℕ} (h : pbufHeader n p = some p') :
    txBytes p' = List.replicate n 0 ++ txBytes p ∧ (TxTotals p → TxTotals p') ∧
      ∃ b bs, p = b :: bs ∧ b.addr + sizeofStructPbuf + n ≤ b.payload ∧ p' = { b with
        payload := b.payload - n
        bytes := List.replicate n 0 ++ b.bytes
        totLen := toU16 (b.totLen + n) } :: bs := by
  rcases p with - | ⟨b, bs⟩
  · cases h
  rw [pbufHeader] at h
  split_ifs at h with hroom
  obtain rfl := Option.some.inj h
  refine ⟨by simp, fun ht ↦ ⟨?_, ht.2⟩, b, bs, rfl, hroom.2, rfl⟩
  dsimp only
  rw [ht.1, toU16_add]
  simp [Nat.add_comm]

/-- **One round of phase 3** makes a segment with the next bytes. -/
theorem newTxSeg_spec (h : newTxSeg cfg mem s c pos acc m = some (some acc', m')) (hwnd : s.sndWndMax < 2 ^ 16)
    (hdata : ((c.arg.drop pos).take (s.seglen cfg (c.arg.length - pos))).length + s.optlen cfg + 81 < 2 ^ 16) :
    ∃ seg, acc'.queue = acc.queue ++ [seg] ∧
      NewSeg cfg s c pos ((c.arg.drop pos).take (s.seglen cfg (c.arg.length - pos))) seg := by
  simp only [newTxSeg] at h
  set data := (c.arg.drop pos).take (s.seglen cfg (c.arg.length - pos)) with hd
  rcases hr : segPbufs cfg mem s c (c.argAddr + pos) data acc.oversize acc.queue.isEmpty m with - | ⟨- | b, m₁⟩ <;>
    rw [hr] at h <;> dsimp only at h
  · cases h
  · cases h
  split_ifs at h with hlimit
  · obtain ⟨m₂, -, heq⟩ := Option.map_eq_some_iff.1 h
    cases heq
  obtain ⟨⟨r, m₂⟩, hseg, heq⟩ := Option.map_eq_some_iff.1 h
  obtain ⟨seg, hsome, rfl⟩ := Option.map_eq_some_iff.1 (congrArg Prod.fst heq)
  obtain rfl : r = some seg := hsome
  obtain ⟨a, p', hp', rfl⟩ := tcpCreateSegment_some hseg
  obtain ⟨hbytes, htotals, hsmall, ⟨q, qs, hq, hinside, hlow, hlen⟩, hsum⟩ := segPbufs_right hr hwnd hdata
  obtain ⟨hbytes', htotals', q', qs', hq', hroom, rfl⟩ := pbufHeader_spec hp'
  obtain ⟨rfl, rfl⟩ := List.cons.inj (hq.symm.trans hq')
  have hsize : sizeofStructPbuf = 24 := rfl
  have hoffset : PbufLayer.transport.offset = 54 := rfl
  have htcp : tcpHlen = 20 := rfl
  have hextent := hinside.extent
  have hopt : optLength false (s.optsTs cfg) = s.optlen cfg := rfl
  have htot := htotals.txTotLen_eq
  rw [hbytes, List.length_append, List.length_replicate, toU16, Nat.mod_eq_of_lt (by omega)] at htot
  have hseglen : toU16 (txTotLen b.p + 2 ^ 16 - optLength false (s.optsTs cfg)) = data.length := by
    rw [hopt, htot, toU16]
    omega
  refine ⟨_, rfl, ?_⟩
  exact {
    laid := {
      bytes := by
        dsimp only
        rw [hbytes', hbytes, List.nil_append, ← List.append_assoc, List.replicate_append_replicate]
      length_hdr := List.length_replicate
      first := by
        refine ⟨_, qs, rfl, ⟨hinside.type, ?_, ?_⟩, ?_, rfl⟩ <;> dsimp only
        · omega
        · rw [List.length_append, List.length_replicate]
          omega
        · rw [List.length_nil, List.length_replicate, List.length_append, List.length_replicate]
          omega
      len := by
        dsimp only
        rw [hseglen, toU16, Nat.mod_eq_of_lt (by omega)]
      totals := htotals' htotals
      small := fun x hx ↦ by
        rcases List.mem_cons.1 hx with rfl | hx
        · rw [TxPbuf.Small, List.length_append, List.length_replicate]
          dsimp only
          omega
        · exact hsmall x (hq ▸ List.mem_cons_of_mem _ hx)
      hdrlen := rfl }
    len := hseglen
    optsMss := rfl
    optsTs := rfl
    headroom := ⟨_, qs, rfl, by
      dsimp only
      omega⟩
    sum := hsum
    dataChecksummed := rfl
    tcphdr := rfl }

/-- The bytes of the round at `pos`. -/
def piece (cfg : TxConf) (s : TxPcb) (c : WriteCall) (pos : ℕ) : List Byte :=
  (c.arg.drop pos).take (s.seglen cfg (c.arg.length - pos))

/-- **The new segments** have what is behind `pos`, one piece each. -/
def NewSegs (cfg : TxConf) (s : TxPcb) (c : WriteCall) : ℕ → List TxSeg → Prop
  | pos, [] => c.arg.length ≤ pos
  | pos, seg :: segs => pos < c.arg.length ∧ NewSeg cfg s c pos (piece cfg s c pos) seg ∧
      NewSegs cfg s c (pos + s.seglen cfg (c.arg.length - pos)) segs

theorem NewSegs.of_mem {pos : ℕ} {segs : List TxSeg} (h : NewSegs cfg s c pos segs) {seg : TxSeg} (hseg : seg ∈ segs) :
    ∃ i, i < c.arg.length ∧ NewSeg cfg s c i (piece cfg s c i) seg := by
  induction segs generalizing pos with
  | nil => cases hseg
  | cons x xs ih =>
    obtain ⟨hlt, hx, hxs⟩ := h
    rcases List.mem_cons.1 hseg with rfl | hmem
    · exact ⟨pos, hlt, hx⟩
    · exact ih hxs hmem

/-- **Phase 3**, when it comes to the end. -/
theorem newTxSegs_spec {fuel : ℕ} {r : TxNew} (h : newTxSegs cfg mem s c fuel pos acc m = some (true, r, m'))
    (hwnd : s.sndWndMax < 2 ^ 16) (hdata : ∀ pos, (piece cfg s c pos).length + s.optlen cfg + 81 < 2 ^ 16) :
    ∃ segs, r.queue = acc.queue ++ segs ∧ NewSegs cfg s c pos segs := by
  induction fuel generalizing pos acc m with
  | zero =>
    rw [newTxSegs] at h
    split_ifs at h with hend
    cases h
    exact ⟨[], (List.append_nil _).symm, hend⟩
  | succ fuel ih =>
    rw [newTxSegs] at h
    split_ifs at h with hend
    · cases h
      exact ⟨[], (List.append_nil _).symm, hend⟩
    rcases hr : newTxSeg cfg mem s c pos acc m with - | ⟨- | acc', m₁⟩ <;> rw [hr] at h <;> dsimp only at h
    · cases h
    · cases h
    obtain ⟨seg, hqueue, hseg⟩ := newTxSeg_spec hr hwnd (hdata pos)
    obtain ⟨segs, hsegs, hrest⟩ := ih h
    exact ⟨seg :: segs, by rw [hsegs, hqueue, List.append_assoc]; rfl, not_le.1 hend, hseg, hrest⟩

/-! ### The last segment -/

/-- **A pbuf for the last segment** with `data`, which is a part of what is written. -/
structure Concat.Right (cfg : TxConf) (copies : Bool) (data : List Byte) (k : Concat) : Prop where
  bytes : k.p.bytes = data
  totLen : k.p.totLen = data.length
  small : k.p.Small
  sum : ∃ a, (k.chksum, k.chksumSwapped) = if copies = true then cfg.copySum a data else cfg.nocopySum a data

theorem concatPbuf_right {space : ℕ} {k : Concat}
    (h : concatPbuf cfg mem s c src data space length m = some (some (k, oversize), m'))
    (hspace : space < 2 ^ 16) (hdata : data.length < 2 ^ 16) : k.Right cfg (c.copies cfg) data := by
  rw [concatPbuf] at h
  split_ifs at h with hcopy
  · rcases hr : tcpPbufPrealloc cfg mem s .raw data.length space c.more true m with ⟨- | ⟨q, oversize'⟩, m₁⟩ <;>
      rw [hr] at h
    · cases h
    obtain ⟨q', hq', heq⟩ := Option.map_eq_some_iff.1 h
    obtain ⟨hsome, -⟩ := Prod.mk.inj heq
    obtain ⟨rfl, -⟩ := Prod.mk.inj (Option.some.inj hsome)
    obtain ⟨-, hbytes, hroom, htot, -, -⟩ := tcpPbufPrealloc_some hr
    obtain ⟨hfits, rfl⟩ := TxPbuf.copyIn_some hq'
    rw [hbytes, List.length_replicate] at hfits
    have hle : data.length ≤ preallocSize cfg s data.length space c.more true := by omega
    have hmax := preallocSize_le s hle
    have hcopied : memcpyAt q.bytes 0 data = data := by
      rw [hbytes, memcpyAt, List.take_zero, List.nil_append, Nat.zero_add, List.drop_replicate,
        min_eq_left hle, Nat.sub_self, List.replicate_zero, List.append_nil]
    refine ⟨hcopied, htot, ?_, q.payload, (if_pos hcopy).symm⟩
    rw [TxPbuf.Small, hcopied]
    dsimp only
    omega
  · rcases hr : pbufAlloc mem m .raw data.length .rom with ⟨- | q, m₁⟩ <;> rw [hr] at h <;> cases h
    obtain ⟨-, -, hroom, htot, -⟩ := pbufAlloc_some hr
    refine ⟨rfl, htot, ?_, src, (if_neg hcopy).symm⟩
    rw [TxPbuf.Small, hroom]
    exact hdata

/-- Whether phase 2 chains a pbuf to the last segment. -/
def TxPcb.Chains (s : TxPcb) (last : TxSeg) (len : ℕ) : Prop :=
  s.oversizeUsed len < len ∧ 0 < s.spaceLeft last len ∧ 0 < last.len

/-- **Phases 1 and 2**: what is prepared for the last segment. -/
structure TailPlan (cfg : TxConf) (s : TxPcb) (c : WriteCall) (s₁ : TxPcb) (v : WriteVars) (last : TxSeg) : Prop where
  getLast : s.unsent.getLast? = some last
  state : ∃ x, s₁ = { s with unsent := s.unsent.dropLast ++ [{ last with oversizeLeft := x }] }
  used : v.oversizeUsed = s.oversizeUsed c.arg.length
  plain : ¬s.Chains last c.arg.length → v.concat = none ∧ v.pos = v.oversizeUsed
  chained : s.Chains last c.arg.length → v.pos = v.oversizeUsed + s.concatLen last c.arg.length ∧ ∃ k, v.concat = some k ∧
    k.Right cfg (c.copies cfg) ((c.arg.drop v.oversizeUsed).take (s.concatLen last c.arg.length))

theorem extendTail_spec {s₁ : TxPcb} {v : WriteVars} (h : extendTail cfg mem s c m = some (some (s₁, v), m')) :
    (s.unsent = [] ∧ s.unsentOversize = 0 ∧ s₁ = s ∧ v = ⟨0, s.sndQueuelen, 0, 0, none⟩) ∨
      ∃ last, TailPlan cfg s c s₁ v last := by
  rw [extendTail] at h
  rcases hlast : s.unsent.getLast? with - | last <;> rw [hlast] at h <;> dsimp only at h
  · split_ifs at h with hover
    cases h
    exact Or.inl ⟨List.getLast?_eq_none_iff.1 hlast, hover, rfl, rfl⟩
  refine Or.inr ⟨last, ?_⟩
  have hself : s.unsent.dropLast ++ [last] = s.unsent := List.dropLast_append_getLast? last hlast
  split_ifs at h with hcheck hextend
  · obtain ⟨⟨r, m₁⟩, hconcat, heq⟩ := Option.map_eq_some_iff.1 h
    obtain ⟨⟨k, oversize⟩, hk, hvars⟩ := Option.map_eq_some_iff.1 (congrArg Prod.fst heq)
    obtain rfl : r = some (k, oversize) := hk
    obtain ⟨rfl, rfl⟩ := Prod.mk.inj hvars
    refine ⟨hlast, ?_, rfl, fun hno ↦ absurd hextend hno, fun _ ↦ ⟨rfl, k, rfl, ?_⟩⟩
    · rw [addOversizeLeft]
      split_ifs
      · exact ⟨last.oversizeLeft + BitVec.ofNat 16 oversize, by rw [mapLast, hlast]⟩
      · exact ⟨last.oversizeLeft, by rw [hself]⟩
    · refine concatPbuf_right hconcat (Nat.mod_lt _ (by decide)) ?_
      have hle : ((c.arg.drop (s.oversizeUsed c.arg.length)).take (s.concatLen last c.arg.length)).length ≤
          c.arg.length := by
        rw [List.length_take, List.length_drop]
        omega
      exact hle.trans_lt c.length_lt
  · cases h
    exact ⟨hlast, ⟨last.oversizeLeft, by rw [hself]⟩, rfl, fun _ ↦ ⟨rfl, rfl⟩, fun hchain ↦ absurd hchain hextend⟩

/-- What stays as it is when a segment is extended. -/
structure SameHeader (seg seg' : TxSeg) : Prop where
  optsMss : seg'.optsMss = seg.optsMss
  optsTs : seg'.optsTs = seg.optsTs
  hdrAt : seg'.hdrAt = seg.hdrAt
  tcphdr : seg'.tcphdr = seg.tcphdr

theorem SameHeader.optLen {seg' : TxSeg} (h : SameHeader seg seg') : seg'.optLen = seg.optLen := by
  rw [TxSeg.optLen, TxSeg.optLen, h.optsMss, h.optsTs]

theorem SameHeader.trans {seg' seg'' : TxSeg} (h : SameHeader seg seg') (h' : SameHeader seg' seg'') :
    SameHeader seg seg'' :=
  ⟨h'.optsMss.trans h.optsMss, h'.optsTs.trans h.optsTs, h'.hdrAt.trans h.hdrAt, h'.tcphdr.trans h.tcphdr⟩

theorem commitFill_spec {seg' : TxSeg} (h : commitFill cfg more seg = some seg') :
    SameHeader seg seg' ∧ (more = [] → seg' = seg) ∧ (more ≠ [] → seg'.len = toU16 (seg.len + more.length)) ∧
      ∀ front hdr data, seg.Laid front hdr data → seg'.Laid front hdr (data ++ more) := by
  rw [commitFill] at h
  split at h
  · next hnil =>
    obtain rfl := List.eq_nil_of_length_eq_zero hnil
    cases h
    exact ⟨⟨rfl, rfl, rfl, rfl⟩, fun _ ↦ rfl, fun hne ↦ absurd rfl hne, fun _ _ data hlaid ↦ by rwa [List.append_nil]⟩
  · next hnil =>
    obtain ⟨p', hfill, h⟩ := Option.bind_eq_some_iff.1 h
    split at h
    · cases h
    obtain rfl := Option.some.inj h
    exact ⟨⟨rfl, rfl, rfl, rfl⟩, fun hnil' ↦ absurd (congrArg List.length hnil') hnil, fun _ ↦ rfl,
      fun _ _ _ hlaid ↦ hlaid.fill hfill rfl rfl rfl rfl rfl⟩

theorem commitConcat_spec {k : Concat} {seg' : TxSeg} {copies : Bool} (hk : k.Right cfg copies more)
    (h : commitConcat cfg k seg = some seg') :
    SameHeader seg seg' ∧ seg'.len = toU16 (seg.len + more.length) ∧
      ∀ front hdr data, seg.Laid front hdr data → seg'.Laid front hdr (data ++ more) := by
  obtain ⟨p', hcat, rfl⟩ := Option.map_eq_some_iff.1 h
  refine ⟨⟨rfl, rfl, rfl, rfl⟩, congrArg (fun n ↦ toU16 (seg.len + n)) hk.totLen, fun front hdr data hlaid ↦ ?_⟩
  have hlen : k.p.bytes.length = more.length := congrArg List.length hk.bytes
  have hlt := hk.small.length_lt
  rw [← hk.bytes]
  refine hlaid.concat hcat ?_ hk.small rfl ?_ rfl rfl rfl
  · rw [hk.totLen, toU16, Nat.mod_eq_of_lt hlt, hlen]
  · dsimp only
    rw [hk.totLen, hlen]

/-- **The last segment at the end** has, behind its data, what the call writes up to `v.pos`. -/
structure TailDone (cfg : TxConf) (c : WriteCall) (v : WriteVars) (seg seg' : TxSeg) : Prop where
  header : SameHeader seg seg'
  same : v.pos = 0 → seg'.p = seg.p ∧ seg'.len = seg.len
  len : v.pos ≠ 0 → seg'.len = toU16 (seg.len + v.pos)
  laid : ∀ front hdr data, seg.Laid front hdr data → seg'.Laid front hdr (data ++ c.arg.take v.pos)

theorem TailPlan.le {s₁ : TxPcb} {v : WriteVars} {last : TxSeg} (h : TailPlan cfg s c s₁ v last) :
    v.oversizeUsed ≤ v.pos ∧ v.pos ≤ c.arg.length := by
  have hused := h.used
  rw [TxPcb.oversizeUsed] at hused
  by_cases hchain : s.Chains last c.arg.length
  · obtain ⟨hpos, -⟩ := h.chained hchain
    rw [TxPcb.concatLen, ← h.used] at hpos
    split_ifs at hused hpos <;> omega
  · obtain ⟨-, hpos⟩ := h.plain hchain
    split_ifs at hused <;> omega

/-- The steps of the commitment of phases 1 and 2, where `last` may have been told of some room. -/
theorem commitTail_some {v : WriteVars} {q q' : List TxSeg} {last : TxSeg} (h : commitTail cfg c v q = some q')
    (hlast : q.getLast? = some last) :
    ∃ mid last', commitFill cfg (c.arg.take v.oversizeUsed) last = some mid ∧
      (v.concat.map fun k ↦ commitConcat cfg k mid).getD (some mid) = some last' ∧ q' = q.dropLast ++ [last'] := by
  simp only [commitTail, hlast] at h
  obtain ⟨mid, hmid, h⟩ := Option.bind_eq_some_iff.1 h
  obtain ⟨last', hlast', rfl⟩ := Option.map_eq_some_iff.1 h
  exact ⟨mid, last', hmid, hlast', rfl⟩

theorem TailPlan.done {s₁ : TxPcb} {v : WriteVars} {last last' mid : TxSeg} (h : TailPlan cfg s c s₁ v last)
    {x : BitVec 16} (hmid : commitFill cfg (c.arg.take v.oversizeUsed) { last with oversizeLeft := x } = some mid)
    (hlast' : (v.concat.map fun k ↦ commitConcat cfg k mid).getD (some mid) = some last') :
    TailDone cfg c v last last' := by
  obtain ⟨hle, hend⟩ := h.le
  obtain ⟨hheader, hnil, hlen, hlaid⟩ := commitFill_spec hmid
  have hheader' : SameHeader last mid := ⟨hheader.optsMss, hheader.optsTs, hheader.hdrAt, hheader.tcphdr⟩
  have hlaid' : ∀ front hdr data, last.Laid front hdr data → mid.Laid front hdr (data ++ c.arg.take v.oversizeUsed) :=
    fun front hdr data hl ↦ hlaid front hdr data ⟨hl.bytes, hl.length_hdr, hl.first, hl.len, hl.totals, hl.small, hl.hdrlen⟩
  have htake : (c.arg.take v.oversizeUsed).length = v.oversizeUsed := List.length_take_of_le (hle.trans hend)
  have hzero : v.oversizeUsed = 0 → mid.p = last.p ∧ mid.len = last.len := fun hzero ↦ by
    rw [hnil (by rw [hzero, List.take_zero])]
    exact ⟨rfl, rfl⟩
  have hpos : v.oversizeUsed ≠ 0 → mid.len = toU16 (last.len + v.oversizeUsed) := fun hne ↦ by
    rw [hlen (List.ne_nil_of_length_pos (by omega)), htake]
  by_cases hchain : s.Chains last c.arg.length
  · obtain ⟨hv, k, hk, hright⟩ := h.chained hchain
    have hconcat : 0 < s.concatLen last c.arg.length := by
      obtain ⟨hused, hspace, -⟩ := hchain
      rw [TxPcb.concatLen]
      split_ifs <;> omega
    rw [hk] at hlast'
    obtain ⟨hheader'', hlen', hlaid''⟩ := commitConcat_spec hright hlast'
    have hpiece : ((c.arg.drop v.oversizeUsed).take (s.concatLen last c.arg.length)).length =
        s.concatLen last c.arg.length := by
      rw [List.length_take_of_le]
      rw [List.length_drop]
      omega
    refine ⟨hheader'.trans hheader'', fun hzero' ↦ by omega, fun _ ↦ ?_, fun front hdr data hl ↦ ?_⟩
    · rw [hlen', hpiece, hv]
      rcases Nat.eq_zero_or_pos v.oversizeUsed with hz | hp
      · rw [(hzero hz).2, hz, Nat.zero_add]
      · rw [hpos hp.ne', toU16_add, Nat.add_assoc]
    · rw [hv, List.take_add, ← List.append_assoc]
      exact hlaid'' _ _ _ (hlaid' _ _ _ hl)
  · obtain ⟨hk, hv⟩ := h.plain hchain
    rw [hk] at hlast'
    obtain rfl := Option.some.inj hlast'
    refine ⟨hheader', fun hz ↦ hzero (by omega), fun hne ↦ by rw [hpos (by omega), hv], fun front hdr data hl ↦ ?_⟩
    rw [hv]
    exact hlaid' _ _ _ hl

/-! ### A call that succeeds -/

/-- The last segment of a queue may have got the flag `PSH`. -/
def Pushed (q q' : List TxSeg) : Prop := q' = q ∨ q' = mapLast (TxSeg.setFlag tcpPsh) q

theorem getElem?_mapLast {q : List TxSeg} (f : TxSeg → TxSeg) (i : ℕ) :
    (mapLast f q)[i]? = q[i]? ∨ (mapLast f q)[i]? = q[i]?.map f := by
  rw [mapLast]
  split
  · exact .inl rfl
  · next last hlast =>
    nth_rewrite 2 4 [← List.dropLast_append_getLast? last hlast]
    rcases lt_trichotomy i q.dropLast.length with hi | hi | hi
    · refine .inl ?_
      rw [List.getElem?_append_left hi, List.getElem?_append_left hi]
    · refine .inr ?_
      rw [hi, List.getElem?_concat_length, List.getElem?_concat_length]
      rfl
    · refine .inl ?_
      rw [List.getElem?_eq_none, List.getElem?_eq_none] <;> rw [List.length_append, List.length_singleton] <;> omega

theorem length_mapLast {q : List TxSeg} (f : TxSeg → TxSeg) : (mapLast f q).length = q.length := by
  rw [mapLast]
  split
  · rfl
  · next last hlast =>
    nth_rewrite 2 [← List.dropLast_append_getLast? last hlast]
    rw [List.length_append, List.length_append, List.length_singleton, List.length_singleton]

theorem Pushed.length_eq {q q' : List TxSeg} (h : Pushed q q') : q'.length = q.length := by
  rcases h with rfl | rfl
  · rfl
  · exact length_mapLast _

/-- The flag is all that is changed. -/
theorem Pushed.getElem? {q q' : List TxSeg} (h : Pushed q q') {i : ℕ} {seg' : TxSeg} (hi : q'[i]? = some seg') :
    ∃ seg, q[i]? = some seg ∧ (seg' = seg ∨ seg' = seg.setFlag tcpPsh) := by
  rcases h with rfl | rfl
  · exact ⟨seg', hi, .inl rfl⟩
  · rcases getElem?_mapLast (TxSeg.setFlag tcpPsh) i (q := q) with heq | heq <;> rw [heq] at hi
    · exact ⟨seg', hi, .inl rfl⟩
    · obtain ⟨seg, hseg, rfl⟩ := Option.map_eq_some_iff.1 hi
      exact ⟨seg, hseg, .inr rfl⟩

theorem Pushed.of_mem {q q' : List TxSeg} (h : Pushed q q') {seg' : TxSeg} (hmem : seg' ∈ q') :
    ∃ seg ∈ q, seg' = seg ∨ seg' = seg.setFlag tcpPsh := by
  obtain ⟨i, hi⟩ := List.mem_iff_getElem?.1 hmem
  obtain ⟨seg, hseg, heq⟩ := h.getElem? hi
  exact ⟨seg, List.mem_of_getElem? hseg, heq⟩

theorem TxSeg.Laid.setFlag (h : seg.Laid front hdr data) (flag : BitVec 6) :
    (seg.setFlag flag).Laid front hdr data :=
  ⟨h.bytes, h.length_hdr, h.first, h.len, h.totals, h.small, h.hdrlen⟩

/-- **What `tcp_write` does** when it returns `ERR_OK`: the phases, and what is committed. -/
structure Writes (cfg : TxConf) (mem : ℕ → Option ℕ) (s : TxPcb) (c : WriteCall) (m : Pools) (s' : TxPcb)
    (v : WriteVars) (q new : List TxSeg) : Prop where
  checks : tcpWriteChecks s c.arg.length = some (.ok, s)
  phases : ∃ s₁ m₁ r m₂, extendTail cfg mem s c m = some (some (s₁, v), m₁) ∧
    newTxSegs cfg mem s₁ c (tcpSndQueuelen + 1) v.pos ⟨[], v.queuelen, v.oversize⟩ m₁ = some (true, r, m₂) ∧
    new = r.queue ∧ commitTail cfg c v s₁.unsent = some q ∧ s'.unsentOversize = r.oversize ∧
    s'.sndQueuelen = r.queuelen
  unsent : Pushed (q ++ new) s'.unsent
  unacked : s'.unacked = s.unacked
  sndLbb : s'.sndLbb = s.sndLbb + BitVec.ofNat 32 c.arg.length
  sndBuf : s'.sndBuf = s.sndBuf - c.arg.length
  fixed : s'.state = s.state ∧ s'.nodelay = s.nodelay ∧ s'.nagleMemErr = s.nagleMemErr ∧ s'.timestamp = s.timestamp ∧
    s'.localPort = s.localPort ∧ s'.remotePort = s.remotePort ∧ s'.mss = s.mss ∧ s'.sndWndMax = s.sndWndMax

variable {s' : TxPcb}

/-- Phases 1 and 2 change nothing but the segments on `unsent`. -/
theorem extendTail_frame {s₁ : TxPcb} {v : WriteVars} (h : extendTail cfg mem s c m = some (some (s₁, v), m')) :
    ∃ q, s₁ = { s with unsent := q } := by
  rcases extendTail_spec h with ⟨-, -, rfl, -⟩ | ⟨last, hplan⟩
  · exact ⟨s₁.unsent, rfl⟩
  · obtain ⟨x, rfl⟩ := hplan.state
    exact ⟨_, rfl⟩

theorem tcpWrite_ok (h : tcpWrite cfg mem s c m = some (.ok, s', m')) :
    ∃ v q new, Writes cfg mem s c m s' v q new := by
  rw [tcpWrite] at h
  split at h
  · cases h
  obtain ⟨⟨err, s₀⟩, hchecks, h⟩ := Option.bind_eq_some_iff.1 h
  rcases err with - | - | - | - | - | - <;> dsimp only at h
  case ok =>
    have hs₀ : s₀ = s := by
      rw [tcpWriteChecks] at hchecks
      split_ifs at hchecks <;> cases hchecks <;> rfl
    subst hs₀
    rcases hr : extendTail cfg mem s₀ c m with - | ⟨- | ⟨s₁, v⟩, m₁⟩ <;> rw [hr] at h <;> dsimp only at h
    · cases h
    · -- `memerr` does not return `ERR_OK`
      obtain ⟨m₂, -, h⟩ := Option.bind_eq_some_iff.1 h
      obtain ⟨m₃, -, h⟩ := Option.bind_eq_some_iff.1 h
      split_ifs at h
      cases h
    rcases hr' : newTxSegs cfg mem s₁ c (tcpSndQueuelen + 1) v.pos ⟨[], v.queuelen, v.oversize⟩ m₁
      with - | ⟨- | -, r, m₂⟩ <;> rw [hr'] at h <;> dsimp only at h
    · cases h
    · obtain ⟨m₂, -, h⟩ := Option.bind_eq_some_iff.1 h
      obtain ⟨m₃, -, h⟩ := Option.bind_eq_some_iff.1 h
      split_ifs at h
      cases h
    obtain ⟨s'', hcommit, heq⟩ := Option.map_eq_some_iff.1 h
    obtain ⟨rfl, rfl⟩ : s'' = s' ∧ m₂ = m' := by
      obtain ⟨-, heq⟩ := Prod.mk.inj heq
      exact Prod.mk.inj heq
    obtain ⟨q, hq, hcommit⟩ := Option.bind_eq_some_iff.1 hcommit
    obtain ⟨q', rfl⟩ := extendTail_frame hr
    dsimp only at hcommit
    split_ifs at hcommit
    obtain rfl := Option.some.inj hcommit
    refine ⟨v, q, r.queue, hchecks, ⟨_, m₁, r, m₂, hr, hr', rfl, hq, rfl, rfl⟩, ?_, rfl, rfl, rfl, rfl, rfl, rfl, rfl,
      rfl, rfl, rfl, rfl⟩
    dsimp only
    rw [setPsh]
    split_ifs
    · exact Or.inr rfl
    · exact Or.inl rfl
  all_goals cases h

namespace Writes

variable {v : WriteVars} {q new : List TxSeg}

/-- **The last segment** that was there: nothing, or what is committed to it. -/
theorem tail (h : Writes cfg mem s c m s' v q new) :
    (s.unsent = [] ∧ s.unsentOversize = 0 ∧ q = [] ∧ v.pos = 0) ∨
      ∃ s₁ last x mid last', TailPlan cfg s c s₁ v last ∧
        commitFill cfg (c.arg.take v.oversizeUsed) { last with oversizeLeft := x } = some mid ∧
        (v.concat.map fun k ↦ commitConcat cfg k mid).getD (some mid) = some last' ∧
        q = s.unsent.dropLast ++ [last'] := by
  obtain ⟨s₁, m₁, r, m₂, htail, -, -, hq, -, -⟩ := h.phases
  rcases extendTail_spec htail with ⟨hnil, hover, rfl, rfl⟩ | ⟨last, hplan⟩
  · refine Or.inl ⟨hnil, hover, ?_, rfl⟩
    simp only [commitTail, hnil, List.getLast?_nil] at hq
    exact (Option.some.inj hq).symm
  · obtain ⟨x, rfl⟩ := hplan.state
    obtain ⟨mid, last', hmid, hlast', rfl⟩ := commitTail_some hq List.getLast?_concat
    exact Or.inr ⟨_, last, x, mid, last', hplan, hmid, hlast', by rw [List.dropLast_concat]⟩

/-- As many as were there. -/
theorem length_eq (h : Writes cfg mem s c m s' v q new) : q.length = s.unsent.length := by
  rcases h.tail with ⟨hnil, -, rfl, -⟩ | ⟨s₁, last, x, mid, last', hplan, -, -, rfl⟩
  · rw [hnil]
  · have hone : [last'].length = [last].length := rfl
    rw [List.length_append, hone, ← List.length_append, List.dropLast_append_getLast? last hplan.getLast]

/-- What is written fits into the send buffer. -/
theorem length_le (h : Writes cfg mem s c m s' v q new) : c.arg.length ≤ s.sndBuf := by
  have hchecks := h.checks
  rw [tcpWriteChecks] at hchecks
  split_ifs at hchecks <;> first | omega | cases hchecks

/-- **The new segments**, as long as their sizes fit. -/
theorem newSegs (h : Writes cfg mem s c m s' v q new) (hwnd : s.sndWndMax < 2 ^ 16)
    (hdata : ∀ pos, (piece cfg s c pos).length + s.optlen cfg + 81 < 2 ^ 16) : NewSegs cfg s c v.pos new := by
  obtain ⟨s₁, m₁, r, m₂, htail, hloop, rfl, -, -, -⟩ := h.phases
  obtain ⟨q', rfl⟩ := extendTail_frame htail
  obtain ⟨segs, hsegs, hnew⟩ := newTxSegs_spec hloop hwnd hdata
  rw [hsegs]
  have hsame : ∀ pos segs, NewSegs cfg { s with unsent := q' } c pos segs → NewSegs cfg s c pos segs := by
    intro pos segs hs
    induction segs generalizing pos with
    | nil => exact hs
    | cons seg segs ih =>
      obtain ⟨hlt, hseg, hrest⟩ := hs
      exact ⟨hlt, ⟨hseg.laid, hseg.len, hseg.optsMss, hseg.optsTs, hseg.headroom, hseg.sum, hseg.dataChecksummed,
        hseg.tcphdr⟩, ih _ hrest⟩
  exact hsame _ _ hnew

end Writes

end Lwip.Tcp.Tx
