import LwipPoc.Tcp.TxBuffers

/-!
# `tcp_write` and the memory it takes

`tcp_write` of `core/tcp_out.c` on segments in memory, with all options that change what it does. It works in three
phases, each with an allocation or more that may fail: it goes on from the room behind the last segment on `unsent`
(phase 1), chains a pbuf to that segment (phase 2), and makes new segments (phase 3). What has been prepared is
committed at the end.

**A call that fails leaves no trace** but `TF_NAGLEMEMERR` (`tcpWrite_mem`). One thing is written to a queued segment
before the end, the `oversize_left` of the last one behind phase 2. If phase 3 can fail after that, something is left
to write, so the pbuf of phase 2 has all the space there was, and there is no room behind it.
-/

namespace Lwip.Tcp.Tx

open Lwip.Core (PbufLayer PbufType memcpyAt)
open Lwip.Ipv4 (Buffer lwipChksum inetChksum)
open Lwip.Ipv4.IpHdr (foldU32 swap16)

/-- A call: the data, where it lies, and the flags. -/
structure WriteCall where
  arg : List Byte
  /-- The length is a `u16_t`. -/
  length_lt : arg.length < 2 ^ 16
  argAddr : ℕ
  /-- `TCP_WRITE_FLAG_COPY`. -/
  copy : Bool
  /-- `TCP_WRITE_FLAG_MORE`. -/
  more : Bool

variable (cfg : TxConf) (mem : ℕ → Option ℕ)

/-! ### Checksums of data -/

/-- `tcp_seg_add_chksum`: the sum, and whether its bytes are swapped. -/
def tcpSegAddChksum (chksum len : ℕ) (sum : ℕ × Bool) : ℕ × Bool :=
  let chksum := toU16 (foldU32 (chksum + sum.1))
  if len % 2 ≠ 0 then (swap16 chksum, !sum.2) else (chksum, sum.2)

/-- `tcp_seg_add_chksum`, with `TCP_CHECKSUM_ON_COPY`. -/
def TxConf.addSum (chksum len : ℕ) (sum : ℕ × Bool) : ℕ × Bool :=
  if cfg.checksumOnCopy = true then tcpSegAddChksum chksum len sum else sum

/-- `TCP_DATA_COPY2`, on variables that are zero. -/
def TxConf.copySum (dst : ℕ) (data : List Byte) : ℕ × Bool :=
  cfg.addSum (lwipChksum cfg.alg ⟨dst, data⟩) data.length (0, false)

/-- The checksum of data that is not copied. -/
def TxConf.nocopyChksum (src : ℕ) (data : List Byte) : ℕ :=
  if cfg.checksumOnCopy = true then 2 ^ 16 - 1 - inetChksum cfg.alg ⟨src, data⟩ else 0

/-- Added to variables that are zero. -/
def TxConf.nocopySum (src : ℕ) (data : List Byte) : ℕ × Bool :=
  cfg.addSum (cfg.nocopyChksum src data) data.length (0, false)

/-- `seg->oversize_left = oversize`. -/
def TxConf.oversizeLeft (oversize : ℕ) : BitVec 16 :=
  if cfg.oversizeDbgcheck = true then BitVec.ofNat 16 oversize else 0

/-! ### Checks -/

/-- The assertions about `snd_queuelen` and the queues. -/
def TxPcb.ValidQueuelen (s : TxPcb) : Prop := s.sndQueuelen ≠ 0 → s.unacked ≠ [] ∨ s.unsent ≠ []

instance (s : TxPcb) : Decidable s.ValidQueuelen := inferInstanceAs (Decidable (_ → _))

/-- `tcp_write_checks`. -/
def tcpWriteChecks (s : TxPcb) (len : ℕ) : Option (Err × TxPcb) :=
  if s.state ≠ .established ∧ s.state ≠ .closeWait ∧ s.state ≠ .synSent ∧ s.state ≠ .synRcvd then
    some (.conn, s)
  else if len = 0 then some (.ok, s)
  else if s.sndBuf < len then some (.mem, { s with nagleMemErr := true })
  else if tcpSndQueuelen ≤ s.sndQueuelen ∨ tcpSndQueuelenOverflow < s.sndQueuelen then
    some (.mem, { s with nagleMemErr := true })
  else if s.sndQueuelen ≠ 0 then if s.unacked ≠ [] ∨ s.unsent ≠ [] then some (.ok, s) else none
  else if s.unacked = [] ∧ s.unsent = [] then some (.ok, s) else none

/-- `mss_local`. -/
def TxPcb.mssLocal (s : TxPcb) : ℕ := min s.mss (s.sndWndMax / 2)

/-- `optflags`: `TF_SEG_OPTS_TS` or nothing. -/
def TxPcb.optsTs (s : TxPcb) : Bool := cfg.timestamps && s.timestamp

/-- `optlen`. -/
def TxPcb.optlen (s : TxPcb) : ℕ := optLength false (s.optsTs cfg)

/-- `apiflags & TCP_WRITE_FLAG_COPY`. -/
def WriteCall.copies (c : WriteCall) : Bool := c.copy || cfg.txSinglePbuf

/-- `alloc` of `tcp_pbuf_prealloc`: the number of bytes that are allocated for `length` of them. -/
def preallocSize (s : TxPcb) (length maxLength : ℕ) (more firstSeg : Bool) : ℕ :=
  if cfg.txSinglePbuf = true then maxLength
  else if length < maxLength ∧ (more = true ∨ s.nodelay = false ∧
      (firstSeg = false ∨ s.unsent ≠ [] ∨ s.unacked ≠ [])) then
    min maxLength (Pcb.memAlignSize (length + tcpOversize))
  else length

/-- `tcp_pbuf_prealloc`: the pbuf, and `*oversize`. -/
def tcpPbufPrealloc (s : TxPcb) (layer : PbufLayer) (length maxLength : ℕ) (more firstSeg : Bool) (m : Pools) :
    Option (TxPbuf × ℕ) × Pools :=
  let alloc := preallocSize cfg s length maxLength more firstSeg
  let r := pbufAlloc mem m layer alloc .ram
  (r.1.map fun p ↦
    ({ p with bytes := p.bytes.take length, room := alloc - length, totLen := length },
      toU16 (alloc + 2 ^ 16 - length)), r.2)

/-- Copying into a pbuf. -/
def TxPbuf.copyIn (i : ℕ) (data : List Byte) (p : TxPbuf) : Option TxPbuf :=
  if i + data.length ≤ p.bytes.length then some { p with bytes := memcpyAt p.bytes i data } else none

/-! ### Phases 1 and 2 -/

/-- What will be chained to the last segment, with `concat_chksum` and `concat_chksum_swapped`. -/
structure Concat where
  p : TxPbuf
  chksum : ℕ
  chksumSwapped : Bool
  deriving DecidableEq, Repr

/-- A pbuf with a copy of `data`, which lies at `src`, or with a reference to it; and `oversize`. -/
def concatPbuf (s : TxPcb) (c : WriteCall) (src : ℕ) (data : List Byte) (space oversize : ℕ) (m : Pools) :
    Option (Option (Concat × ℕ) × Pools) :=
  if c.copies cfg = true then
    match tcpPbufPrealloc cfg mem s .raw data.length space c.more true m with
    | (none, m) => some (none, m)
    | (some (p, oversize), m) =>
      let sum := cfg.copySum p.payload data
      (p.copyIn 0 data).map fun p ↦ (some (⟨p, sum.1, sum.2⟩, oversize), m)
  else
    match pbufAlloc mem m .raw data.length .rom with
    | (none, m) => some (none, m)
    | (some p, m) =>
      let sum := cfg.nocopySum src data
      some (some (⟨{ p with payload := src, bytes := data }, sum.1, sum.2⟩, oversize), m)

/-- The local variables of `tcp_write` behind phase 2. -/
structure WriteVars where
  pos : ℕ
  queuelen : ℕ
  oversize : ℕ
  oversizeUsed : ℕ
  concat : Option Concat
  deriving DecidableEq, Repr

/-- Change the last segment of a queue. -/
def mapLast (f : TxSeg → TxSeg) (q : List TxSeg) : List TxSeg :=
  match q.getLast? with
  | none => q
  | some last => q.dropLast ++ [f last]

/-- `space`, as it is first computed. -/
def TxPcb.tailSpace (s : TxPcb) (last : TxSeg) : ℕ := toU16 (s.mssLocal + 2 ^ 18 - (last.len + last.optLen))

/-- `oversize_used`. -/
def TxPcb.oversizeUsed (s : TxPcb) (len : ℕ) : ℕ := if s.unsentOversize < len then s.unsentOversize else len

/-- `space` behind phase 1. -/
def TxPcb.spaceLeft (s : TxPcb) (last : TxSeg) (len : ℕ) : ℕ :=
  toU16 (s.tailSpace last + 2 ^ 16 - s.oversizeUsed len)

/-- `seglen` of phase 2. -/
def TxPcb.concatLen (s : TxPcb) (last : TxSeg) (len : ℕ) : ℕ :=
  if s.spaceLeft last len < len - s.oversizeUsed len then s.spaceLeft last len else len - s.oversizeUsed len

/-- With `TCP_OVERSIZE_DBGCHECK`, the last segment is told of the room behind a pbuf that data is copied into. -/
def addOversizeLeft (s : TxPcb) (c : WriteCall) (oversize : ℕ) : TxPcb :=
  if cfg.oversizeDbgcheck = true ∧ c.copies cfg = true then
    { s with unsent := mapLast (fun last ↦
        { last with oversizeLeft := last.oversizeLeft + BitVec.ofNat 16 oversize }) s.unsent }
  else s

/-- Phases 1 and 2. -/
def extendTail (s : TxPcb) (c : WriteCall) (m : Pools) : Option (Option (TxPcb × WriteVars) × Pools) :=
  match s.unsent.getLast? with
  | none =>
    if s.unsentOversize = 0 then some (some (s, ⟨0, s.sndQueuelen, 0, 0, none⟩), m) else none
  | some last =>
    if cfg.oversizeDbgcheck = true ∧ BitVec.ofNat 16 s.unsentOversize ≠ last.oversizeLeft then none
    else
      let used := s.oversizeUsed c.arg.length
      let space := s.spaceLeft last c.arg.length
      let oversize := s.unsentOversize - used
      if used < c.arg.length ∧ 0 < space ∧ 0 < last.len then
        let seglen := s.concatLen last c.arg.length
        (concatPbuf cfg mem s c (c.argAddr + used) ((c.arg.drop used).take seglen) space oversize m).map fun r ↦
          (r.1.map fun r ↦ (addOversizeLeft cfg s c r.2,
            ⟨used + seglen, toU16 (s.sndQueuelen + txClen [r.1.p]), r.2, used, some r.1⟩), r.2)
      else some (some (s, ⟨used, s.sndQueuelen, oversize, used, none⟩), m)

/-! ### Phase 3 -/

/-- The pbufs of a new segment, the sum of its data, and `oversize`. -/
structure SegPbufs where
  p : List TxPbuf
  chksum : ℕ
  chksumSwapped : Bool
  oversize : ℕ
  deriving DecidableEq, Repr

/-- The pbufs for a segment with a copy of `data`, which lies at `src`, or with a reference to it. -/
def segPbufs (s : TxPcb) (c : WriteCall) (src : ℕ) (data : List Byte) (oversize : ℕ) (first : Bool) (m : Pools) :
    Option (Option SegPbufs × Pools) :=
  if c.copies cfg = true then
    match tcpPbufPrealloc cfg mem s .transport (toU16 (data.length + s.optlen cfg)) s.mssLocal c.more first m with
    | (none, m) => some (none, m)
    | (some (p, oversize), m) =>
      if p.len < data.length then none
      else
        let sum := cfg.copySum (p.payload + s.optlen cfg) data
        (p.copyIn (s.optlen cfg) data).map fun p ↦ (some ⟨[p], sum.1, sum.2, oversize⟩, m)
  else if oversize ≠ 0 then none
  else
    match pbufAlloc mem m .transport data.length .rom with
    | (none, m) => some (none, m)
    | (some p2, m) =>
      let p2 := { p2 with payload := src, bytes := data }
      match pbufAlloc mem m .transport (s.optlen cfg) .ram with
      | (none, m) => (pbufFree [p2] m).map (none, ·)
      | (some p, m) => (txCat [p2] [p]).map fun p ↦ (some ⟨p, cfg.nocopyChksum src data, false, oversize⟩, m)

/-- What the loop of phase 3 carries along. -/
structure TxNew where
  queue : List TxSeg
  queuelen : ℕ
  oversize : ℕ
  deriving DecidableEq, Repr

/-- `max_len`. -/
def TxPcb.maxLen (s : TxPcb) : ℕ := toU16 (s.mssLocal + 2 ^ 16 - s.optlen cfg)

/-- `seglen`. -/
def TxPcb.seglen (s : TxPcb) (left : ℕ) : ℕ := if s.maxLen cfg < left then s.maxLen cfg else left

/-- One round of phase 3, at `pos`. -/
def newTxSeg (s : TxPcb) (c : WriteCall) (pos : ℕ) (acc : TxNew) (m : Pools) : Option (Option TxNew × Pools) :=
  let data := (c.arg.drop pos).take (s.seglen cfg (c.arg.length - pos))
  match segPbufs cfg mem s c (c.argAddr + pos) data acc.oversize acc.queue.isEmpty m with
  | none => none
  | some (none, m) => some (none, m)
  | some (some b, m) =>
    let queuelen := toU16 (acc.queuelen + txClen b.p)
    if tcpSndQueuelen < queuelen ∨ tcpSndQueuelenOverflow < queuelen then (pbufFree b.p m).map (none, ·)
    else
      (tcpCreateSegment mem m s b.p 0 (s.sndLbb + BitVec.ofNat 32 pos) false (s.optsTs cfg)).map fun r ↦
        (r.1.map fun seg ↦ {
          queue := acc.queue ++ [{ seg with
            oversizeLeft := cfg.oversizeLeft b.oversize
            chksum := b.chksum
            chksumSwapped := b.chksumSwapped
            dataChecksummed := cfg.checksumOnCopy }]
          queuelen := queuelen
          oversize := b.oversize }, r.2)

/-- Phase 3, from `pos` on: whether it comes to the end, and what has been made until then. Every round adds to the
length of the queue, which is limited, so that the limit on the rounds is never reached. -/
def newTxSegs (s : TxPcb) (c : WriteCall) : ℕ → ℕ → TxNew → Pools → Option (Bool × TxNew × Pools)
  | fuel, pos, acc, m =>
    if c.arg.length ≤ pos then some (true, acc, m)
    else
      match fuel with
      | 0 => none
      | fuel + 1 =>
        match newTxSeg cfg mem s c pos acc m with
        | none => none
        | some (none, m) => some (false, acc, m)
        | some (some acc, m) => newTxSegs s c fuel (pos + s.seglen cfg (c.arg.length - pos)) acc m

/-! ### The end -/

/-- The room behind the last pbuf of a chain is used. -/
def fillTail (data : List Byte) : List TxPbuf → Option (List TxPbuf)
  | [] => none
  | [p] =>
    if data.length ≤ p.room then
      some [{ p with
        bytes := p.bytes ++ data
        room := p.room - data.length
        totLen := toU16 (p.totLen + data.length) }]
    else none
  | p :: q :: ps => (fillTail data (q :: ps)).map ({ p with totLen := toU16 (p.totLen + data.length) } :: ·)

/-- Where the bytes of a chain end. -/
def txEnd (p : List TxPbuf) : ℕ := (p.getLast?.map fun q ↦ q.payload + q.len).getD 0

/-- Phase 1, committed. -/
def commitFill (data : List Byte) (last : TxSeg) : Option TxSeg :=
  if data.length = 0 then some last
  else
    (fillTail data last.p).bind fun p ↦
      if cfg.oversizeDbgcheck = true ∧ last.oversizeLeft.toNat < data.length then none
      else
        let sum :=
          cfg.addSum (lwipChksum cfg.alg ⟨txEnd last.p, data⟩) data.length (last.chksum, last.chksumSwapped)
        some { last with
          p := p
          len := toU16 (last.len + data.length)
          oversizeLeft := last.oversizeLeft - cfg.oversizeLeft data.length
          chksum := sum.1
          chksumSwapped := sum.2
          dataChecksummed := last.dataChecksummed || cfg.checksumOnCopy }

/-- Phase 2, committed. -/
def commitConcat (k : Concat) (last : TxSeg) : Option TxSeg :=
  (txCat [k.p] last.p).map fun p ↦
    let sum :=
      if k.p.bytes.length ≠ 0 then cfg.addSum k.chksum k.p.bytes.length (last.chksum, last.chksumSwapped)
      else (last.chksum, last.chksumSwapped)
    { last with
      p := p
      len := toU16 (last.len + k.p.totLen)
      chksum := sum.1
      chksumSwapped := sum.2
      dataChecksummed := last.dataChecksummed || (cfg.checksumOnCopy && decide (k.p.bytes.length ≠ 0)) }

/-- Phases 1 and 2, committed to the last segment on `unsent`. -/
def commitTail (c : WriteCall) (v : WriteVars) (q : List TxSeg) : Option (List TxSeg) :=
  match q.getLast? with
  | none => some q
  | some last =>
    (commitFill cfg (c.arg.take v.oversizeUsed) last).bind fun last ↦
      ((v.concat.map fun k ↦ commitConcat cfg k last).getD (some last)).map fun last ↦ q.dropLast ++ [last]

/-- `TCP_PSH` for the last segment. -/
def setPsh (push : Prop) [Decidable push] (q : List TxSeg) : List TxSeg :=
  if push then mapLast (TxSeg.setFlag tcpPsh) q else q

/-- All three phases, committed. `seg` is the last segment that was touched. -/
def commitWrite (s : TxPcb) (c : WriteCall) (v : WriteVars) (r : TxNew) : Option TxPcb :=
  (commitTail cfg c v s.unsent).bind fun q ↦
    let touched := r.queue ≠ [] ∨ 0 < s.unsentOversize ∨ v.concat.isSome = true
    let s' := { s with
      unsent := setPsh (touched ∧ c.more = false) (q ++ r.queue)
      unsentOversize := r.oversize
      sndLbb := s.sndLbb + BitVec.ofNat 32 c.arg.length
      sndBuf := s.sndBuf - c.arg.length
      sndQueuelen := r.queuelen }
    if s'.ValidQueuelen then some s' else none

/-- `memerr`. -/
def memerr (s : TxPcb) (concat : Option Concat) (queue : List TxSeg) (m : Pools) : Option (Err × TxPcb × Pools) :=
  (pbufFree (concat.map Concat.p).toList m).bind fun m ↦
    (tcpSegsFree queue m).bind fun m ↦
      if s.ValidQueuelen then some (.mem, { s with nagleMemErr := true }, m) else none

/-- `tcp_write`. -/
def tcpWrite (s : TxPcb) (c : WriteCall) (m : Pools) : Option (Err × TxPcb × Pools) :=
  if c.argAddr = 0 then none
  else
    (tcpWriteChecks s c.arg.length).bind fun r ↦
      match r.1 with
      | .ok =>
        match extendTail cfg mem s c m with
        | none => none
        | some (none, m) => memerr s none [] m
        | some (some (s, v), m) =>
          match newTxSegs cfg mem s c (tcpSndQueuelen + 1) v.pos ⟨[], v.queuelen, v.oversize⟩ m with
          | none => none
          | some (false, r, m) => memerr s v.concat r.queue m
          | some (true, r, m) => (commitWrite cfg s c v r).map (.ok, ·, m)
      | err => some (err, r.2, m)

/-! ### What is taken -/

section Live

variable {cfg : TxConf} {mem : ℕ → Option ℕ} {s s' : TxPcb} {c : WriteCall} {m m' : Pools} {layer : PbufLayer}
  {src length maxLength space oversize pos : ℕ} {data : List Byte} {more first : Bool} {acc : TxNew}
  {rest : Multiset (TxPool × ℕ)}

theorem tcpPbufPrealloc_live {r : Option (TxPbuf × ℕ)}
    (h : tcpPbufPrealloc cfg mem s layer length maxLength more first m = (r, m')) :
    m'.live = taken (fun r ↦ {r.1.slot}) r + m.live := by
  obtain ⟨rfl, rfl⟩ := Prod.mk.inj h
  rcases hp : pbufAlloc mem m layer (preallocSize cfg s length maxLength more first) .ram with ⟨- | p, m₁⟩ <;>
    exact pbufAlloc_live hp

theorem TxPbuf.copyIn_slot {i : ℕ} {p q : TxPbuf} (h : p.copyIn i data = some q) : q.slot = p.slot := by
  rw [TxPbuf.copyIn] at h
  split_ifs at h
  obtain rfl := Option.some.inj h
  rfl

/-- **Phase 2** takes the pbuf that it makes, or nothing. -/
theorem concatPbuf_live {r : Option (Concat × ℕ)}
    (h : concatPbuf cfg mem s c src data space oversize m = some (r, m')) :
    m'.live = taken (fun r ↦ {r.1.p.slot}) r + m.live := by
  rw [concatPbuf] at h
  split_ifs at h with hcopy
  · rcases hr : tcpPbufPrealloc cfg mem s .raw data.length space c.more true m with ⟨- | ⟨p, oversize'⟩, m₁⟩ <;>
      rw [hr] at h <;> have hlive := tcpPbufPrealloc_live hr
    · obtain ⟨rfl, rfl⟩ := Prod.mk.inj (Option.some.inj h)
      exact hlive
    · obtain ⟨q, hq, heq⟩ := Option.map_eq_some_iff.1 h
      obtain ⟨rfl, rfl⟩ := Prod.mk.inj heq
      rw [taken_some, ← TxPbuf.copyIn_slot hq] at hlive
      exact hlive
  · rcases hr : pbufAlloc mem m .raw data.length .rom with ⟨- | p, m₁⟩ <;> rw [hr] at h <;>
      have hlive := pbufAlloc_live hr <;> obtain ⟨rfl, rfl⟩ := Prod.mk.inj (Option.some.inj h) <;> exact hlive

/-- **The pbufs of a segment** are taken, or nothing. -/
theorem segPbufs_live {r : Option SegPbufs} (h : segPbufs cfg mem s c src data oversize first m = some (r, m')) :
    m'.live = taken (fun b ↦ (b.p.map TxPbuf.slot : Multiset _)) r + m.live := by
  rw [segPbufs] at h
  split_ifs at h with hcopy hover
  · rcases hr : tcpPbufPrealloc cfg mem s .transport (toU16 (data.length + s.optlen cfg)) s.mssLocal c.more first m
      with ⟨- | ⟨p, oversize'⟩, m₁⟩ <;> rw [hr] at h <;> have hlive := tcpPbufPrealloc_live hr <;> dsimp only at h
    · obtain ⟨rfl, rfl⟩ := Prod.mk.inj (Option.some.inj h)
      exact hlive
    · split_ifs at h with hlen
      obtain ⟨q, hq, heq⟩ := Option.map_eq_some_iff.1 h
      obtain ⟨rfl, rfl⟩ := Prod.mk.inj heq
      rw [taken_some, ← TxPbuf.copyIn_slot hq] at hlive
      exact hlive
  · rcases hr : pbufAlloc mem m .transport data.length .rom with ⟨- | p2, m₁⟩ <;> rw [hr] at h <;>
      have hlive := pbufAlloc_live hr <;> dsimp only at h
    · obtain ⟨rfl, rfl⟩ := Prod.mk.inj (Option.some.inj h)
      exact hlive
    · rcases hr' : pbufAlloc mem m₁ .transport (s.optlen cfg) .ram with ⟨- | p, m₂⟩ <;> rw [hr'] at h <;>
        have hlive' := pbufAlloc_live hr' <;> rw [hlive] at hlive'
      · -- the pbuf of the data is given back
        rw [taken_none, zero_add] at hlive'
        obtain ⟨m₃, hfree, hlive₃⟩ : ∃ m₃, pbufFree [{ p2 with payload := src, bytes := data }] m₂ = some m₃ ∧
            m₃.live = m.live := pbufFree_live hlive'
        dsimp only at h
        rw [hfree] at h
        obtain ⟨rfl, rfl⟩ := Prod.mk.inj (Option.some.inj h)
        exact hlive₃.trans (zero_add _).symm
      · obtain ⟨ps, hps, heq⟩ := Option.map_eq_some_iff.1 h
        obtain ⟨rfl, rfl⟩ := Prod.mk.inj heq
        rw [taken_some, txCat_slots hps, hlive', ← add_assoc]
        rfl

/-- **One round of phase 3** takes one more segment, or nothing. -/
theorem newTxSeg_live {r : Option TxNew} (h : newTxSeg cfg mem s c pos acc m = some (r, m'))
    (hlive : m.live = (acc.queue.map TxSeg.slots).sum + rest) :
    m'.live = taken (fun r : TxNew ↦ (r.queue.map TxSeg.slots).sum) r + if r = none then m.live else rest := by
  simp only [newTxSeg] at h
  rcases hr : segPbufs cfg mem s c (c.argAddr + pos) _ acc.oversize acc.queue.isEmpty m with - | ⟨- | b, m₁⟩ <;>
    rw [hr] at h
  · cases h
  · obtain ⟨rfl, rfl⟩ := Prod.mk.inj (Option.some.inj h)
    exact segPbufs_live hr
  have hb := segPbufs_live hr
  dsimp only at h
  split_ifs at h with hlimit
  · -- the queue has become too long
    obtain ⟨m₂, hfree, hlive₂⟩ := pbufFree_live hb
    rw [hfree] at h
    obtain ⟨rfl, rfl⟩ := Prod.mk.inj (Option.some.inj h)
    exact hlive₂.trans (zero_add _).symm
  · obtain ⟨⟨r', m₂⟩, hseg, heq⟩ := Option.map_eq_some_iff.1 h
    obtain ⟨rfl, rfl⟩ := Prod.mk.inj heq
    have hlive₂ := tcpCreateSegment_live hseg hb
    rcases r' with - | seg
    · exact hlive₂
    · rw [Option.map_some, taken_some, if_neg (Option.some_ne_none _), List.map_append, List.sum_append,
        List.map_singleton, List.sum_singleton, hlive₂, hlive, taken_some, add_left_comm, add_assoc]
      rfl

theorem newTxSegs_live {fuel : ℕ} {done : Bool} {r : TxNew} (h : newTxSegs cfg mem s c fuel pos acc m = some (done, r, m'))
    (hlive : m.live = (acc.queue.map TxSeg.slots).sum + rest) :
    m'.live = (r.queue.map TxSeg.slots).sum + rest := by
  induction fuel generalizing pos acc m with
  | zero =>
    rw [newTxSegs] at h
    split_ifs at h
    obtain ⟨-, heq⟩ := Prod.mk.inj (Option.some.inj h)
    obtain ⟨rfl, rfl⟩ := Prod.mk.inj heq
    exact hlive
  | succ fuel ih =>
    rw [newTxSegs] at h
    split_ifs at h
    · obtain ⟨-, heq⟩ := Prod.mk.inj (Option.some.inj h)
      obtain ⟨rfl, rfl⟩ := Prod.mk.inj heq
      exact hlive
    rcases hr : newTxSeg cfg mem s c pos acc m with - | ⟨- | acc', m₁⟩ <;> rw [hr] at h <;> dsimp only at h
    · cases h
    · obtain ⟨-, heq⟩ := Prod.mk.inj (Option.some.inj h)
      obtain ⟨rfl, rfl⟩ := Prod.mk.inj heq
      have hlive' := newTxSeg_live hr hlive
      rw [taken_none, zero_add, if_pos rfl, hlive] at hlive'
      exact hlive'
    · have hlive' := newTxSeg_live hr hlive
      rw [taken_some, if_neg (Option.some_ne_none _)] at hlive'
      exact ih h hlive'

/-- One pbuf for a copy, two for a reference. -/
theorem segPbufs_length {b : SegPbufs} (h : segPbufs cfg mem s c src data oversize first m = some (some b, m')) :
    b.p.length = if c.copies cfg = true then 1 else 2 := by
  rw [segPbufs] at h
  split_ifs at h ⊢
  · rcases hr : tcpPbufPrealloc cfg mem s .transport (toU16 (data.length + s.optlen cfg)) s.mssLocal c.more first m
      with ⟨- | ⟨p, oversize'⟩, m₁⟩ <;> rw [hr] at h <;> dsimp only at h
    · cases h
    · split_ifs at h
      obtain ⟨q, -, heq⟩ := Option.map_eq_some_iff.1 h
      cases heq
      rfl
  · rcases hr : pbufAlloc mem m .transport data.length .rom with ⟨- | p2, m₁⟩ <;> rw [hr] at h <;> dsimp only at h
    · cases h
    · rcases hr' : pbufAlloc mem m₁ .transport (s.optlen cfg) .ram with ⟨- | p, m₂⟩ <;> rw [hr'] at h <;>
        obtain ⟨ps, hps, heq⟩ := Option.map_eq_some_iff.1 h <;> cases heq
      have hlen := congrArg List.length (txCat_slots hps)
      simpa using hlen

/-- **The queue gets longer** with every round, within its limit. -/
theorem newTxSeg_queuelen {acc' : TxNew} (h : newTxSeg cfg mem s c pos acc m = some (some acc', m'))
    (hacc : acc.queuelen ≤ tcpSndQueuelen) : acc.queuelen < acc'.queuelen ∧ acc'.queuelen ≤ tcpSndQueuelen := by
  simp only [newTxSeg] at h
  rcases hr : segPbufs cfg mem s c (c.argAddr + pos) _ acc.oversize acc.queue.isEmpty m with - | ⟨- | b, m₁⟩ <;>
    rw [hr] at h <;> dsimp only at h
  · cases h
  · cases h
  have hlen := segPbufs_length hr
  have hclen : txClen b.p = 1 ∨ txClen b.p = 2 := by
    rw [txClen, hlen]
    split_ifs
    · exact .inl rfl
    · exact .inr rfl
  have hmax : tcpSndQueuelen = 40 := rfl
  split_ifs at h with hlimit
  · obtain ⟨m₂, -, heq⟩ := Option.map_eq_some_iff.1 h
    cases heq
  · obtain ⟨⟨r, m₂⟩, -, heq⟩ := Option.map_eq_some_iff.1 h
    obtain ⟨seg, -, rfl⟩ := Option.map_eq_some_iff.1 (congrArg Prod.fst heq)
    dsimp only
    rw [toU16] at hlimit ⊢
    omega

/-- **The limit on the rounds is never reached**: more rounds make no difference. -/
theorem newTxSegs_fuel {n k : ℕ} (hacc : acc.queuelen ≤ tcpSndQueuelen) (hn : tcpSndQueuelen < acc.queuelen + n) :
    newTxSegs cfg mem s c (n + k) pos acc m = newTxSegs cfg mem s c n pos acc m := by
  induction n generalizing pos acc m with
  | zero => omega
  | succ n ih =>
    rw [Nat.add_right_comm, newTxSegs, newTxSegs]
    split_ifs
    · rfl
    rcases hr : newTxSeg cfg mem s c pos acc m with - | ⟨- | acc', m₁⟩
    · rfl
    · rfl
    · obtain ⟨hlt, hle⟩ := newTxSeg_queuelen hr hacc
      exact ih hle (by omega)

/-- If phase 3 fails, something was left to write. -/
theorem newTxSegs_failed {fuel : ℕ} {r : TxNew} (h : newTxSegs cfg mem s c fuel pos acc m = some (false, r, m')) :
    pos < c.arg.length := by
  by_contra hle
  unfold newTxSegs at h
  rw [if_pos (not_lt.1 hle)] at h
  cases h

theorem extendTail_live {r : Option (TxPcb × WriteVars)} (h : extendTail cfg mem s c m = some (r, m')) :
    m'.live = taken (fun r ↦ taken (fun k ↦ {k.p.slot}) r.2.concat) r + m.live := by
  rw [extendTail] at h
  split at h
  · split_ifs at h
    obtain ⟨rfl, rfl⟩ := Prod.mk.inj (Option.some.inj h)
    exact (zero_add _).symm
  · next last hlast =>
    dsimp only at h
    split_ifs at h with hcheck hextend
    · obtain ⟨⟨r', m₁⟩, hconcat, heq⟩ := Option.map_eq_some_iff.1 h
      obtain ⟨rfl, rfl⟩ := Prod.mk.inj heq
      have hlive := concatPbuf_live hconcat
      rcases r' with - | k <;> exact hlive
    · obtain ⟨rfl, rfl⟩ := Prod.mk.inj (Option.some.inj h)
      exact (zero_add _).symm

/-- A pbuf that takes all the space has no room behind it. -/
theorem tcpPbufPrealloc_exact {p : TxPbuf} (hr : tcpPbufPrealloc cfg mem s layer length length more first m =
    (some (p, oversize), m')) : oversize = 0 := by
  have halloc : preallocSize cfg s length length more first = length := by
    rw [preallocSize, if_neg fun h : length < length ∧ _ ↦ lt_irrefl _ h.1]
    exact ite_self _
  obtain ⟨hp, -⟩ := Prod.mk.inj hr
  obtain ⟨p', -, heq⟩ := Option.map_eq_some_iff.1 hp
  obtain ⟨-, rfl⟩ := Prod.mk.inj heq
  rw [halloc, Nat.add_sub_cancel_left]
  rfl

theorem mapLast_self {f : TxSeg → TxSeg} (hf : ∀ seg, f seg = seg) (q : List TxSeg) : mapLast f q = q := by
  rw [mapLast]
  split
  · rfl
  · next last hlast => rw [hf, List.dropLast_append_getLast? last hlast]

theorem addOversizeLeft_zero (c : WriteCall) : addOversizeLeft cfg s c 0 = s := by
  rw [addOversizeLeft]
  split_ifs
  · rw [mapLast_self fun seg ↦ by rw [BitVec.add_zero]]
  · rfl

/-- **Behind phase 2**, as long as something is left to write, no segment has been changed: the new pbuf has all the
space that there was. -/
theorem extendTail_unchanged {v : WriteVars} (h : extendTail cfg mem s c m = some (some (s', v), m'))
    (hleft : v.pos < c.arg.length) : s' = s := by
  rw [extendTail] at h
  split at h
  · split_ifs at h
    cases h
    rfl
  next last hlast =>
  dsimp only at h
  split_ifs at h with hcheck hextend
  · obtain ⟨⟨r, m₁⟩, hconcat, heq⟩ := Option.map_eq_some_iff.1 h
    obtain ⟨⟨k, oversize⟩, hk, hvars⟩ := Option.map_eq_some_iff.1 (congrArg Prod.fst heq)
    obtain rfl : r = some (k, oversize) := hk
    obtain ⟨rfl, rfl⟩ := Prod.mk.inj hvars
    dsimp only at hleft ⊢
    have hlen : ((c.arg.drop (s.oversizeUsed c.arg.length)).take (s.concatLen last c.arg.length)).length =
        s.spaceLeft last c.arg.length := by
      rw [List.length_take, List.length_drop, TxPcb.concatLen]
      rw [TxPcb.concatLen] at hleft
      split_ifs at hleft ⊢ <;> omega
    rw [concatPbuf, hlen] at hconcat
    split_ifs at hconcat with hcopy
    · rcases hr : tcpPbufPrealloc cfg mem s .raw (s.spaceLeft last c.arg.length) (s.spaceLeft last c.arg.length)
        c.more true m with ⟨- | ⟨p, oversize'⟩, m₂⟩ <;> rw [hr] at hconcat
      · cases hconcat
      · obtain ⟨q, -, heq⟩ := Option.map_eq_some_iff.1 hconcat
        cases heq
        rw [tcpPbufPrealloc_exact hr, addOversizeLeft_zero]
    · rw [addOversizeLeft, if_neg fun h ↦ hcopy h.2]
  · cases h
    rfl

end Live

/-! ### A call that fails -/

variable {cfg : TxConf} {mem : ℕ → Option ℕ} {s s' : TxPcb} {c : WriteCall} {m m' : Pools}

theorem memerr_mem {k : Option Concat} {q : List TxSeg} {r : Err} (h : memerr s k q m = some (r, s', m'))
    {rest : Multiset (TxPool × ℕ)} (hlive : m.live = (q.map TxSeg.slots).sum + (taken (fun k ↦ {k.p.slot}) k + rest)) :
    s' = { s with nagleMemErr := true } ∧ m'.live = rest := by
  rw [add_left_comm] at hlive
  obtain ⟨m₁, hfree₁, hlive₁⟩ : ∃ m₁, pbufFree (k.map Concat.p).toList m = some m₁ ∧
      m₁.live = (q.map TxSeg.slots).sum + rest := by
    rcases k with - | k <;> exact pbufFree_live hlive
  obtain ⟨m₂, hfree₂, hlive₂⟩ := tcpSegsFree_live hlive₁
  rw [memerr, hfree₁, Option.bind_some, hfree₂, Option.bind_some] at h
  split_ifs at h
  cases h
  exact ⟨rfl, hlive₂⟩

theorem memerr_err {k : Option Concat} {q : List TxSeg} {r : Err} (h : memerr s k q m = some (r, s', m')) :
    r = .mem := by
  obtain ⟨m₁, -, h⟩ := Option.bind_eq_some_iff.1 h
  obtain ⟨m₂, -, h⟩ := Option.bind_eq_some_iff.1 h
  split_ifs at h
  cases h
  rfl

theorem tcpWriteChecks_mem (h : tcpWriteChecks s c.arg.length = some (.mem, s')) :
    s' = { s with nagleMemErr := true } := by
  rw [tcpWriteChecks] at h
  split_ifs at h <;> cases h <;> rfl

/-- How a call ends: with `ERR_OK`, with `ERR_MEM` and no trace, or with another error and nothing done. -/
theorem tcpWrite_cases {r : Err} (h : tcpWrite cfg mem s c m = some (r, s', m')) :
    r = .ok ∨ r = .mem ∧ s' = { s with nagleMemErr := true } ∧ m'.live = m.live ∨ r = .conn ∧ s' = s ∧ m' = m := by
  rw [tcpWrite] at h
  split_ifs at h with harg
  obtain ⟨⟨err, s₀⟩, hchecks, h⟩ := Option.bind_eq_some_iff.1 h
  rcases err with - | - | - | - | - | - <;> dsimp only at h
  case mem =>
    cases h
    exact .inr (.inl ⟨rfl, tcpWriteChecks_mem hchecks, rfl⟩)
  case ok =>
    rcases hr : extendTail cfg mem s c m with - | ⟨- | ⟨s₁, v⟩, m₁⟩ <;> rw [hr] at h <;> dsimp only at h
    · cases h
    · obtain ⟨hs, hlive⟩ := memerr_mem h ((extendTail_live hr).trans (zero_add _).symm)
      exact .inr (.inl ⟨memerr_err h, hs, hlive⟩)
    have hlive₁ := extendTail_live hr
    rcases hr' : newTxSegs cfg mem s₁ c (tcpSndQueuelen + 1) v.pos ⟨[], v.queuelen, v.oversize⟩ m₁
      with - | ⟨- | -, r, m₂⟩ <;> rw [hr'] at h <;> dsimp only at h
    · cases h
    · -- phase 3 has failed
      have hs : s₁ = s := extendTail_unchanged hr (newTxSegs_failed hr')
      have hlive₂ := newTxSegs_live hr' (hlive₁.trans (zero_add _).symm)
      rw [hs] at h
      obtain ⟨hs', hlive⟩ := memerr_mem h hlive₂
      exact .inr (.inl ⟨memerr_err h, hs', hlive⟩)
    · obtain ⟨s'', -, heq⟩ := Option.map_eq_some_iff.1 h
      cases heq
      exact .inl rfl
  all_goals
    rw [tcpWriteChecks] at hchecks
    split_ifs at hchecks <;> cases hchecks
  cases h
  exact .inr (.inr ⟨rfl, rfl, rfl⟩)

/-- **`tcp_write` is atomic**: for every control block, all data and flags, and every way in which the attempts to
allocate end, a call that returns `ERR_MEM` sets `TF_NAGLEMEMERR` and changes nothing else, not in the segments
either; and what is taken from the heap and from the pools is what was taken before. -/
theorem tcpWrite_mem (h : tcpWrite cfg mem s c m = some (.mem, s', m')) :
    s' = { s with nagleMemErr := true } ∧ m'.live = m.live := by
  rcases tcpWrite_cases h with herr | ⟨-, hs, hlive⟩ | ⟨herr, -⟩
  · cases herr
  · exact ⟨hs, hlive⟩
  · cases herr

/-- A segment of six bytes on `unsent`, with room for one more, and an MSS of eight. -/
def eightPcb : TxPcb where
  state := .established
  nodelay := false
  nagleMemErr := false
  timestamp := false
  localPort := 49153
  remotePort := 80
  mss := 8
  sndWndMax := 100
  sndLbb := 1006
  sndBuf := 100
  sndQueuelen := 1
  unsentOversize := 1
  unsent := [{
    addr := 500
    p := [⟨100, .ram, 160, List.replicate 20 0 ++ [1, 2, 3, 4, 5, 6], 1, 26⟩]
    len := 6
    oversizeLeft := 1
    chksum := 0
    chksumSwapped := false
    optsMss := false
    optsTs := false
    dataChecksummed := false
    hdrAt := 160
    tcphdr := ⟨49153, 80, 1000, 0, 5, 0, 0, 0, 0⟩ }]
  unacked := []

/-- Twelve bytes. -/
def twelveBytes (copy : Bool) : WriteCall := ⟨List.replicate 12 7, by decide, 3000, copy, false⟩

/-- One byte goes into the room, one into a pbuf of its own, eight into a segment; then `MEMP_TCP_SEG` is empty. -/
theorem tcpWrite_mem_tcpSeg : ∃ s' m',
    tcpWrite ⟨false, true, true, false, .two⟩ (fun i ↦ if i < 2 then some (1000 * (i + 1)) else none) eightPcb
      (twelveBytes true) ⟨eightPcb.unsent.map TxSeg.slots |>.sum, 0⟩ = some (.mem, s', m') ∧
    s' = { eightPcb with nagleMemErr := true } ∧ m'.live = (eightPcb.unsent.map TxSeg.slots).sum := by
  have hmem : (tcpWrite ⟨false, true, true, false, .two⟩ (fun i ↦ if i < 2 then some (1000 * (i + 1)) else none)
      eightPcb (twelveBytes true) ⟨eightPcb.unsent.map TxSeg.slots |>.sum, 0⟩).map Prod.fst = some .mem := by
    decide
  obtain ⟨⟨err, s', m'⟩, hcall, rfl⟩ := Option.map_eq_some_iff.1 hmem
  exact ⟨s', m', hcall, tcpWrite_mem hcall⟩

end Lwip.Tcp.Tx
