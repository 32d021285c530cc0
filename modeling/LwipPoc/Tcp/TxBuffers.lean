import LwipPoc.Core.PbufBytes
import LwipPoc.Core.PbufHeap
import LwipPoc.Ipv4.Frag
import LwipPoc.Ipv4.PseudoPartial
import LwipPoc.Tcp.Out
import Mathlib.Algebra.Order.Group.Multiset

/-!
# Segments in memory

A `struct tcp_seg` on the way out with all that it has: the pbufs of its chain and where they lie, its header in
the first one of them, and what `tcp_write` notes down about the room behind the last one and about the checksum of
the data. `Pcb` keeps of this the bytes and the number of the pbufs.

The memory is given back to where it was taken from, and `Pools` has **what is taken** at any time. Whether an
attempt to allocate gets something, and where that lies, is the environment's: a function from the number of the
attempt to an address, or to `NULL`. Memory that was never written to reads as zeros. A failed assertion, a write
behind what was allocated and a free of something that is not taken are `none`.
-/

namespace Lwip.Tcp.Tx

open Lwip.Core (PbufLayer PbufType PbufHome sizeofStructPbuf)
open Lwip.Ipv4 (ChksumAlgorithm netU16 storeU16)

/-- The options of the build that `tcp_write` and `tcp_output_segment` depend on. -/
structure TxConf where
  /-- `LWIP_TCP_TIMESTAMPS`. -/
  timestamps : Bool
  /-- `TCP_CHECKSUM_ON_COPY`. -/
  checksumOnCopy : Bool
  /-- `TCP_OVERSIZE_DBGCHECK`. -/
  oversizeDbgcheck : Bool
  /-- `LWIP_NETIF_TX_SINGLE_PBUF`. -/
  txSinglePbuf : Bool
  /-- `LWIP_CHKSUM`. -/
  alg : ChksumAlgorithm
  deriving DecidableEq, Repr

/-! ### Pools -/

/-- What memory is taken from. -/
inductive TxPool
  | pbuf (home : PbufHome)
  /-- `MEMP_TCP_SEG`. -/
  | tcpSeg
  deriving DecidableEq, Repr

/-- What is taken, and how many attempts there were to get more. -/
structure Pools where
  live : Multiset (TxPool × ℕ)
  tries : ℕ
  deriving DecidableEq

variable (mem : ℕ → Option ℕ) (m : Pools)

/-- `mem_malloc` or `memp_malloc`. -/
def Pools.malloc (pool : TxPool) : Option ℕ × Pools :=
  (mem m.tries, ⟨((mem m.tries).map fun a ↦ {(pool, a)}).getD 0 + m.live, m.tries + 1⟩)

/-- `mem_free` or `memp_free`. -/
def Pools.free (slot : TxPool × ℕ) : Option Pools :=
  if slot ∈ m.live then some { m with live := m.live.erase slot } else none

/-! ### Packet buffers -/

/-- A `struct pbuf`. -/
structure TxPbuf where
  /-- Where it lies. -/
  addr : ℕ
  type : PbufType
  /-- Where its payload lies. -/
  payload : ℕ
  /-- The bytes of the payload. -/
  bytes : List Byte
  /-- The number of bytes that were allocated behind the payload. -/
  room : ℕ
  totLen : ℕ
  deriving DecidableEq, Repr

/-- `p->len`. -/
def TxPbuf.len (p : TxPbuf) : ℕ := toU16 p.bytes.length

/-- What is given back when a pbuf is freed. -/
def TxPbuf.slot (p : TxPbuf) : TxPool × ℕ := (.pbuf p.type.home, p.addr)

/-- `p->tot_len`. -/
def txTotLen (p : List TxPbuf) : ℕ := (p.head?.map TxPbuf.totLen).getD 0

/-- The bytes of a chain. -/
def txBytes (p : List TxPbuf) : List Byte := p.flatMap TxPbuf.bytes

/-- `pbuf_clen`: counted in a `u8_t`. -/
def txClen (p : List TxPbuf) : ℕ := p.length % 2 ^ 8

/-- `pbuf_alloc`, with `PBUF_RAM` or `PBUF_ROM`. -/
def pbufAlloc (layer : PbufLayer) (length : ℕ) (type : PbufType) : Option TxPbuf × Pools :=
  let r := m.malloc mem (.pbuf type.home)
  (r.1.map fun a ↦ {
    addr := a
    type := type
    payload := if type = .ram then Pcb.memAlignSize (a + sizeofStructPbuf + layer.offset) else 0
    bytes := List.replicate length 0
    room := 0
    totLen := length }, r.2)

/-- `pbuf_free`, of a chain whose pbufs have one reference each. -/
def pbufFree : List TxPbuf → Pools → Option Pools
  | [], m => some m
  | p :: ps, m => (m.free p.slot).bind (pbufFree ps)

/-- `pbuf_header`, which makes room for a header in front. -/
def pbufHeader (n : ℕ) : List TxPbuf → Option (List TxPbuf)
  | [] => none
  | p :: ps =>
    if p.type = .ram ∧ p.addr + sizeofStructPbuf + n ≤ p.payload then
      some ({ p with
        payload := p.payload - n
        bytes := List.replicate n 0 ++ p.bytes
        totLen := toU16 (p.totLen + n) } :: ps)
    else none

/-- `pbuf_cat`: the chain, and `t` behind it. -/
def txCat (t : List TxPbuf) : List TxPbuf → Option (List TxPbuf)
  | [] => none
  | [p] => if p.totLen = p.len then some ({ p with totLen := toU16 (p.totLen + txTotLen t) } :: t) else none
  | p :: q :: ps => (txCat t (q :: ps)).map ({ p with totLen := toU16 (p.totLen + txTotLen t) } :: ·)

/-! ### Segments -/

/-- `struct tcp_hdr`. The fields are as `ntohs` reads them, but for the checksum, which is as it lies in memory. -/
structure TxHdr where
  src : ℕ
  dest : ℕ
  seqno : SeqNum
  ackno : SeqNum
  /-- `TCPH_HDRLEN`. -/
  hdrlen : ℕ
  /-- `TCPH_FLAGS`. -/
  flags : BitVec 6
  wnd : ℕ
  chksum : ℕ
  urgp : ℕ
  deriving DecidableEq, Repr

/-- `TCP_FIN`. -/
def tcpFin : BitVec 6 := 0x01

/-- `TCP_SYN`. -/
def tcpSyn : BitVec 6 := 0x02

/-- `TCP_PSH`. -/
def tcpPsh : BitVec 6 := 0x08

/-- `TCP_ACK`. -/
def tcpAck : BitVec 6 := 0x10

/-- `TCP_HLEN`. -/
def tcpHlen : ℕ := 20

/-- A `u32_t` in network order. -/
def netU32 (n : SeqNum) : List Byte := netU16 (n.toNat / 2 ^ 16) ++ netU16 n.toNat

/-- A header in memory. -/
def TxHdr.bytes (h : TxHdr) : List Byte :=
  netU16 h.src ++ netU16 h.dest ++ netU32 h.seqno ++ netU32 h.ackno ++
    netU16 (h.hdrlen * 2 ^ 12 + h.flags.toNat) ++ netU16 h.wnd ++ storeU16 h.chksum ++ netU16 h.urgp

/-- A `struct tcp_seg`. -/
structure TxSeg where
  /-- Where it lies. -/
  addr : ℕ
  p : List TxPbuf
  len : ℕ
  /-- With `TCP_OVERSIZE_DBGCHECK`. -/
  oversizeLeft : BitVec 16
  /-- With `TCP_CHECKSUM_ON_COPY`: the sum of the data, its bytes swapped if `chksumSwapped`. -/
  chksum : ℕ
  chksumSwapped : Bool
  /-- `TF_SEG_OPTS_MSS`. -/
  optsMss : Bool
  /-- `TF_SEG_OPTS_TS`. -/
  optsTs : Bool
  /-- `TF_SEG_DATA_CHECKSUMMED`. -/
  dataChecksummed : Bool
  /-- Where `tcphdr` points to. -/
  hdrAt : ℕ
  tcphdr : TxHdr
  deriving DecidableEq, Repr

/-- `LWIP_TCP_OPT_LENGTH`. -/
def optLength (optsMss optsTs : Bool) : ℕ := (if optsMss = true then 4 else 0) + if optsTs = true then 12 else 0

/-- `LWIP_TCP_OPT_LENGTH(seg->flags)`. -/
def TxSeg.optLen (seg : TxSeg) : ℕ := optLength seg.optsMss seg.optsTs

/-- What is given back when a segment is freed. -/
def TxSeg.slots (seg : TxSeg) : Multiset (TxPool × ℕ) := (.tcpSeg, seg.addr) ::ₘ (seg.p.map TxPbuf.slot : Multiset _)

/-- `TCPH_SET_FLAG`. -/
def TxSeg.setFlag (flag : BitVec 6) (seg : TxSeg) : TxSeg := { seg with tcphdr.flags := seg.tcphdr.flags ||| flag }

/-- `tcp_seg_free`. -/
def tcpSegFree (seg : TxSeg) (m : Pools) : Option Pools := (pbufFree seg.p m).bind (·.free (.tcpSeg, seg.addr))

/-- `tcp_segs_free`. -/
def tcpSegsFree : List TxSeg → Pools → Option Pools
  | [], m => some m
  | seg :: segs, m => (tcpSegFree seg m).bind (tcpSegsFree segs)

/-! ### The control block -/

/-- What `tcp_write` and the functions around it use of a `struct tcp_pcb`. -/
structure TxPcb where
  state : TcpState
  /-- `TF_NODELAY`. -/
  nodelay : Bool
  /-- `TF_NAGLEMEMERR`. -/
  nagleMemErr : Bool
  /-- `TF_TIMESTAMP`. -/
  timestamp : Bool
  localPort : ℕ
  remotePort : ℕ
  mss : ℕ
  sndWndMax : ℕ
  sndLbb : SeqNum
  sndBuf : ℕ
  sndQueuelen : ℕ
  unsentOversize : ℕ
  unsent : List TxSeg
  unacked : List TxSeg
  deriving DecidableEq, Repr

/-- `tcp_create_segment`: the chain `p` is freed on failure. -/
def tcpCreateSegment (s : TxPcb) (p : List TxPbuf) (flags : BitVec 6) (seqno : SeqNum) (optsMss optsTs : Bool) :
    Option (Option TxSeg × Pools) :=
  let optlen := optLength optsMss optsTs
  match m.malloc mem .tcpSeg with
  | (none, m) => (pbufFree p m).map (none, ·)
  | (some a, m) =>
    match pbufHeader tcpHlen p with
    | none => ((pbufFree p m).bind (·.free (.tcpSeg, a))).map (none, ·)
    | some p' =>
      some (some {
        addr := a
        p := p'
        len := toU16 (txTotLen p + 2 ^ 16 - optlen)
        oversizeLeft := 0
        chksum := 0
        chksumSwapped := false
        optsMss := optsMss
        optsTs := optsTs
        dataChecksummed := false
        hdrAt := (p'.head?.map TxPbuf.payload).getD 0
        tcphdr := {
          src := s.localPort
          dest := s.remotePort
          seqno := seqno
          ackno := 0
          hdrlen := 5 + optlen / 4
          flags := flags
          wnd := 0
          chksum := 0
          urgp := 0 } }, m)

/-! ### Giving back -/

variable {mem : ℕ → Option ℕ} {m m' : Pools} {rest : Multiset (TxPool × ℕ)} {slot : TxPool × ℕ} {p ps t : List TxPbuf}

/-- What a result of type `α` stands for, if there is one. -/
def taken {α : Type*} (f : α → Multiset (TxPool × ℕ)) (r : Option α) : Multiset (TxPool × ℕ) := (r.map f).getD 0

@[simp] theorem taken_none {α : Type*} (f : α → Multiset (TxPool × ℕ)) : taken f none = 0 := rfl

@[simp] theorem taken_some {α : Type*} (f : α → Multiset (TxPool × ℕ)) (x : α) : taken f (some x) = f x := rfl

theorem Pools.malloc_live {pool : TxPool} {r : Option ℕ} (h : m.malloc mem pool = (r, m')) :
    m'.live = taken (fun a ↦ {(pool, a)}) r + m.live := by
  obtain ⟨rfl, rfl⟩ := Prod.mk.inj h
  rfl

/-- Something that was taken last. -/
theorem Pools.free_cons (h : m.live = slot ::ₘ rest) : ∃ m', m.free slot = some m' ∧ m'.live = rest := by
  refine ⟨_, if_pos (h ▸ Multiset.mem_cons_self _ _), ?_⟩
  rw [h, Multiset.erase_cons_head]

theorem pbufFree_live (h : m.live = (ps.map TxPbuf.slot : Multiset _) + rest) :
    ∃ m', pbufFree ps m = some m' ∧ m'.live = rest := by
  induction ps generalizing m with
  | nil => exact ⟨m, rfl, h.trans (zero_add _)⟩
  | cons p ps ih =>
    rw [List.map_cons, ← Multiset.cons_coe, Multiset.cons_add] at h
    obtain ⟨m₁, hfree, hlive⟩ := Pools.free_cons h
    obtain ⟨m', hfree', hlive'⟩ := ih hlive
    exact ⟨m', by rw [pbufFree, hfree, Option.bind_some, hfree'], hlive'⟩

theorem tcpSegFree_live {seg : TxSeg} (h : m.live = seg.slots + rest) :
    ∃ m', tcpSegFree seg m = some m' ∧ m'.live = rest := by
  rw [TxSeg.slots, Multiset.cons_add, ← Multiset.add_cons] at h
  obtain ⟨m₁, hfree, hlive⟩ := pbufFree_live h
  obtain ⟨m', hfree', hlive'⟩ := Pools.free_cons hlive
  exact ⟨m', by rw [tcpSegFree, hfree, Option.bind_some, hfree'], hlive'⟩

/-- **Segments that were made are given back**, with all their pbufs. -/
theorem tcpSegsFree_live {segs : List TxSeg} (h : m.live = (segs.map TxSeg.slots).sum + rest) :
    ∃ m', tcpSegsFree segs m = some m' ∧ m'.live = rest := by
  induction segs generalizing m with
  | nil => exact ⟨m, rfl, h.trans (zero_add _)⟩
  | cons seg segs ih =>
    rw [List.map_cons, List.sum_cons, add_assoc] at h
    obtain ⟨m₁, hfree, hlive⟩ := tcpSegFree_live h
    obtain ⟨m', hfree', hlive'⟩ := ih hlive
    exact ⟨m', by rw [tcpSegsFree, hfree, Option.bind_some, hfree'], hlive'⟩

/-! ### What the functions on chains keep -/

/-- A pbuf of the kind and size that was asked for. -/
theorem pbufAlloc_some {layer : PbufLayer} {length : ℕ} {type : PbufType} {b : TxPbuf}
    (h : pbufAlloc mem m layer length type = (some b, m')) :
    b.type = type ∧ b.bytes = List.replicate length 0 ∧ b.room = 0 ∧ b.totLen = length ∧
      (type = .ram → b.addr + sizeofStructPbuf + layer.offset ≤ b.payload ∧
        b.payload ≤ b.addr + sizeofStructPbuf + layer.offset + 3) := by
  obtain ⟨hb, -⟩ := Prod.mk.inj h
  obtain ⟨a, -, rfl⟩ := Option.map_eq_some_iff.1 hb
  refine ⟨rfl, rfl, rfl, rfl, fun hram ↦ ?_⟩
  simp only [if_pos hram, Pcb.memAlignSize]
  omega

theorem pbufAlloc_live {layer : PbufLayer} {length : ℕ} {type : PbufType} {r : Option TxPbuf}
    (h : pbufAlloc mem m layer length type = (r, m')) : m'.live = taken (fun b ↦ {b.slot}) r + m.live := by
  obtain ⟨rfl, rfl⟩ := Prod.mk.inj h
  rcases ha : m.malloc mem (.pbuf type.home) with ⟨- | a, m₁⟩ <;> exact Pools.malloc_live ha

theorem pbufHeader_slots {n : ℕ} (h : pbufHeader n p = some ps) : ps.map TxPbuf.slot = p.map TxPbuf.slot := by
  rcases p with - | ⟨b, bs⟩
  · cases h
  · rw [pbufHeader] at h
    split_ifs at h with hroom
    obtain rfl := Option.some.inj h
    rfl

theorem txCat_slots (h : txCat t p = some ps) : ps.map TxPbuf.slot = p.map TxPbuf.slot ++ t.map TxPbuf.slot := by
  induction p generalizing ps with
  | nil => cases h
  | cons b bs ih =>
    rcases bs with - | ⟨c, cs⟩
    · rw [txCat] at h
      split_ifs at h with hlast
      obtain rfl := Option.some.inj h
      rfl
    · rw [txCat, Option.map_eq_some_iff] at h
      obtain ⟨qs, hqs, rfl⟩ := h
      rw [List.map_cons, ih hqs]
      rfl

/-- **A segment is made, or its chain is given back.** -/
theorem tcpCreateSegment_live {s : TxPcb} {flags : BitVec 6} {seqno : SeqNum} {optsMss optsTs : Bool}
    {r : Option TxSeg} (hr : tcpCreateSegment mem m s p flags seqno optsMss optsTs = some (r, m'))
    (h : m.live = (p.map TxPbuf.slot : Multiset _) + rest) : m'.live = taken TxSeg.slots r + rest := by
  rw [tcpCreateSegment] at hr
  rcases ha : m.malloc mem .tcpSeg with ⟨- | a, m₁⟩ <;> rw [ha] at hr <;> dsimp only at hr <;>
    have hlive := Pools.malloc_live ha
  · rw [taken_none, zero_add, h] at hlive
    obtain ⟨m₂, hfree, hlive₂⟩ := pbufFree_live hlive
    rw [hfree] at hr
    obtain ⟨rfl, rfl⟩ := Prod.mk.inj (Option.some.inj hr)
    exact hlive₂.trans (zero_add _).symm
  rw [taken_some, h, Multiset.singleton_add, ← Multiset.cons_add] at hlive
  rcases hp' : pbufHeader tcpHlen p with - | p' <;> rw [hp'] at hr <;> dsimp only at hr
  · -- no room for the header
    rw [Multiset.cons_add, ← Multiset.add_cons] at hlive
    obtain ⟨m₂, hfree, hlive₂⟩ := pbufFree_live hlive
    obtain ⟨m₃, hfree', hlive₃⟩ := Pools.free_cons hlive₂
    rw [hfree, Option.bind_some, hfree'] at hr
    obtain ⟨rfl, rfl⟩ := Prod.mk.inj (Option.some.inj hr)
    exact hlive₃.trans (zero_add _).symm
  · obtain ⟨rfl, rfl⟩ := Prod.mk.inj (Option.some.inj hr)
    rw [taken_some, TxSeg.slots, pbufHeader_slots hp']
    exact hlive

end Lwip.Tcp.Tx
