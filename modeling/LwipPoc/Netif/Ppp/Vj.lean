import LwipPoc.Ipv4.InetChksumChain
import LwipPoc.Netif.Ppp.Serial

/-!
# Van Jacobson header compression

`netif/ppp/vj.c` on a little-endian machine, with a `long` of 32 bits. The sender keeps the last TCP/IP header of each
of its connections in a slot, and the receiver keeps those headers in the same slots. A header of which only a few
fields have changed is sent as their differences.

The slots of the sender form a circular list, the most recently used one first. A header is its bytes in memory;
a packet is read through the `payload` pointer of its first pbuf, and what lies behind that is whatever the memory
holds there. A result of `none` is an assertion that fails, a loop that does not end, or a header that would have to
grow because its length field is wrong.
-/

namespace Lwip.Netif.Ppp

open Lwip.Core Ipv4

/-- `MAX_SLOTS`. -/
def maxSlots : ℕ := 16

/-- `MAX_HDR`. -/
def maxHdr : ℕ := 128

/-! ### Bits of the first byte -/

def newC : BitVec 8 := 0x40
def newI : BitVec 8 := 0x20
def newS : BitVec 8 := 0x08
def newA : BitVec 8 := 0x04
def newW : BitVec 8 := 0x02
def newU : BitVec 8 := 0x01
def tcpPushBit : BitVec 8 := 0x10

/-- `SPECIAL_I`: echoed interactive traffic. -/
def specialI : BitVec 8 := newS ||| newW ||| newU

/-- `SPECIAL_D`: unidirectional data. -/
def specialD : BitVec 8 := newS ||| newA ||| newW ||| newU

def specialsMask : BitVec 8 := newS ||| newA ||| newW ||| newU

/-! ### Headers -/

/-- The bytes of a header, from its first one on. -/
abbrev Hdr := ℕ → BitVec 8

/-- `ntohl` of a field. -/
def readU32 (f : Hdr) (i : ℕ) : ℕ := readU16 f i * 2 ^ 16 + readU16 f (i + 2)

/-- A field is set to `htons` of a number. -/
def writeU16 (f : Hdr) (i n : ℕ) : Hdr :=
  Function.update (Function.update f i (BitVec.ofNat 8 (n / 2 ^ 8))) (i + 1) (BitVec.ofNat 8 n)

/-- A field is set to `htonl` of a number. -/
def writeU32 (f : Hdr) (i n : ℕ) : Hdr := writeU16 (writeU16 f i (n / 2 ^ 16)) (i + 2) n

/-- `BCOPY(ip, &cs->cs_ip, hlen)`. -/
def copyHdr (hlen : ℕ) (ip hdr : Hdr) : Hdr := fun i ↦ if i < hlen then ip i else hdr i

/-- The first bytes as a list. -/
def hdrBytes (f : Hdr) (n : ℕ) : List (BitVec 8) := (List.range n).map f

/-- `IPH_HL`. -/
def iphHl (f : Hdr) : ℕ := (f 0).toNat % 2 ^ 4

/-- `TCPH_HDRLEN`, for a TCP header at `th`. -/
def tcphHdrlen (f : Hdr) (th : ℕ) : ℕ := (f (th + 12)).toNat / 2 ^ 4

/-- `TCPH_FLAGS`: they lie in the second byte of `_hdrlen_rsvd_flags`. -/
def tcphFlags (f : Hdr) (th : ℕ) : BitVec 8 := f (th + 13) &&& 0x3f

/-- `TCPH_SET_FLAG`. -/
def tcphSetFlag (f : Hdr) (th : ℕ) (flags : BitVec 8) : Hdr :=
  Function.update f (th + 13) (f (th + 13) ||| flags)

/-- `TCPH_UNSET_FLAG`. -/
def tcphUnsetFlag (f : Hdr) (th : ℕ) (flags : BitVec 8) : Hdr :=
  Function.update f (th + 13) (f (th + 13) ||| (tcphFlags f th &&& ~~~flags))

def tcpFin : BitVec 8 := 0x01
def tcpSyn : BitVec 8 := 0x02
def tcpRst : BitVec 8 := 0x04
def tcpPsh : BitVec 8 := 0x08
def tcpAck : BitVec 8 := 0x10
def tcpUrg : BitVec 8 := 0x20

/-! ### State -/

/-- `struct cstate`. -/
structure Cstate where
  csNext : ℕ
  csHlen : ℕ
  csId : BitVec 8
  csHdr : Hdr

/-- `struct vjcompress`; `VJF_TOSS` is the only flag. -/
structure VjCompress where
  lastCs : ℕ
  lastRecv : BitVec 8
  lastXmit : BitVec 8
  toss : Bool
  compressSlot : Bool
  tstate : ℕ → Cstate
  rstate : ℕ → Cstate

/-- The return values of `vj_compress_tcp`. -/
inductive VjType
  | ip
  | uncompressedTcp
  | compressedTcp
  deriving DecidableEq, Repr

/-- `vj_compress_init`. -/
def vjCompressInit (comp : VjCompress) : VjCompress :=
  { comp with
    compressSlot := false
    tstate := fun i ↦
      if i < maxSlots then
        { comp.tstate i with csId := BitVec.ofNat 8 i, csNext := if i = 0 then maxSlots - 1 else i - 1 }
      else comp.tstate i
    lastCs := 0
    lastRecv := 255
    lastXmit := 255
    toss := true }

namespace VjCompress

/-- `cs->cs_next` is set. -/
def setNext (comp : VjCompress) (cs next : ℕ) : VjCompress :=
  { comp with tstate := Function.update comp.tstate cs { comp.tstate cs with csNext := next } }

/-- The header of a slot of the sender is set. -/
def setHdr (comp : VjCompress) (cs : ℕ) (hdr : Hdr) : VjCompress :=
  { comp with tstate := Function.update comp.tstate cs { comp.tstate cs with csHdr := hdr } }

/-- The header of a slot of the receiver is set. -/
def setRHdr (comp : VjCompress) (cs : ℕ) (hdr : Hdr) : VjCompress :=
  { comp with rstate := Function.update comp.rstate cs { comp.rstate cs with csHdr := hdr } }

/-! ### The slot of a connection -/

/-- The slot has the addresses and ports of the packet. -/
def sameConnection (ip : Hdr) (cs : Cstate) : Bool :=
  readU32 ip 12 = readU32 cs.csHdr 12 && readU32 ip 16 = readU32 cs.csHdr 16 &&
    readU32 ip (iphHl ip * 4) = readU32 cs.csHdr (iphHl cs.csHdr * 4)

/-- The `do` loop: the slot before the one where it ends, that one, and whether it is the one. -/
def search (comp : VjCompress) (ip : Hdr) : ℕ → ℕ → Option (ℕ × ℕ × Bool)
  | 0, _ => none
  | fuel + 1, lcs =>
    let cs := (comp.tstate lcs).csNext
    if sameConnection ip (comp.tstate cs) then some (lcs, cs, true)
    else if cs = comp.lastCs then some (lcs, cs, false)
    else search comp ip fuel cs

/-- The slot was found behind `lcs`: it becomes the most recently used one. -/
def moveToFront (comp : VjCompress) (lcs cs : ℕ) : VjCompress :=
  if cs = comp.lastCs then { comp with lastCs := lcs }
  else
    let lastcs := comp.lastCs
    let comp := comp.setNext lcs (comp.tstate cs).csNext
    let comp := comp.setNext cs (comp.tstate lastcs).csNext
    comp.setNext lastcs cs

/-- The slot for a packet, and whether it is the one of its connection. The oldest one is used again otherwise. -/
def locate (comp : VjCompress) (ip : Hdr) : Option (VjCompress × ℕ × Bool) :=
  let cs := (comp.tstate comp.lastCs).csNext
  if sameConnection ip (comp.tstate cs) then some (comp, cs, true)
  else
    (comp.search ip maxSlots cs).map fun
      | (lcs, cs, true) => (comp.moveToFront lcs cs, cs, true)
      | (lcs, cs, false) => ({ comp with lastCs := lcs }, cs, false)

end VjCompress

/-! ### Sending -/

/-- `ENCODE`. -/
def encode (n : ℕ) : List (BitVec 8) :=
  if 256 ≤ n then [0, BitVec.ofNat 8 (n / 2 ^ 8), BitVec.ofNat 8 n] else [BitVec.ofNat 8 n]

/-- `ENCODEZ`. -/
def encodez (n : ℕ) : List (BitVec 8) :=
  if 256 ≤ n ∨ n = 0 then [0, BitVec.ofNat 8 (n / 2 ^ 8), BitVec.ofNat 8 n] else [BitVec.ofNat 8 n]

/-- Only what is expected to change has changed: the version, the header length and the type of service, the fragment
offset, the time to live and the protocol, the length of the TCP header, and the options are the same. -/
def sameHeader (hdr ip : Hdr) (th thl : ℕ) : Bool :=
  readU16 ip 0 = readU16 hdr 0 && readU16 ip 6 = readU16 hdr 6 && readU16 ip 8 = readU16 hdr 8 &&
    thl = tcphHdrlen hdr th &&
    (th ≤ 20 || (List.range (th - 20)).all fun i ↦ ip (20 + i) = hdr (20 + i)) &&
    (thl ≤ 5 || (List.range ((thl - 5) * 4)).all fun i ↦ ip (th + 20 + i) = hdr (th + 20 + i))

/-- The change of a `u16_t`. -/
def delta16 (hdr ip : Hdr) (i : ℕ) : ℕ := (readU16 ip i + 2 ^ 16 - readU16 hdr i) % 2 ^ 16

/-- The change of a `u32_t`. -/
def delta32 (hdr ip : Hdr) (i : ℕ) : ℕ := (readU32 ip i + 2 ^ 32 - readU32 hdr i) % 2 ^ 32

/-- The `switch` over the changes of the numbers, which have been encoded to `newSeq`: `none` is `goto uncompressed`. -/
def vjSpecial (hdr ip : Hdr) (th hlen : ℕ) (changes : BitVec 8) (newSeq : List (BitVec 8)) :
    Option (BitVec 8 × List (BitVec 8)) :=
  let deltaA := delta32 hdr ip (th + 8)
  let deltaS := delta32 hdr ip (th + 4)
  if changes = 0 then
    -- data behind an acknowledgement, as a retransmission is sent uncompressed
    if readU16 ip 2 ≠ readU16 hdr 2 ∧ readU16 hdr 2 = hlen then some (changes, newSeq) else none
  else if changes = specialI ∨ changes = specialD then none
  else if changes = newS ||| newA then
    if deltaS = deltaA ∧ deltaS + hlen = readU16 hdr 2 then some (specialI, []) else some (changes, newSeq)
  else if changes = newS then
    if deltaS + hlen = readU16 hdr 2 then some (specialD, []) else some (changes, newSeq)
  else some (changes, newSeq)

/-- The changes of the numbers that may change, and their encoding; `none` is `goto uncompressed`. -/
def vjNumbers (hdr ip : Hdr) (th hlen : ℕ) : Option (BitVec 8 × List (BitVec 8)) :=
  let urg := tcphFlags ip th &&& tcpUrg ≠ 0
  let deltaW := delta16 hdr ip (th + 14)
  let deltaA := delta32 hdr ip (th + 8)
  let deltaS := delta32 hdr ip (th + 4)
  if ¬ urg ∧ readU16 ip (th + 18) ≠ readU16 hdr (th + 18) then none
  else if 0xffff < deltaA ∨ 0xffff < deltaS then none
  else
    vjSpecial hdr ip th hlen
      ((if urg then newU else 0) ||| (if deltaW ≠ 0 then newW else 0) ||| (if deltaA ≠ 0 then newA else 0) |||
        (if deltaS ≠ 0 then newS else 0))
      ((if urg then encodez (readU16 ip (th + 18)) else []) ++ (if deltaW ≠ 0 then encode deltaW else []) ++
        (if deltaA ≠ 0 then encode deltaA else []) ++ if deltaS ≠ 0 then encode deltaS else [])

/-- What is sent for a header against the one in its slot: the first byte, but for `NEW_C`, and the changes. -/
def vjChanges (hdr ip : Hdr) (th thl hlen : ℕ) : Option (BitVec 8 × List (BitVec 8)) :=
  if sameHeader hdr ip th thl then
    (vjNumbers hdr ip th hlen).map fun (changes, newSeq) ↦
      let deltaI := delta16 hdr ip 4
      (changes ||| (if deltaI ≠ 1 then newI else 0) ||| (if tcphFlags ip th &&& tcpPsh ≠ 0 then tcpPushBit else 0),
        newSeq ++ if deltaI ≠ 1 then encodez deltaI else [])
  else none

/-- The label `uncompressed`. -/
def sendUncompressed (comp : VjCompress) (cs : ℕ) (ip : Hdr) (hlen : ℕ) (p : Pbuf) (ps : List Pbuf) :
    VjType × VjCompress × List Pbuf :=
  let csId := (comp.tstate cs).csId
  (.uncompressedTcp, { comp.setHdr cs (copyHdr hlen ip (comp.tstate cs).csHdr) with lastXmit := csId },
    { p with payload := p.payload.set 9 csId } :: ps)

/-- The compressed header, for the `chksum` of the packet. -/
def vjHeader (comp : VjCompress) (csId : BitVec 8) (changes : BitVec 8) (chksum : ℕ) (newSeq : List (BitVec 8)) :
    List (BitVec 8) :=
  (if !comp.compressSlot || comp.lastXmit ≠ csId then [changes ||| newC, csId] else [changes]) ++
    [BitVec.ofNat 8 (chksum / 2 ^ 8), BitVec.ofNat 8 chksum] ++ newSeq

/-- The end of `vj_compress_tcp`: the compressed header takes the place of the last bytes of the packet's headers. -/
def sendCompressed (comp : VjCompress) (cs : ℕ) (ip : Hdr) (th hlen : ℕ) (changes : BitVec 8)
    (newSeq : List (BitVec 8)) (ps : List Pbuf) : Option (VjType × VjCompress × List Pbuf) :=
  let csId := (comp.tstate cs).csId
  let vj := vjHeader comp csId changes (readU16 ip (th + 16)) newSeq
  if hlen < vj.length then none
  else
    (pbufHide (hlen - vj.length) ps).map fun ps ↦
      (.compressedTcp, { comp.setHdr cs (copyHdr hlen ip (comp.tstate cs).csHdr) with lastXmit := csId },
        ps.modify 0 fun p ↦ { p with payload := vj ++ p.payload.drop vj.length })

/-- `vj_compress_tcp`. -/
def vjCompressTcp (comp : VjCompress) (behind : ℕ → BitVec 8) :
    List Pbuf → Option (VjType × VjCompress × List Pbuf)
  | [] => none
  | p :: ps =>
    let ip : Hdr := bytesAt p.payload behind
    let th := iphHl ip * 4
    let thl := tcphHdrlen ip th
    if ip 9 ≠ 6 then some (.ip, comp, p :: ps)
    -- an IP fragment
    else if readU16 ip 6 % 2 ^ 14 ≠ 0 ∨ p.totLen < 40 then some (.ip, comp, p :: ps)
    else if tcphFlags ip th &&& (tcpSyn ||| tcpFin ||| tcpRst ||| tcpAck) ≠ tcpAck then some (.ip, comp, p :: ps)
    else
      (comp.locate ip).bind fun (comp, cs, found) ↦
        let hlen := th + thl * 4
        if p.len < hlen then some (.ip, comp, p :: ps)
        else
          match if found then vjChanges (comp.tstate cs).csHdr ip th thl hlen else none with
          | none => some (sendUncompressed comp cs ip hlen p ps)
          | some (changes, newSeq) => sendCompressed comp cs ip th hlen changes newSeq (p :: ps)

/-! ### Receiving -/

/-- What a call of the receiver finds. -/
structure VjEnv where
  /-- The memory behind the bytes of the first pbuf, by the distance from `payload`. -/
  behind : ℕ → BitVec 8
  /-- The payload behind the compressed header is aligned. -/
  aligned : Bool
  /-- `pbuf_header` can move it back over the uncompressed header. -/
  room : Bool
  /-- The pbufs for an aligned copy can be allocated. -/
  realign : Bool
  /-- The pbuf for the header can be allocated. -/
  prepend : Bool

/-- `vj_uncompress_uncomp`: the packet, or `none` for -1. -/
def vjUncompressUncomp (comp : VjCompress) (behind : ℕ → BitVec 8) :
    List Pbuf → Option (VjCompress × Option (List Pbuf))
  | [] => none
  | p :: ps =>
    let ip : Hdr := bytesAt p.payload behind
    let th := iphHl ip * 4
    let hlen := th + tcphHdrlen ip th * 4
    if maxSlots ≤ (ip 9).toNat ∨ p.len < th + 20 ∨ p.len < hlen ∨ maxHdr < hlen then
      some ({ comp with toss := true }, none)
    else
      let cs := (ip 9).toNat
      let p := { p with payload := p.payload.set 9 6 }
      let hdr := copyHdr hlen (bytesAt p.payload behind) (comp.rstate cs).csHdr
      some ({ comp with
        lastRecv := ip 9
        toss := false
        rstate := Function.update comp.rstate cs { comp.rstate cs with csHdr := hdr, csHlen := hlen } },
        some (p :: ps))

/-- A number of the compressed header at `cp`, and the place behind it. -/
def decode (mem : Hdr) (cp : ℕ) : ℕ × ℕ :=
  if mem cp = 0 then (readU16 mem (cp + 1), cp + 3) else ((mem cp).toNat, cp + 1)

/-- `DECODEL` of the field at `i`. -/
def decodel (mem : Hdr) (i : ℕ) (r : Hdr × ℕ) : Hdr × ℕ :=
  let d := decode mem r.2
  (writeU32 r.1 i ((readU32 r.1 i + d.1) % 2 ^ 32), d.2)

/-- `DECODES` of the field at `i`. -/
def decodes (mem : Hdr) (i : ℕ) (r : Hdr × ℕ) : Hdr × ℕ :=
  let d := decode mem r.2
  (writeU16 r.1 i ((readU16 r.1 i + d.1) % 2 ^ 16), d.2)

/-- `DECODEU` of the field at `i`. -/
def decodeu (mem : Hdr) (i : ℕ) (r : Hdr × ℕ) : Hdr × ℕ :=
  let d := decode mem r.2
  (writeU16 r.1 i d.1, d.2)

/-- `ntohs(IPH_LEN(&cs->cs_ip)) - cs->cs_hlen` as a `u32_t`: the data of the last packet. -/
def lastData (hdr : Hdr) (csHlen : ℕ) : ℕ := (readU16 hdr 2 + 2 ^ 32 - csHlen) % 2 ^ 32

/-- The default case of the `switch` of `vj_uncompress_tcp`. -/
def vjDefault (mem : Hdr) (changes : BitVec 8) (th : ℕ) (r : Hdr × ℕ) : Hdr × ℕ :=
  let r := if changes &&& newU ≠ 0 then decodeu mem (th + 18) (tcphSetFlag r.1 th tcpUrg, r.2)
    else (tcphUnsetFlag r.1 th tcpUrg, r.2)
  let r := if changes &&& newW ≠ 0 then decodes mem (th + 14) r else r
  let r := if changes &&& newA ≠ 0 then decodel mem (th + 8) r else r
  if changes &&& newS ≠ 0 then decodel mem (th + 4) r else r

/-- The `switch` of `vj_uncompress_tcp`. -/
def vjFields (mem : Hdr) (changes : BitVec 8) (th csHlen : ℕ) (r : Hdr × ℕ) : Hdr × ℕ :=
  let i := lastData r.1 csHlen
  if changes &&& specialsMask = specialI then
    let h := writeU32 r.1 (th + 8) ((readU32 r.1 (th + 8) + i) % 2 ^ 32)
    (writeU32 h (th + 4) ((readU32 h (th + 4) + i) % 2 ^ 32), r.2)
  else if changes &&& specialsMask = specialD then
    (writeU32 r.1 (th + 4) ((readU32 r.1 (th + 4) + i) % 2 ^ 32), r.2)
  else vjDefault mem changes th r

/-- The header in the slot after the compressed one behind its slot number, at `cp`, and the place behind that. -/
def vjRebuild (mem : Hdr) (changes : BitVec 8) (cs : Cstate) (cp : ℕ) : Hdr × ℕ :=
  let th := iphHl cs.csHdr * 4
  let h := writeU16 cs.csHdr (th + 16) (readU16 mem cp)
  let h := if changes &&& tcpPushBit ≠ 0 then tcphSetFlag h th tcpPsh else tcphUnsetFlag h th tcpPsh
  let r := vjFields mem changes th cs.csHlen (h, cp + 2)
  if changes &&& newI ≠ 0 then decodes mem 4 r else (writeU16 r.1 4 ((readU16 r.1 4 + 1) % 2 ^ 16), r.2)

/-- The header checksum. -/
def hdrChksum (hdr : Hdr) (hlen : ℕ) : ℕ :=
  2 ^ 16 - 1 - IpHdr.foldU32 (IpHdr.foldU32 (sumWords 0 (hdrBytes hdr hlen)).1) % 2 ^ 16

/-- The total length is filled in, and the header checksum is updated. The checksum is in memory order. -/
def vjFinish (hdr : Hdr) (totLen : ℕ) : Hdr :=
  let h := writeU16 hdr 2 (totLen % 2 ^ 16)
  let h := writeU16 h 10 0
  let chksum := hdrChksum h (iphHl h * 4)
  Function.update (Function.update h 10 (BitVec.ofNat 8 chksum)) 11 (BitVec.ofNat 8 (chksum / 2 ^ 8))

/-- The pbufs of `pbuf_alloc(PBUF_RAW, ..., PBUF_POOL)`, with these bytes in them; at most `n` pbufs. -/
def poolPbufs : ℕ → List (BitVec 8) → List Pbuf
  | 0, _ => []
  | n + 1, bytes =>
    ⟨bytes.take pbufPoolBufsize, bytes.length⟩ ::
      if bytes.length ≤ pbufPoolBufsize then [] else poolPbufs n (bytes.drop pbufPoolBufsize)

/-- The first pbuf is copied to where the payload is aligned, behind room for the header. -/
def vjRealign (csHlen : ℕ) : List Pbuf → Option (List Pbuf)
  | [] => none
  | p :: ps =>
    (pbufHide csHlen (poolPbufs (csHlen + p.len + 1) (List.replicate csHlen 0 ++ p.payload))).bind fun np ↦
      if ps = [] then some np else pbufCat ps np

/-- The header is put in front, in the first pbuf if there is room for it. -/
def vjPrepend (room prepend : Bool) (hdr : List (BitVec 8)) : List Pbuf → Option (Option (List Pbuf))
  | [] => none
  | p :: ps =>
    if room then some (some (⟨hdr ++ p.payload, (p.totLen + hdr.length) % 2 ^ 16⟩ :: ps))
    else if pbufPoolBufsize < hdr.length then none
    else if prepend then (pbufCat (p :: ps) [⟨hdr, hdr.length⟩]).map some
    else some none

/-- The label `bad`. -/
def VjCompress.bad (comp : VjCompress) : VjCompress := { comp with toss := true }

/-- `vj_uncompress_tcp` behind the slot number, which is that of the slot that was received last. -/
def vjUncompressSlot (comp : VjCompress) (env : VjEnv) (changes : BitVec 8) (cp : ℕ) (p : Pbuf) (ps : List Pbuf) :
    Option (VjCompress × Option (List Pbuf)) :=
  let cs := comp.rstate comp.lastRecv.toNat
  let r := vjRebuild (bytesAt p.payload env.behind) changes cs cp
  if p.len < r.2 then some ((comp.setRHdr comp.lastRecv.toNat r.1).bad, none)
  else
    let hdr := vjFinish r.1 (p.totLen + 2 ^ 32 - r.2 + cs.csHlen)
    let comp := comp.setRHdr comp.lastRecv.toNat hdr
    (pbufHide r.2 (p :: ps)).bind fun n0 ↦
      if env.aligned = false ∧ env.realign = false then some (comp.bad, none)
      else
        (if env.aligned then some n0 else vjRealign cs.csHlen n0).bind fun n0 ↦
          (vjPrepend (!env.aligned || env.room) env.prepend (hdrBytes hdr cs.csHlen) n0).map fun
            | some n0 => (comp, some n0)
            | none => (comp.bad, none)

/-- `vj_uncompress_tcp`: the packet, or `none` for -1. -/
def vjUncompressTcp (comp : VjCompress) (env : VjEnv) : List Pbuf → Option (VjCompress × Option (List Pbuf))
  | [] => none
  | p :: ps =>
    let mem : Hdr := bytesAt p.payload env.behind
    if mem 0 &&& newC ≠ 0 then
      if maxSlots ≤ (mem 1).toNat then some (comp.bad, none)
      else vjUncompressSlot { comp with toss := false, lastRecv := mem 1 } env (mem 0) 2 p ps
    else if comp.toss then some (comp, none)
    else vjUncompressSlot comp env (mem 0) 1 p ps

/-! ### A link -/

/-- A packet, and what the two ends find when it is sent. -/
structure VjInput where
  pb : List Pbuf
  /-- The memory behind the first pbuf of the packet. -/
  behind : ℕ → BitVec 8
  env : VjEnv

/-- Two ends of a link. -/
structure VjLink where
  xmit : VjCompress
  recv : VjCompress

/-- A packet crosses the link: what comes out. -/
def VjLink.pass (s : VjLink) (x : VjInput) : Option (VjLink × Option (List Pbuf)) :=
  (vjCompressTcp s.xmit x.behind x.pb).bind fun
    | (.ip, xmit, pb) => some (⟨xmit, s.recv⟩, some pb)
    | (.uncompressedTcp, xmit, pb) => (vjUncompressUncomp s.recv x.env.behind pb).map fun r ↦ (⟨xmit, r.1⟩, r.2)
    | (.compressedTcp, xmit, pb) => (vjUncompressTcp s.recv x.env pb).map fun r ↦ (⟨xmit, r.1⟩, r.2)

/-- Packets cross the link one after the other. -/
def VjLink.run (s : VjLink) : List VjInput → Option (VjLink × List (Option (List Pbuf)))
  | [] => some (s, [])
  | x :: xs => (s.pass x).bind fun r ↦ (r.1.run xs).map fun r' ↦ (r'.1, r.2 :: r'.2)

end Lwip.Netif.Ppp
