import LwipPoc.Core.Pbuf
import LwipPoc.Foundation.Feed

/-!
# PPP on a serial line

`pppifOutput`, `pppWrite` and `pppInProc` of `netif/ppp/ppp.c`. A packet is sent as a frame: the address and
control field, which may be left out; the protocol, whose first byte may be; the data; and a frame check
sequence. A flag follows, and after a pause one precedes. Bytes in the character map of the sender are escaped.

The receiver takes the bytes one by one. It puts the data into pbufs from the pool, the first of which begins
with a `struct pppInputHeader` for `pppInput`. The last one is kept apart from the chain until it is full
or the frame ends, and the check sequence, which was taken for data, is cut off then. A result of `none` is an
assertion that fails, or an access through a null pointer.

* Each `pppAppend` may allocate a pbuf; the environment decides whether it can.
* The two calls of `sys_jiffies` are inputs, and the link is up if `linkUp` says so. There is no VJ compression.
-/

namespace Lwip.Netif.Ppp

open Lwip.Core

def pppFlag : BitVec 8 := 0x7e
def pppEscape : BitVec 8 := 0x7d
def pppTrans : BitVec 8 := 0x20
def pppAllstations : BitVec 8 := 0xff
def pppUi : BitVec 8 := 0x03

/-- `PPP_IP`. -/
def pppIp : BitVec 16 := 0x21

/-- `PBUF_POOL_BUFSIZE`. -/
def pbufPoolBufsize : ℕ := 592

/-! ### The frame check sequence -/

/-- The table of the frame check sequence. -/
def fcstab : List (BitVec 16) := [
  0x0000, 0x1189, 0x2312, 0x329b, 0x4624, 0x57ad, 0x6536, 0x74bf, 0x8c48, 0x9dc1, 0xaf5a, 0xbed3,
  0xca6c, 0xdbe5, 0xe97e, 0xf8f7, 0x1081, 0x0108, 0x3393, 0x221a, 0x56a5, 0x472c, 0x75b7, 0x643e,
  0x9cc9, 0x8d40, 0xbfdb, 0xae52, 0xdaed, 0xcb64, 0xf9ff, 0xe876, 0x2102, 0x308b, 0x0210, 0x1399,
  0x6726, 0x76af, 0x4434, 0x55bd, 0xad4a, 0xbcc3, 0x8e58, 0x9fd1, 0xeb6e, 0xfae7, 0xc87c, 0xd9f5,
  0x3183, 0x200a, 0x1291, 0x0318, 0x77a7, 0x662e, 0x54b5, 0x453c, 0xbdcb, 0xac42, 0x9ed9, 0x8f50,
  0xfbef, 0xea66, 0xd8fd, 0xc974, 0x4204, 0x538d, 0x6116, 0x709f, 0x0420, 0x15a9, 0x2732, 0x36bb,
  0xce4c, 0xdfc5, 0xed5e, 0xfcd7, 0x8868, 0x99e1, 0xab7a, 0xbaf3, 0x5285, 0x430c, 0x7197, 0x601e,
  0x14a1, 0x0528, 0x37b3, 0x263a, 0xdecd, 0xcf44, 0xfddf, 0xec56, 0x98e9, 0x8960, 0xbbfb, 0xaa72,
  0x6306, 0x728f, 0x4014, 0x519d, 0x2522, 0x34ab, 0x0630, 0x17b9, 0xef4e, 0xfec7, 0xcc5c, 0xddd5,
  0xa96a, 0xb8e3, 0x8a78, 0x9bf1, 0x7387, 0x620e, 0x5095, 0x411c, 0x35a3, 0x242a, 0x16b1, 0x0738,
  0xffcf, 0xee46, 0xdcdd, 0xcd54, 0xb9eb, 0xa862, 0x9af9, 0x8b70, 0x8408, 0x9581, 0xa71a, 0xb693,
  0xc22c, 0xd3a5, 0xe13e, 0xf0b7, 0x0840, 0x19c9, 0x2b52, 0x3adb, 0x4e64, 0x5fed, 0x6d76, 0x7cff,
  0x9489, 0x8500, 0xb79b, 0xa612, 0xd2ad, 0xc324, 0xf1bf, 0xe036, 0x18c1, 0x0948, 0x3bd3, 0x2a5a,
  0x5ee5, 0x4f6c, 0x7df7, 0x6c7e, 0xa50a, 0xb483, 0x8618, 0x9791, 0xe32e, 0xf2a7, 0xc03c, 0xd1b5,
  0x2942, 0x38cb, 0x0a50, 0x1bd9, 0x6f66, 0x7eef, 0x4c74, 0x5dfd, 0xb58b, 0xa402, 0x9699, 0x8710,
  0xf3af, 0xe226, 0xd0bd, 0xc134, 0x39c3, 0x284a, 0x1ad1, 0x0b58, 0x7fe7, 0x6e6e, 0x5cf5, 0x4d7c,
  0xc60c, 0xd785, 0xe51e, 0xf497, 0x8028, 0x91a1, 0xa33a, 0xb2b3, 0x4a44, 0x5bcd, 0x6956, 0x78df,
  0x0c60, 0x1de9, 0x2f72, 0x3efb, 0xd68d, 0xc704, 0xf59f, 0xe416, 0x90a9, 0x8120, 0xb3bb, 0xa232,
  0x5ac5, 0x4b4c, 0x79d7, 0x685e, 0x1ce1, 0x0d68, 0x3ff3, 0x2e7a, 0xe70e, 0xf687, 0xc41c, 0xd595,
  0xa12a, 0xb0a3, 0x8238, 0x93b1, 0x6b46, 0x7acf, 0x4854, 0x59dd, 0x2d62, 0x3ceb, 0x0e70, 0x1ff9,
  0xf78f, 0xe606, 0xd49d, 0xc514, 0xb1ab, 0xa022, 0x92b9, 0x8330, 0x7bc7, 0x6a4e, 0x58d5, 0x495c,
  0x3de3, 0x2c6a, 0x1ef1, 0x0f78]

def pppInitfcs : BitVec 16 := 0xffff
def pppGoodfcs : BitVec 16 := 0xf0b8

/-- `PPP_FCS`, for a sequence that is kept in `w` bits. -/
def pppFcs {w : ℕ} (fcs : BitVec w) (c : BitVec 8) : BitVec w :=
  (fcs >>> 8) ^^^ (fcstab.getD ((fcs ^^^ c.setWidth w) &&& 0xff).toNat 0).setWidth w

/-! ### Character maps -/

/-- `ext_accm`: 32 bytes, with a bit for each character. -/
abbrev ExtAccm := ℕ → BitVec 8

def pppACCMMask : List (BitVec 8) := [0x01, 0x02, 0x04, 0x08, 0x10, 0x20, 0x40, 0x80]

/-- `ESCAPE_P`. -/
def escapeP (accm : ExtAccm) (c : BitVec 8) : Bool :=
  accm (c >>> 3).toNat &&& pppACCMMask.getD (c &&& 0x07).toNat 0 ≠ 0

/-! ### Sending -/

/-- The output: the pbufs that are full, and the one at the end, if it could be allocated. -/
structure OutChain where
  front : List (List (BitVec 8))
  tail : Option (List (BitVec 8))
  deriving DecidableEq, Repr

/-- The bytes that `nPut` writes. -/
def OutChain.bytes (nb : OutChain) : List (BitVec 8) := (nb.front ++ nb.tail.toList).flatten

/-- `pppAppend`. The `k`th pbuf behind the first can be allocated if `alloc k` says so. -/
def pppAppend (alloc : ℕ → Bool) (c : BitVec 8) (nb : OutChain) (outACCM : Option ExtAccm) : OutChain :=
  match nb.tail with
  | none => nb
  | some t =>
    -- room for the character and an escape code
    let nb : OutChain := if pbufPoolBufsize < t.length + 2 then
      ⟨nb.front ++ [t], if alloc nb.front.length then some [] else none⟩ else nb
    { nb with tail := nb.tail.map fun t ↦
        if (outACCM.map (escapeP · c)).getD false then t ++ [pppEscape, c ^^^ pppTrans] else t ++ [c] }

/-- `PPPControl`, as far as the output goes by it. -/
structure PppControl where
  openFlag : Bool
  pcomp : Bool
  accomp : Bool
  lastXMit : BitVec 32
  outACCM : ExtAccm

/-- What a call of the output finds: the clock, whether the link is up, and memory. -/
structure OutEnv where
  now : BitVec 32
  now' : BitVec 32
  linkUp : Bool
  first : Bool
  alloc : ℕ → Bool

/-- A character of the frame, with the check sequence before any escape. -/
def put (pc : PppControl) (alloc : ℕ → Bool) (r : BitVec 32 × OutChain) (c : BitVec 8) : BitVec 32 × OutChain :=
  (pppFcs r.1 c, pppAppend alloc c r.2 (some pc.outACCM))

/-- A flag, if the line has been idle. -/
def openFrame (pc : PppControl) (env : OutEnv) : BitVec 32 × OutChain :=
  let nb : OutChain := ⟨[], some []⟩
  (0xffff, if 100 ≤ env.now - pc.lastXMit then pppAppend env.alloc pppFlag nb none else nb)

/-- The check sequence and the flag behind it; nothing is written if memory has run out. -/
def closeFrame (pc : PppControl) (env : OutEnv) (r : BitVec 32 × OutChain) :
    ErrT × List (BitVec 8) × PppControl :=
  let nb := pppAppend env.alloc ((~~~r.1).setWidth 8) r.2 (some pc.outACCM)
  let nb := pppAppend env.alloc ((~~~r.1 >>> 8).setWidth 8) nb (some pc.outACCM)
  let nb := pppAppend env.alloc pppFlag nb none
  let pc := { pc with lastXMit := env.now' }
  if nb.tail.isSome then (.ok, nb.bytes, pc) else (.mem, [], pc)

/-- `pppifOutput`: the bytes that it writes. -/
def pppifOutput (pc : PppControl) (env : OutEnv) (pb : List Pbuf) : ErrT × List (BitVec 8) × PppControl :=
  if pc.openFlag = false ∨ pb = [] then (.arg, [], pc)
  else if env.linkUp = false then (.rte, [], pc)
  else if env.first = false then (.mem, [], pc)
  else
    let r := openFrame pc env
    let r := if pc.accomp = false then put pc env.alloc (put pc env.alloc r pppAllstations) pppUi else r
    let r := if pc.pcomp = false ∨ 0xff < pppIp then put pc env.alloc r ((pppIp >>> 8).setWidth 8) else r
    let r := put pc env.alloc r (pppIp.setWidth 8)
    closeFrame pc env (pb.foldl (fun r p ↦ p.payload.foldl (put pc env.alloc) r) r)

/-- `pppWrite`; `PPPERR_ALLOC` is `ERR_MEM` here. -/
def pppWrite (pc : PppControl) (env : OutEnv) (s : List (BitVec 8)) : ErrT × List (BitVec 8) × PppControl :=
  if env.first = false then (.mem, [], pc)
  else closeFrame pc env (s.foldl (put pc env.alloc) (openFrame pc env))

/-! ### Receiving -/

inductive PppDevStates
  | pdIdle
  | pdStart
  | pdAddress
  | pdControl
  | pdProtocol1
  | pdProtocol2
  | pdData
  deriving DecidableEq, Repr

/-- `inTail`: null, the same as `inHead`, or a pbuf behind its chain that is not linked yet. -/
inductive InTail
  | null
  | head
  | own (p : Pbuf)
  deriving DecidableEq, Repr

/-- `PPPControlRx`. -/
structure PppControlRx where
  pd : BitVec 32
  inHead : List Pbuf
  inTail : InTail
  inProtocol : BitVec 16
  inFCS : BitVec 16
  inState : PppDevStates
  inEscaped : Bool
  inACCM : ExtAccm

/-- `struct pppInputHeader`. -/
structure PppInputHeader where
  unit : BitVec 32
  proto : BitVec 16
  deriving DecidableEq, Repr

/-- The header in memory, with what is in its last two bytes. -/
def PppInputHeader.bytes (pih : PppInputHeader) (pad : BitVec 16) : List (BitVec 8) :=
  [pih.unit.setWidth 8, (pih.unit >>> 8).setWidth 8, (pih.unit >>> 16).setWidth 8, (pih.unit >>> 24).setWidth 8,
    pih.proto.setWidth 8, (pih.proto >>> 8).setWidth 8, pad.setWidth 8, (pad >>> 8).setWidth 8]

/-- The header that is read. -/
def PppInputHeader.ofBytes : List (BitVec 8) → Option PppInputHeader
  | u₀ :: u₁ :: u₂ :: u₃ :: p₀ :: p₁ :: _ :: _ :: _ =>
    some ⟨u₃ ++ u₂ ++ u₁ ++ u₀, p₁ ++ p₀⟩
  | _ => none

/-- The beginning of `pppInput`: the header, and the packet behind it. -/
def pppInput (nb : List Pbuf) : Option (PppInputHeader × List Pbuf) :=
  (PppInputHeader.ofBytes (nb.headD ⟨[], 0⟩).payload).bind fun pih ↦
    (pbufHide 8 nb).map fun nb ↦ (pih, nb)

namespace PppControlRx

/-- `pppDrop`. -/
def pppDrop (s : PppControlRx) : PppControlRx := { s with inHead := [], inTail := .null }

/-- The chain with the last pbuf linked to it; `tot_len` of that one is what is in it. -/
def link (s : PppControlRx) : Option (List Pbuf) :=
  match s.inTail, s.inHead with
  | .null, _ | .head, [] => none
  | .head, p :: ps => some ({ p with totLen := p.len } :: ps)
  | .own t, ps => pbufCat [{ t with totLen := t.len }] ps

/-- `pcrx->inTail->len`. -/
def tailLen (s : PppControlRx) : Option ℕ :=
  match s.inTail with
  | .null => none
  | .head => s.inHead.head?.map Pbuf.len
  | .own t => some t.len

/-- The check sequence is cut off. -/
def trimFcs (s : PppControlRx) : Option (List Pbuf) :=
  s.tailLen.bind fun len ↦
    if 2 ≤ len then
      let cut (p : Pbuf) : Pbuf := { p with payload := p.payload.take (len - 2) }
      match s.inTail with
      | .own t => link { s with inTail := .own (cut t) }
      | _ => link { s with inHead := s.inHead.modify 0 cut }
    else s.link.bind fun ps ↦ pbufRealloc ((pbufTotLen ps + 2 ^ 16 - 2) % 2 ^ 16) ps

/-- A flag. The chain that may be returned goes to `pppInput`. -/
def flag (s : PppControlRx) : Option (PppControlRx × Option (List Pbuf)) :=
  let next (s : PppControlRx) : PppControlRx :=
    { s with inFCS := pppInitfcs, inState := .pdAddress, inEscaped := false }
  match s.inState with
  | .pdIdle | .pdStart | .pdAddress => some (next s, none)
  | .pdControl | .pdProtocol1 | .pdProtocol2 => some (next s.pppDrop, none)
  | .pdData =>
    if s.inFCS ≠ pppGoodfcs then some (next s.pppDrop, none)
    else s.trimFcs.map fun inp ↦ (next { s with inHead := [], inTail := .null }, some inp)

/-- The case `PDPROTOCOL1`. -/
def protocol1 (s : PppControlRx) (c : BitVec 8) : PppControlRx :=
  if c &&& 1 ≠ 0 then { s with inProtocol := c.setWidth 16, inState := .pdData }
  else { s with inProtocol := c.setWidth 16 <<< 8, inState := .pdProtocol2 }

/-- The case `PDCONTROL`, with the one it falls through to. -/
def control (s : PppControlRx) (c : BitVec 8) : PppControlRx :=
  if c = pppUi then { s with inState := .pdProtocol1 } else s.protocol1 c

/-- The case `PDADDRESS`, with those it falls through to. -/
def address (s : PppControlRx) (c : BitVec 8) : PppControlRx :=
  if c = pppAllstations then { s with inState := .pdControl } else s.control c

/-- The last pbuf gets a character. -/
def load (s : PppControlRx) (c : BitVec 8) : PppControlRx :=
  let add (p : Pbuf) : Pbuf := { p with payload := p.payload ++ [c] }
  match s.inTail with
  | .null => s
  | .head => { s with inHead := s.inHead.modify 0 add }
  | .own t => { s with inTail := .own (add t) }

/-- The case `PDDATA`; `mem` is what the padding of the header would have in it. -/
def data (s : PppControlRx) (c : BitVec 8) (mem : Option (BitVec 16)) : Option PppControlRx :=
  if s.tailLen = none ∨ s.tailLen = some pbufPoolBufsize then
    let linked : Option PppControlRx :=
      match s.inTail with
      | .null => some s
      | .head => s.link.map fun ps ↦ { s with inHead := ps }
      | .own _ => s.link.map fun ps ↦ { s with inHead := ps, inTail := .null }
    linked.map fun s ↦
      match mem with
      | none => { s.pppDrop with inState := .pdStart }
      | some pad =>
        if s.inHead = [] then
          load { s with inHead := [⟨PppInputHeader.bytes ⟨s.pd, s.inProtocol⟩ pad, 0⟩], inTail := .head } c
        else load { s with inTail := .own ⟨[], 0⟩ } c
  else some (s.load c)

/-- A character relative to the state, and the check sequence. -/
def process (s : PppControlRx) (c : BitVec 8) (mem : Option (BitVec 16)) : Option PppControlRx :=
  let next : Option PppControlRx :=
    match s.inState with
    | .pdIdle => some (if c ≠ pppAllstations then s else address { s with inFCS := pppInitfcs } c)
    | .pdStart => some (address { s with inFCS := pppInitfcs } c)
    | .pdAddress => some (s.address c)
    | .pdControl => some (s.control c)
    | .pdProtocol1 => some (s.protocol1 c)
    | .pdProtocol2 => some { s with inProtocol := s.inProtocol ||| c.setWidth 16, inState := .pdData }
    | .pdData => s.data c mem
  next.map fun s ↦ { s with inFCS := pppFcs s.inFCS c }

end PppControlRx

open PppControlRx in
/-- `pppInProc`, for one character. -/
def pppInProc (c : BitVec 8) (mem : Option (BitVec 16)) (s : PppControlRx) :
    Option (PppControlRx × Option (List Pbuf)) :=
  if escapeP s.inACCM c then
    if c = pppEscape then some ({ s with inEscaped := true }, none)
    else if c = pppFlag then s.flag
    else some (s, none)
  else
    let r := if s.inEscaped then ({ s with inEscaped := false }, c ^^^ pppTrans) else (s, c)
    (process r.1 r.2 mem).map (·, none)

end Lwip.Netif.Ppp
