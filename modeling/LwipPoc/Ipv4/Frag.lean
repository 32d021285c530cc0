import LwipPoc.Core.PbufBytes
import LwipPoc.Ipv4.HeaderMem
import LwipPoc.Ipv4.Input

/-!
# Fragmentation

`ip_frag` of `ipv4/ip_frag.c`, in the three ways in which it can be built. They share the loop and the calculation
of offsets and lengths, and fill a fragment in different ways:

* with `IP_FRAG_USES_STATIC_BUF`, the payload is copied into a static buffer, and the fragment is a `PBUF_REF` to it
  behind an empty pbuf for the link header;
* with `LWIP_NETIF_TX_SINGLE_PBUF`, it is copied into a new pbuf;
* otherwise the pbufs of the packet are mirrored by custom pbufs behind a new header, each of which holds a
  reference. The call walks along the packet, and moves the `payload` of its pbufs as it goes.

The state has the pbufs of the packet behind the walk and ahead of it. The outcomes of the allocations are those
of the environment, and so is what is in the static buffer and in new pbufs. With an MTU that has no room for eight
bytes behind a header, the loop goes round until an allocation fails.
-/

namespace Lwip.Ipv4

open Lwip.Core IpHdr

/-- How `ip_frag` is built. -/
inductive FragVariant
  /-- `IP_FRAG_USES_STATIC_BUF`. -/
  | staticBuf
  /-- `LWIP_NETIF_TX_SINGLE_PBUF`. -/
  | singlePbuf
  /-- `struct pbuf_custom_ref`. -/
  | customRef
  deriving DecidableEq, Repr

/-- A pbuf of the packet that is cut. -/
structure FragPbuf where
  pbuf : Pbuf
  /-- How far its `payload` is from where it once was. -/
  moved : ℕ
  ref : ℕ
  deriving DecidableEq, Repr

/-- What is passed to the output function: the pbufs, and the pbufs of the packet that are mirrored by them, by
their positions. -/
structure Fragment where
  pbufs : List Pbuf
  originals : List ℕ
  deriving DecidableEq, Repr

/-- What `ip_frag` finds around it. -/
structure FragEnv where
  /-- `netif->mtu`. -/
  mtu : ℕ
  /-- The memory behind the bytes of the first pbuf. -/
  behind : ℕ → BitVec 8
  /-- `buf`, and the memory behind it. -/
  buf : ℕ → BitVec 8
  /-- The bytes of `buf` from its aligned beginning on. -/
  bufLen : ℕ
  /-- What is in a new pbuf. -/
  fresh : ℕ → BitVec 8
  /-- The outcomes of the allocations, in their order. -/
  alloc : ℕ → Bool

/-- The variables of the loop. -/
structure FragState where
  left : ℕ
  ofo : ℕ
  poff : ℕ
  newpbuflen : ℕ
  /-- The static buffer. -/
  buf : ℕ → BitVec 8
  /-- How many allocations there were. -/
  allocs : ℕ
  /-- The pbufs of the packet in front of `p`. -/
  done : List FragPbuf
  /-- `p`, and the pbufs behind it. -/
  todo : List FragPbuf
  sent : List Fragment

/-- `nfb`: a quotient of `int`s, in a `u16_t`. -/
def FragEnv.nfb (env : FragEnv) : ℕ := (((env.mtu : ℤ) - ipHlen).tdiv 8 % 2 ^ 16).toNat

/-- A `u16_t` in network order. -/
def netU16 (n : ℕ) : List (BitVec 8) := [BitVec.ofNat 8 (n / 2 ^ 8), BitVec.ofNat 8 n]

/-- The header is corrected. -/
def fragHdr (iphdr : ℕ → BitVec 8) (tmp cop : ℕ) : ℕ → BitVec 8 :=
  chksumMem (writeAt (writeAt iphdr 6 (netU16 tmp)) 2 (netU16 (cop + ipHlen)))

namespace Frag

/-! ### Filling a fragment -/

/-- The fragment is filled and sent: from the static buffer. -/
def fillStatic (env : FragEnv) (last : Bool) (tmp cop : ℕ) (s : FragState) : Option (ErrT × FragState) :=
  let r := pbufCopyPartial (s.todo.map FragPbuf.pbuf) (bytesFrom s.buf ipHlen cop) cop s.poff
  if env.bufLen < ipHlen + r.2 then none
  else
    let buf := fragHdr (writeAt s.buf ipHlen r.1) tmp cop
    let s' := { s with poff := (s.poff + r.2) % 2 ^ 16, buf := buf, allocs := s.allocs + 1 }
    let rambuf : Pbuf := ⟨memBytes buf env.mtu, env.mtu⟩
    (if last = true then pbufRealloc (s.left + ipHlen) [rambuf] else some [rambuf]).bind fun rambuf ↦
      if env.alloc s.allocs = true then
        (pbufCat rambuf [⟨[], 0⟩]).map fun f ↦ (.ok, { s' with sent := s.sent ++ [⟨f, []⟩] })
      else some (.mem, s')

/-- In a pbuf of its own, with room for the header. -/
def fillSingle (env : FragEnv) (iphdr : ℕ → BitVec 8) (tmp cop : ℕ) (s : FragState) : Option (ErrT × FragState) :=
  let s' := { s with allocs := s.allocs + 1 }
  if env.alloc s.allocs = true then
    let r := pbufCopyPartial (s.todo.map FragPbuf.pbuf) (memBytes env.fresh cop) cop s.poff
    let rambuf : Pbuf := ⟨memBytes (fragHdr iphdr tmp cop) ipHlen ++ r.1, (cop + ipHlen) % 2 ^ 16⟩
    some (.ok, { s' with poff := (s.poff + r.2) % 2 ^ 16, sent := s.sent ++ [⟨[rambuf], []⟩] })
  else some (.mem, s')

/-- The pbufs at these positions lose a reference. -/
def unrefAt (is : List ℕ) (ps : List FragPbuf) : List FragPbuf :=
  is.foldl (fun ps i ↦ ps.modify i fun p ↦ { p with ref := p.ref - 1 }) ps

/-- The loop that mirrors the pbufs of the packet behind `rambuf`. If a mirror cannot be allocated, those that are
there are freed with `rambuf`, and with them the references. -/
def mirrorLoop (env : FragEnv) (s : FragState) :
    ℕ → List Pbuf → List ℕ → List FragPbuf → Option (ErrT × List Pbuf × List ℕ × FragState)
  | leftToCopy, rambuf, originals, [] =>
    if leftToCopy = 0 then some (.ok, rambuf, originals, { s with todo := [] }) else none
  | leftToCopy, rambuf, originals, p :: ps =>
    if leftToCopy = 0 then some (.ok, rambuf, originals, { s with todo := p :: ps })
    else
      let newpbuflen := if leftToCopy < p.pbuf.len then leftToCopy else p.pbuf.len
      let s := { s with newpbuflen := newpbuflen }
      if newpbuflen = 0 then mirrorLoop env { s with done := s.done ++ [p] } leftToCopy rambuf originals ps
      else if env.alloc s.allocs = false then
        let ps := unrefAt originals (s.done ++ p :: ps)
        some (.mem, [], [],
          { s with allocs := s.allocs + 1, done := ps.take s.done.length, todo := ps.drop s.done.length })
      else
        let s := { s with allocs := s.allocs + 1 }
        let p := { p with ref := p.ref + 1 }
        (pbufCat [⟨p.pbuf.payload.take newpbuflen, newpbuflen⟩] rambuf).bind fun rambuf ↦
          let originals := originals ++ [s.done.length]
          if leftToCopy - newpbuflen = 0 then some (.ok, rambuf, originals, { s with todo := p :: ps })
          else mirrorLoop env { s with done := s.done ++ [p] } (leftToCopy - newpbuflen) rambuf originals ps

/-- By mirrors of the pbufs of the packet. -/
def fillCustom (env : FragEnv) (iphdr : ℕ → BitVec 8) (tmp cop : ℕ) (s : FragState) : Option (ErrT × FragState) :=
  let s' := { s with allocs := s.allocs + 1 }
  if env.alloc s.allocs = true then
    match s.todo with
    | [] => none
    | p :: ps =>
      -- "this needs a pbuf in one piece!"
      if p.pbuf.len < ipHlen then none
      else
        let p := { p with pbuf := { p.pbuf with payload := p.pbuf.payload.drop s.poff }, moved := p.moved + s.poff }
        (mirrorLoop env s' cop [⟨memBytes (fragHdr iphdr tmp cop) ipHlen, ipHlen⟩] [] (p :: ps)).map fun r ↦
          if r.1 = .ok then
            (.ok, { r.2.2.2 with poff := r.2.2.2.newpbuflen, sent := s.sent ++ [⟨r.2.1, r.2.2.1⟩] })
          else (r.1, r.2.2.2)
  else some (.mem, s')

/-- One of the three ways. -/
def fill (v : FragVariant) (env : FragEnv) (iphdr : ℕ → BitVec 8) (last : Bool) (tmp cop : ℕ) (s : FragState) :
    Option (ErrT × FragState) :=
  match v with
  | .staticBuf => fillStatic env last tmp cop s
  | .singlePbuf => fillSingle env iphdr tmp cop s
  | .customRef => fillCustom env iphdr tmp cop s

/-! ### The loop -/

/-- The loop. -/
def fragLoop (v : FragVariant) (env : FragEnv) (iphdr : ℕ → BitVec 8) (omf : Bool) :
    ℕ → FragState → Option (ErrT × FragState)
  | 0, _ => none
  | fuel + 1, s =>
    if s.left = 0 then some (.ok, s)
    else
      let last := decide (s.left + ipHlen ≤ env.mtu)
      -- `IP_MF`
      let tmp := (if omf || !last then 2 ^ 13 else 0) + s.ofo % 2 ^ 13
      let cop := if last then s.left else env.nfb * 8 % 2 ^ 16
      (fill v env iphdr last tmp cop s).bind fun r ↦
        if r.1 = .ok then
          fragLoop v env iphdr omf fuel
            { r.2 with left := (r.2.left + 2 ^ 16 - cop) % 2 ^ 16, ofo := (r.2.ofo + env.nfb) % 2 ^ 16 }
        else some r

/-- The memory from `p->payload` on. -/
def iphdr (env : FragEnv) (ps : List FragPbuf) : ℕ → BitVec 8 :=
  bytesAt (firstBytes (ps.map FragPbuf.pbuf)) env.behind

/-- The state in front of the loop. -/
def start (v : FragVariant) (env : FragEnv) (ps : List FragPbuf) : FragState where
  left := (pbufTotLen (ps.map FragPbuf.pbuf) + 2 ^ 16 - ipHlen) % 2 ^ 16
  ofo := (readHdr (iphdr env ps)).offset % 2 ^ 13
  poff := ipHlen
  newpbuflen := 0
  buf := if v = .staticBuf then writeAt env.buf 0 (memBytes (iphdr env ps) ipHlen) else env.buf
  allocs := if v = .staticBuf then 1 else 0
  done := []
  todo := ps
  sent := []

/-- **`ip_frag`**: what it returns within so many rounds, and the state that it leaves. -/
def ipFrag (v : FragVariant) (env : FragEnv) (ps : List FragPbuf) (fuel : ℕ) : Option (ErrT × FragState) :=
  let s := start v env ps
  if ps = [] then none
  -- the `PBUF_REF`
  else if v = .staticBuf ∧ env.alloc 0 = false then some (.mem, s)
  else fragLoop v env (iphdr env ps) (readHdr (iphdr env ps)).mf fuel s

end Frag

end Lwip.Ipv4
