import LwipPoc.Core.Mem.Heap
import LwipPoc.Foundation.Execution
import LwipPoc.Foundation.SharedChains

/-!
# Packet buffers in memory

`core/pbuf.c` on the `struct pbuf`s themselves: chains by their `next` pointers, which may be shared, and
the fields `tot_len`, `len` and `ref` as the functions read and write them. A pbuf comes from one of two
pools, from the heap, or from the application (a *custom* pbuf), and is given back to where its fields
say. The heap also keeps a list of what it handed out and of what it was given back.

The bytes are left out: a copy is listed by the positions and the length that the functions pass to
`MEMCPY`. Where the payload begins is an offset from the pbuf, as far as `pbuf_header` compares the two.
A result of `none` is an assertion that fails — `LWIP_ERROR` stops the program as well —, an access to a
pbuf that has been freed, or a walk that comes to no end.
-/

namespace Lwip.Core

/-- `pbuf_layer`. -/
inductive PbufLayer
  | transport
  | ip
  | link
  | raw
  deriving DecidableEq, Repr

/-- `pbuf_type`. -/
inductive PbufType
  | ram
  | rom
  | ref
  | pool
  deriving DecidableEq, Repr

/-- The memory that a pbuf is taken from. -/
inductive PbufHome
  /-- `mem_malloc`. -/
  | heap
  /-- `MEMP_PBUF`. -/
  | memp
  /-- `MEMP_PBUF_POOL`. -/
  | pool
  /-- The application. -/
  | custom
  deriving DecidableEq, Repr

/-- A place for a pbuf. -/
structure PbufAddr where
  home : PbufHome
  index : ℕ
  deriving DecidableEq, Repr

/-- `struct pbuf`. Of the flags only `PBUF_FLAG_IS_CUSTOM` is looked at here. -/
structure PbufNode where
  next : Option PbufAddr
  /-- The offset of `payload` from the pbuf. -/
  payload : ℤ
  totLen : ℕ
  len : ℕ
  type : PbufType
  isCustom : Bool
  ref : ℕ
  deriving DecidableEq, Repr

/-- The pbufs in memory. -/
structure PbufHeap where
  /-- The pbufs that are in use. -/
  live : Finset PbufAddr
  /-- What is in memory, also at places that are not in use. -/
  pbuf : PbufAddr → PbufNode
  /-- The places that were handed out so far. -/
  allocated : List PbufAddr
  /-- The places that were given back so far, and where to. -/
  returned : List (PbufAddr × PbufHome)

/-- `SIZEOF_STRUCT_PBUF`. -/
def sizeofStructPbuf : ℕ := 24

/-- `PBUF_POOL_BUFSIZE_ALIGNED`: a segment of 536 bytes with its headers. -/
def pbufPoolBufsizeAligned : ℕ := 592

/-- The header offset of a layer. -/
def PbufLayer.offset : PbufLayer → ℕ
  | .transport => 14 + 20 + 20
  | .ip => 14 + 20
  | .link => 14
  | .raw => 0

/-- The memory for a type. -/
def PbufType.home : PbufType → PbufHome
  | .pool => .pool
  | .rom | .ref => .memp
  | .ram => .heap

/-- Where `pbuf_free` gives a pbuf back to. -/
def PbufNode.home (p : PbufNode) : PbufHome := if p.isCustom = true then .custom else p.type.home

namespace PbufHeap

/-- Write to a pbuf. -/
def set (s : PbufHeap) (a : PbufAddr) (p : PbufNode) : PbufHeap :=
  { s with pbuf := Function.update s.pbuf a p }

/-- `p->next = o`. -/
def setNext (s : PbufHeap) (a : PbufAddr) (o : Option PbufAddr) : PbufHeap :=
  s.set a { s.pbuf a with next := o }

/-- `p->ref = r`. -/
def setRef (s : PbufHeap) (a : PbufAddr) (r : ℕ) : PbufHeap := s.set a { s.pbuf a with ref := r }

/-- `p->tot_len = n`. -/
def setTotLen (s : PbufHeap) (a : PbufAddr) (n : ℕ) : PbufHeap := s.set a { s.pbuf a with totLen := n }

/-- A pbuf is taken from its memory. -/
def obtain (s : PbufHeap) (a : PbufAddr) (p : PbufNode) : PbufHeap :=
  { s with
    live := insert a s.live
    pbuf := Function.update s.pbuf a p
    allocated := s.allocated ++ [a] }

/-- A pbuf is given back. -/
def giveBack (s : PbufHeap) (a : PbufAddr) : PbufHeap :=
  { s with live := s.live.erase a, returned := s.returned ++ [(a, (s.pbuf a).home)] }

/-- Enough steps for the walk along a chain. -/
def steps (s : PbufHeap) : ℕ := s.live.card + 1

/-! ### Reference counts -/

/-- The loop of `pbuf_free`: the number of freed pbufs is counted in a `u8_t`. -/
def pbufFreeLoop : ℕ → ℕ → Option PbufAddr → PbufHeap → Option (ℕ × PbufHeap)
  | _, count, none, s => some (count, s)
  | 0, _, some _, _ => none
  | fuel + 1, count, some p, s =>
    if p ∈ s.live ∧ 0 < (s.pbuf p).ref then
      let s' := s.setRef p ((s.pbuf p).ref - 1)
      if (s.pbuf p).ref - 1 = 0 then
        pbufFreeLoop fuel ((count + 1) % 2 ^ 8) (s.pbuf p).next (s'.giveBack p)
      else some (count, s')
    else none

/-- `pbuf_free`. -/
def pbufFree (s : PbufHeap) (p : PbufAddr) : Option (ℕ × PbufHeap) := pbufFreeLoop s.steps 0 (some p) s

/-- `pbuf_ref`. -/
def pbufRef (s : PbufHeap) : Option PbufAddr → Option PbufHeap
  | none => some s
  | some p =>
    if p ∈ s.live then some (s.setRef p (((s.pbuf p).ref + 1) % 2 ^ 16)) else none

/-! ### Allocation -/

/-- The tail of a chain from the pool: `r` is the last pbuf so far, `rem` the number of bytes that are
still to be allocated, and `mem` what `memp_malloc` returns, and nothing after it. -/
def pbufAllocTail (p : PbufAddr) : PbufAddr → ℕ → List PbufAddr → PbufHeap →
    Option (Option PbufAddr × PbufHeap)
  | r, rem, mem, s =>
    if rem = 0 then some (some p, s.set p { s.pbuf p with ref := 1, isCustom := false })
    else
      match mem with
      -- free the chain so far allocated
      | [] => (s.pbufFree p).map fun x ↦ (none, x.2)
      | q :: mem =>
        if rem < 0xffff then
          let len := min rem pbufPoolBufsizeAligned
          let s := s.obtain q ⟨none, sizeofStructPbuf, rem, len, .pool, false, 1⟩
          pbufAllocTail p q (rem - len) mem (s.setNext r (some q))
        else none

/-- `pbuf_alloc`. In the pool, the flags of the first pbuf are set last. -/
def pbufAlloc (s : PbufHeap) (layer : PbufLayer) (length : ℕ) (type : PbufType) (mem : List PbufAddr) :
    Option (Option PbufAddr × PbufHeap) :=
  match mem with
  | [] => some (none, s)
  | p :: mem =>
    match type with
    | .pool =>
      let len := min length (pbufPoolBufsizeAligned - memAlignSize layer.offset)
      pbufAllocTail p p (length - len) mem (s.obtain p ⟨none,
        sizeofStructPbuf + memAlignSize layer.offset, length, len, .pool, (s.pbuf p).isCustom, 1⟩)
    | .ram => some (some p, s.obtain p
        ⟨none, memAlignSize (sizeofStructPbuf + layer.offset), length, length, .ram, false, 1⟩)
    -- the caller must set the payload
    | .rom | .ref => some (some p, s.obtain p ⟨none, 0, length, length, type, false, 1⟩)

/-- `pbuf_alloced_custom`; `payload` is the offset of the buffer from the pbuf. -/
def pbufAllocedCustom (s : PbufHeap) (layer : PbufLayer) (length : ℕ) (type : PbufType) (p : PbufAddr)
    (payload : Option ℤ) (payloadLen : ℕ) : Option PbufAddr × PbufHeap :=
  if payloadLen < memAlignSize layer.offset + length then (none, s)
  else (some p, s.obtain p ⟨none, (payload.map fun x ↦ x + memAlignSize layer.offset : Option ℤ).getD 0, length, length,
    type, true, 1⟩)

/-! ### Lengths -/

/-- The walk of `pbuf_realloc` over the pbufs that remain: the new last pbuf, and its length. -/
def pbufReallocWalk (grow : ℕ) : ℕ → ℕ → PbufAddr → PbufHeap → Option ((PbufAddr × ℕ) × PbufHeap)
  | 0, _, _, _ => none
  | fuel + 1, rem, q, s =>
    if q ∈ s.live then
      if (s.pbuf q).len < rem then
        match (s.pbuf q).next with
        | none => none
        | some q' => pbufReallocWalk grow fuel (rem - (s.pbuf q).len) q'
            (s.setTotLen q (((s.pbuf q).totLen + grow) % 2 ^ 16))
      else some ((q, rem), s)
    else none

/-- The end of `pbuf_realloc`: the pbufs behind the new last one are freed. -/
def freeRest (s : PbufHeap) (q : PbufAddr) : Option PbufHeap :=
  match (s.pbuf q).next with
  | none => some (s.setNext q none)
  | some n => (s.pbufFree n).map fun x ↦ x.2.setNext q none

/-- `pbuf_realloc`; `trims` says whether `mem_trim` returns its argument. -/
def pbufRealloc (s : PbufHeap) (p : PbufAddr) (newLen : ℕ) (trims : Bool) : Option PbufHeap :=
  if p ∈ s.live then
    -- "enlarging not yet supported"
    if (s.pbuf p).totLen ≤ newLen then some s
    else
      match pbufReallocWalk ((newLen + 2 ^ 16 - (s.pbuf p).totLen) % 2 ^ 16) s.steps newLen p s with
      | none => none
      | some ((q, rem), s) =>
        if (s.pbuf q).type = .ram ∧ rem ≠ (s.pbuf q).len ∧ trims = false then none
        else
          freeRest (s.set q { s.pbuf q with len := rem, totLen := rem }) q
  else none

/-- `pbuf_header`: non-zero on failure. -/
def pbufHeader (s : PbufHeap) (p : PbufAddr) (inc : ℤ) : Option (ℕ × PbufHeap) :=
  if p ∈ s.live then
    if inc = 0 then some (0, s)
    else if inc < 0 ∧ ((s.pbuf p).len : ℤ) < -inc then none
    else
      let moved := s.set p { s.pbuf p with
        payload := (s.pbuf p).payload - inc
        len := (((s.pbuf p).len + inc) % 2 ^ 16).toNat
        totLen := (((s.pbuf p).totLen + inc) % 2 ^ 16).toNat }
      match (s.pbuf p).type with
      | .ram | .pool =>
        if (s.pbuf p).payload - inc < sizeofStructPbuf then some (1, s) else some (0, moved)
      | .ref | .rom => if inc < 0 ∧ -inc ≤ (s.pbuf p).len then some (0, moved) else some (1, s)
  else none

/-! ### Chains -/

/-- The walk of `pbuf_cat` to the last pbuf. -/
def pbufCatWalk (t : PbufAddr) : ℕ → PbufAddr → PbufHeap → Option PbufHeap
  | 0, _, _ => none
  | fuel + 1, p, s =>
    if p ∈ s.live then
      let total := ((s.pbuf p).totLen + (s.pbuf t).totLen) % 2 ^ 16
      match (s.pbuf p).next with
      | some q => pbufCatWalk t fuel q (s.setTotLen p total)
      | none =>
        if (s.pbuf p).totLen = (s.pbuf p).len then
          some ((s.setTotLen p total).setNext p (some t))
        else none
    else none

/-- `pbuf_cat`. -/
def pbufCat (s : PbufHeap) (h t : PbufAddr) : Option PbufHeap :=
  if t ∈ s.live then pbufCatWalk t s.steps h s else none

/-- `pbuf_chain`. -/
def pbufChain (s : PbufHeap) (h t : PbufAddr) : Option PbufHeap :=
  (s.pbufCat h t).bind fun s ↦ s.pbufRef (some t)

/-- `pbuf_dechain`: the remainder of the chain, unless it was freed. -/
def pbufDechain (s : PbufHeap) (p : PbufAddr) : Option (Option PbufAddr × PbufHeap) :=
  if p ∈ s.live then
    match (s.pbuf p).next with
    | none => if (s.pbuf p).totLen = (s.pbuf p).len then some (none, s) else none
    | some q =>
      if q ∈ s.live ∧ (s.pbuf q).totLen + (s.pbuf p).len = (s.pbuf p).totLen then
        let s := s.setTotLen q ((s.pbuf p).totLen - (s.pbuf p).len)
        let s := (s.setNext p none).setTotLen p (s.pbuf p).len
        (s.pbufFree q).bind fun (gone, s) ↦
          if (s.pbuf p).totLen = (s.pbuf p).len then some (if 0 < gone then none else some q, s)
          else none
      else none
  else none

/-! ### Copying -/

/-- The arguments of a `MEMCPY` from one pbuf to another. -/
structure PbufMemcpy where
  pTo : PbufAddr
  offsetTo : ℕ
  pFrom : PbufAddr
  offsetFrom : ℕ
  len : ℕ
  deriving DecidableEq, Repr

/-- "Don't copy more than one packet!" -/
def endsPacket (s : PbufHeap) : Option PbufAddr → Bool
  | none => true
  | some p => (s.pbuf p).len ≠ (s.pbuf p).totLen ∨ (s.pbuf p).next = none

/-- The loop of `pbuf_copy`. -/
def pbufCopyLoop (s : PbufHeap) : ℕ → PbufAddr × ℕ → PbufAddr × ℕ → Option (List PbufMemcpy)
  | 0, _, _ => none
  | fuel + 1, (pTo, offsetTo), (pFrom, offsetFrom) =>
    if pTo ∈ s.live ∧ pFrom ∈ s.live then
      let len := min ((s.pbuf pTo).len - offsetTo) ((s.pbuf pFrom).len - offsetFrom)
      let offsetTo' := offsetTo + len
      let offsetFrom' := offsetFrom + len
      if offsetTo' ≤ (s.pbuf pTo).len ∧ offsetFrom' ≤ (s.pbuf pFrom).len then
        let nextFrom := if (s.pbuf pFrom).len ≤ offsetFrom' then ((s.pbuf pFrom).next, 0)
          else (some pFrom, offsetFrom')
        let nextTo := if offsetTo' = (s.pbuf pTo).len then ((s.pbuf pTo).next, 0)
          else (some pTo, offsetTo')
        if nextTo.1 = none ∧ nextFrom.1 ≠ none then none
        else if s.endsPacket nextFrom.1 && s.endsPacket nextTo.1 then
          match nextTo, nextFrom with
          | (some to', off), (some from', off') =>
            (pbufCopyLoop s fuel (to', off) (from', off')).map
              (⟨pTo, offsetTo, pFrom, offsetFrom, len⟩ :: ·)
          | _, _ => some [⟨pTo, offsetTo, pFrom, offsetFrom, len⟩]
        else none
      else none
    else none

/-- `pbuf_copy`, which succeeds or stops the program. -/
def pbufCopy (s : PbufHeap) (pTo pFrom : PbufAddr) : Option (List PbufMemcpy) :=
  if (s.pbuf pFrom).totLen ≤ (s.pbuf pTo).totLen then
    pbufCopyLoop s (2 * s.steps) (pTo, 0) (pFrom, 0)
  else none

/-- The arguments of a `MEMCPY` between a pbuf and memory of the application. -/
structure DataMemcpy where
  pbuf : PbufAddr
  offset : ℕ
  /-- The position in the memory of the application. -/
  position : ℕ
  len : ℕ
  deriving DecidableEq, Repr

/-- `pbuf_copy_partial` from a pbuf on, after `left` bytes. -/
def pbufCopyPartial (s : PbufHeap) (left : ℕ) : ℕ → Option PbufAddr → ℕ → ℕ → Option (List DataMemcpy)
  | _, _, 0, _ => some []
  | _, none, _, _ => some []
  | 0, some _, _ + 1, _ => none
  | fuel + 1, some p, len + 1, offset =>
    if p ∈ s.live then
      if offset ≠ 0 ∧ (s.pbuf p).len ≤ offset then
        pbufCopyPartial s left fuel (s.pbuf p).next (len + 1) (offset - (s.pbuf p).len)
      else
        let n := min ((s.pbuf p).len - offset) (len + 1)
        (pbufCopyPartial s (left + n) fuel (s.pbuf p).next (len + 1 - n) 0).map (⟨p, offset, left, n⟩ :: ·)
    else none

/-- The loop of `pbuf_take`. -/
def pbufTakeLoop (s : PbufHeap) (copied : ℕ) : ℕ → Option PbufAddr → ℕ → Option (List DataMemcpy)
  | _, _, 0 => some []
  | _, none, _ + 1 => none
  | 0, some _, _ + 1 => none
  | fuel + 1, some p, total + 1 =>
    if p ∈ s.live then
      let n := min (total + 1) (s.pbuf p).len
      (pbufTakeLoop s (copied + n) fuel (s.pbuf p).next (total + 1 - n)).map (⟨p, 0, copied, n⟩ :: ·)
    else none

/-- `pbuf_take`: the result, and what is copied. -/
def pbufTake (s : PbufHeap) (buf : PbufAddr) (len : ℕ) : Option (ErrT × List DataMemcpy) :=
  if buf ∈ s.live then
    if (s.pbuf buf).totLen < len then some (.arg, [])
    else (pbufTakeLoop s 0 s.steps (some buf) len).map fun cs ↦ (.ok, cs)
  else none

/-- `pbuf_coalesce`: the new pbuf, or the old one. -/
def pbufCoalesce (s : PbufHeap) (p : PbufAddr) (layer : PbufLayer) (mem : List PbufAddr) :
    Option (PbufAddr × PbufHeap) :=
  if p ∈ s.live then
    if (s.pbuf p).next = none then some (p, s)
    else
      match s.pbufAlloc layer (s.pbuf p).totLen .ram mem with
      | none => none
      | some (none, s) => some (p, s)
      | some (some q, s) => (s.pbufCopy q p).bind fun _ ↦ (s.pbufFree p).map fun x ↦ (q, x.2)
  else none

end PbufHeap

/-! ### Runs -/

/-- A call of the module. -/
inductive PbufCall
  | alloc (layer : PbufLayer) (length : ℕ) (type : PbufType) (mem : List PbufAddr)
  | allocedCustom (layer : PbufLayer) (length : ℕ) (type : PbufType) (p : PbufAddr) (payload : Option ℤ)
      (payloadLen : ℕ)
  | realloc (p : PbufAddr) (newLen : ℕ) (trims : Bool)
  | header (p : PbufAddr) (inc : ℤ)
  | cat (h t : PbufAddr)
  | chain (h t : PbufAddr)
  | dechain (p : PbufAddr)
  | copy (pTo pFrom : PbufAddr)
  | copyPartial (buf : PbufAddr) (len offset : ℕ)
  | take (buf : PbufAddr) (len : ℕ)
  | coalesce (p : PbufAddr) (layer : PbufLayer) (mem : List PbufAddr)
  | ref (p : PbufAddr)
  | free (p : PbufAddr)

/-- The pbufs, and how many handles on each of them the callers own. -/
structure PbufRun where
  heap : PbufHeap
  handles : PbufAddr → ℕ

namespace PbufRun

open SharedChains (give take)

/-- Before the first call. -/
def init : PbufRun :=
  ⟨⟨∅, fun _ ↦ ⟨none, 0, 0, 0, .ram, false, 0⟩, [], []⟩, fun _ ↦ 0⟩

/-- What a call does: to the pbufs, and to the handles. `pbuf_cat` takes over the caller's handle on the
tail, and `pbuf_coalesce` the one on its argument, if it returns another pbuf. -/
def step : PbufCall → PbufRun → Option PbufRun
  | .alloc layer length type mem, s =>
    (s.heap.pbufAlloc layer length type mem).map fun x ↦ ⟨x.2, give s.handles x.1⟩
  | .allocedCustom layer length type p payload payloadLen, s =>
    let x := s.heap.pbufAllocedCustom layer length type p payload payloadLen
    some ⟨x.2, give s.handles x.1⟩
  | .realloc p newLen trims, s => (s.heap.pbufRealloc p newLen trims).map fun h ↦ ⟨h, s.handles⟩
  | .header p inc, s => (s.heap.pbufHeader p inc).map fun x ↦ ⟨x.2, s.handles⟩
  | .cat h t, s => (s.heap.pbufCat h t).map fun u ↦ ⟨u, take s.handles t⟩
  | .chain h t, s => (s.heap.pbufChain h t).map fun u ↦ ⟨u, s.handles⟩
  | .dechain p, s => (s.heap.pbufDechain p).map fun x ↦ ⟨x.2, s.handles⟩
  | .copy pTo pFrom, s => (s.heap.pbufCopy pTo pFrom).map fun _ ↦ s
  | .copyPartial buf len offset, s =>
    (s.heap.pbufCopyPartial 0 s.heap.steps (some buf) len offset).map fun _ ↦ s
  | .take buf len, s => (s.heap.pbufTake buf len).map fun _ ↦ s
  | .coalesce p layer mem, s =>
    (s.heap.pbufCoalesce p layer mem).map fun x ↦ ⟨x.2, take (give s.handles (some x.1)) p⟩
  | .ref p, s => (s.heap.pbufRef (some p)).map fun h ↦ ⟨h, give s.handles (some p)⟩
  | .free p, s => (s.heap.pbufFree p).map fun x ↦ ⟨x.2, take s.handles p⟩

end PbufRun

end Lwip.Core
