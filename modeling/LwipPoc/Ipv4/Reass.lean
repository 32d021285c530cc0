import LwipPoc.Ipv4.Header
import LwipPoc.Foundation.Execution

/-!
# Reassembly

The reassembly half of `ipv4/ip_frag.c`. The list `reassdatagrams` is a list of datagrams, and the
pbufs of each of them, chained by the `struct ip_reass_helper` that overwrites their headers, are a
list of helpers. Where the code passes a datagram and its predecessor as two pointers, the model
passes two positions in the list, so that a wrong predecessor is a wrong position.

A failed assertion, and a null pointer that is followed, stop the program: a result of `none`. The
messages to the sender of a datagram that is given up, and the counters, are left out.
-/

namespace Lwip.Ipv4

open Lwip.Core

/-- `IP_REASS_MAX_PBUFS`. -/
def ipReassMaxPbufs : ℕ := 10

/-- `MEMP_NUM_REASSDATA`. -/
def mempNumReassdata : ℕ := 5

/-- `IP_REASS_MAXAGE`. -/
def ipReassMaxage : ℕ := 3

/-- `struct ip_reass_helper`, in a pbuf that waits for reassembly. The header it overwrites is still
in `frag`: the code does not look at it any more, but what is said about the result does. -/
structure ReassHelper where
  start : ℕ
  /-- `end`. -/
  stop : ℕ
  frag : IpPacket
  deriving DecidableEq, Repr

/-- `struct ip_reassdata`. -/
structure ReassData where
  /-- The pbufs `p`, in the order of the helpers' links. -/
  frags : List ReassHelper
  iphdr : IpHdr
  datagramLen : ℕ
  /-- `IP_REASS_FLAG_LASTFRAG`. -/
  lastFrag : Bool
  timer : ℕ
  deriving DecidableEq, Repr

/-- The variables of the module. -/
structure Reass where
  /-- `reassdatagrams`. -/
  datagrams : List ReassData
  /-- `ip_reass_pbufcount`. -/
  pbufcount : ℕ
  deriving DecidableEq, Repr

namespace Reass

/-- Before the first fragment. -/
def init : Reass := ⟨[], 0⟩

/-- `IP_ADDRESSES_AND_ID_MATCH`. -/
def addressesAndIdMatch (a b : IpHdr) : Bool :=
  a.src = b.src && a.dest = b.dest && a.id = b.id

/-- The helper that overwrites the header of a fragment. -/
def helper (p : IpPacket) : ReassHelper where
  start := p.hdr.start
  stop := (p.hdr.start + p.hdr.payloadLen) % 2 ^ 16
  frag := p

/-! ### Giving up datagrams -/

/-- `pbuf_clen` over all pbufs of a datagram. -/
def clenSum (d : ReassData) : ℕ := (d.frags.map fun q ↦ pbufClen q.frag.pbufs).sum

/-- `ip_reass_free_complete_datagram` of the datagram at position `i`, whose predecessor is said to
be the one at `prev`: the number of pbufs freed. -/
def freeCompleteDatagram (s : Reass) (i : ℕ) (prev : Option ℕ) : Option (ℕ × Reass) :=
  match s.datagrams[i]? with
  | none => none
  | some d =>
    -- `prev != ipr`, `prev->next == ipr`; `ipr->p` is followed; all but the first have a `prev`
    if prev ≠ some i ∧ (∀ j ∈ prev, j + 1 = i) ∧ d.frags ≠ [] ∧ (i ≠ 0 → prev ≠ none) ∧
        clenSum d ≤ 2 ^ 16 - 1 ∧ clenSum d ≤ s.pbufcount then
      some (clenSum d, ⟨s.datagrams.eraseIdx i, s.pbufcount - clenSum d⟩)
    else none

/-- The search of `ip_reass_remove_oldest_datagram`, from position `i` on: the oldest datagram that
is not the fragment's own, and how many such datagrams there are. -/
def findOldest (fraghdr : IpHdr) : List ReassData → ℕ → Option (ℕ × ℕ) → ℕ → Option ℕ × ℕ
  | [], _, oldest, others => (oldest.map Prod.fst, others)
  | r :: rs, i, oldest, others =>
    if addressesAndIdMatch r.iphdr fraghdr then findOldest fraghdr rs (i + 1) oldest others
    else
      match oldest with
      | none => findOldest fraghdr rs (i + 1) (some (i, r.timer)) (others + 1)
      | some (j, timer) =>
        if r.timer ≤ timer then findOldest fraghdr rs (i + 1) (some (i, r.timer)) (others + 1)
        else findOldest fraghdr rs (i + 1) (some (j, timer)) (others + 1)

/-- What `prev` is after the search: the last datagram that has a next one. -/
def searchPrev (ds : List ReassData) : Option ℕ := if 2 ≤ ds.length then some (ds.length - 2) else none

/-- `ip_reass_remove_oldest_datagram`: the number of pbufs freed. -/
def removeOldestDatagram (fraghdr : IpHdr) (needed : ℕ) : ℕ → ℕ → Reass → Option (ℕ × Reass)
  | 0, _, _ => none
  | fuel + 1, freed, s =>
    match findOldest fraghdr s.datagrams 0 none 0 with
    | (none, _) => some (freed, s)
    | (some i, others) =>
      (s.freeCompleteDatagram i (searchPrev s.datagrams)).bind fun r ↦
        if freed + r.1 < needed ∧ 1 < others then
          removeOldestDatagram fraghdr needed fuel (freed + r.1) r.2
        else some (freed + r.1, r.2)

/-- `ip_reass_remove_oldest_datagram`, with as many rounds as there can be. -/
def removeOldest (s : Reass) (fraghdr : IpHdr) (needed : ℕ) : Option (ℕ × Reass) :=
  removeOldestDatagram fraghdr needed (s.datagrams.length + 1) 0 s

/-- The loop of `ip_reass_tmr`: `done` are the datagrams behind it, `todo` those ahead. -/
def tmrLoop : List ReassData → List ReassData → ℕ → Option Reass
  | done, [], count => some ⟨done, count⟩
  | done, r :: rs, count =>
    if 0 < r.timer then tmrLoop (done ++ [{ r with timer := r.timer - 1 }]) rs count
    else
      (freeCompleteDatagram ⟨done ++ r :: rs, count⟩ done.length
        (if done = [] then none else some (done.length - 1))).bind fun res ↦
          tmrLoop done rs res.2.pbufcount

/-- `ip_reass_tmr`. -/
def ipReassTmr (s : Reass) : Option Reass := tmrLoop [] s.datagrams s.pbufcount

/-! ### Chaining a fragment into its datagram -/

/-- What becomes of a new fragment: thrown away, or kept among the others — then `pre` are the
fragments in front of it, `post` those behind it, and `valid` is false if the loop saw a hole. -/
inductive Chained
  | dropped
  | kept (pre post : List ReassHelper) (valid : Bool)
  deriving DecidableEq

/-- The loop of `ip_reass_chain_frag_into_datagram_and_validate`: `done` are the fragments it has
passed, the last one of them `iprh_prev`. -/
def place (new : ReassHelper) : List ReassHelper → Bool → List ReassHelper → Option Chained
  | done, valid, [] =>
    match done.getLast? with
    | some prev =>
      if prev.stop ≤ new.start then some (.kept done [] (valid && prev.stop = new.start)) else none
    | none => some (.kept [] [] valid)
  | done, valid, q :: qs =>
    if new.start < q.start then
      match done.getLast? with
      | some prev =>
        if new.start < prev.stop ∨ q.start < new.stop then some .dropped
        else some (.kept done (q :: qs) valid)
      | none => some (.kept [] (q :: qs) valid)
    else if new.start = q.start then some .dropped
    else if new.start < q.stop then some .dropped
    else place new (done ++ [q]) (valid && done.getLast?.all fun prev ↦ prev.stop = q.start) qs

/-- The fragments from `prev` on have no holes between them. -/
def noHoles (prev : ReassHelper) : List ReassHelper → Bool
  | [] => true
  | q :: qs => prev.stop = q.start && noHoles q qs

/-- The validation of `ip_reass_chain_frag_into_datagram_and_validate`, with the new fragment between
`pre` and `post`. -/
def validate (d : ReassData) (new : ReassHelper) (pre post : List ReassHelper) (valid : Bool) :
    Option Bool :=
  if d.lastFrag = true then
    if valid = true ∧ ((pre ++ new :: post).head?.all fun q ↦ q.start = 0) = true ∧
        noHoles new post = true then
      -- the fragment with the highest offset is not the first one, and ends the datagram
      if pre ++ post ≠ [] ∧ ((new :: post).getLast?.all fun q ↦ q.stop = d.datagramLen) = true then
        some true
      else none
    else some false
  else some false

/-! ### `ip_reass` -/

/-- The header of the reassembled packet. -/
def finalHdr (h : IpHdr) (len : ℕ) : IpHdr :=
  let h := { h with len := len, offset := 0, chksum := 0 }
  { h with chksum := h.inetChksum }

/-- Chain together the pbufs of a datagram. -/
def chainPbufs : List Pbuf → List ReassHelper → Option (List Pbuf)
  | p, [] => some p
  | p, r :: rs =>
    (pbufHide ipHlen r.frag.pbufs).bind fun t ↦ (pbufCat t p).bind fun p ↦ chainPbufs p rs

/-- The packet made of a complete datagram. -/
def assemble (d : ReassData) (frags : List ReassHelper) : Option IpPacket :=
  match frags with
  | [] => none
  | q :: qs => (chainPbufs q.frag.pbufs qs).map fun ps ↦
      ⟨finalHdr d.iphdr ((d.datagramLen + ipHlen) % 2 ^ 16), ps⟩

/-- `ip_reass_enqueue_new_datagram`: false if there is no room for another datagram. -/
def enqueueNewDatagram (s : Reass) (fraghdr : IpHdr) (clen : ℕ) : Option (Bool × Reass) :=
  let enqueue (s : Reass) : Reass := { s with datagrams := ⟨[], fraghdr, 0, false, ipReassMaxage⟩ :: s.datagrams }
  if s.datagrams.length < mempNumReassdata then some (true, enqueue s)
  else
    (s.removeOldest fraghdr clen).map fun r ↦
      if clen ≤ r.1 ∧ r.2.datagrams.length < mempNumReassdata then (true, enqueue r.2)
      else (false, r.2)

/-- The part of `ip_reass` from the point on where the datagram of the fragment is known: it is at
position `i`. -/
def reassAt (s : Reass) (p : IpPacket) (i : ℕ) (d : ReassData) : Option (Option IpPacket × Reass) :=
  let count := (s.pbufcount + pbufClen p.pbufs) % 2 ^ 16
  let d := if p.hdr.mf = true then d else
    { d with lastFrag := true, datagramLen := (p.hdr.start + p.hdr.payloadLen) % 2 ^ 16 }
  (place (helper p) [] true d.frags).bind fun
    | .dropped => some (none, ⟨s.datagrams.set i d,
        (count + 2 ^ 16 - pbufClen p.pbufs) % 2 ^ 16⟩)
    | .kept pre post valid =>
      let frags := pre ++ helper p :: post
      (validate d (helper p) pre post valid).bind fun
        | false => some (none, ⟨s.datagrams.set i { d with frags := frags }, count⟩)
        | true => (assemble d frags).map fun r ↦
            (some r, ⟨s.datagrams.eraseIdx i, (count + 2 ^ 16 - pbufClen r.pbufs) % 2 ^ 16⟩)

/-- The header of the first fragment replaces the one of another fragment. -/
def adoptHdr (d : ReassData) (fraghdr : IpHdr) : ReassData :=
  if fraghdr.start = 0 ∧ d.iphdr.start ≠ 0 then { d with iphdr := fraghdr } else d

/-- Is there room for the pbufs of the fragment? Datagrams are given up for it. -/
def makeRoom (s : Reass) (p : IpPacket) : Option (Bool × Reass) :=
  let clen := pbufClen p.pbufs
  if ipReassMaxPbufs < s.pbufcount + clen then
    (s.removeOldest p.hdr clen).map fun r ↦
      (r.1 ≠ 0 ∧ ¬ ipReassMaxPbufs < r.2.pbufcount + clen, r.2)
  else some (true, s)

/-- **`ip_reass`**: the packet it returns, if the fragment completes a datagram. -/
def ipReass (s : Reass) (p : IpPacket) : Option (Option IpPacket × Reass) :=
  if p.hdr.hl * 4 ≠ ipHlen then some (none, s)
  else
    (s.makeRoom p).bind fun
      | (false, s) => some (none, s)
      | (true, s) =>
        match s.datagrams.findIdx? fun d ↦ addressesAndIdMatch d.iphdr p.hdr with
        | some i => (s.datagrams[i]?).bind fun d ↦ s.reassAt p i (adoptHdr d p.hdr)
        | none => (s.enqueueNewDatagram p.hdr (pbufClen p.pbufs)).bind fun
            | (false, s) => some (none, s)
            | (true, s) => (s.datagrams[0]?).bind fun d ↦ s.reassAt p 0 d

end Reass

end Lwip.Ipv4
