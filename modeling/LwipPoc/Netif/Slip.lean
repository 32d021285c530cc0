import LwipPoc.Core.Pbuf
import LwipPoc.Core.PbufHeap
import LwipPoc.Foundation.Feed

/-!
# SLIP

`netif/slipif.c`: packets on a serial line. `slipif_output` sends the bytes of a packet between two `END`s,
with an escape sequence for the bytes `END` and `ESC`. `slipif_rxbyte` takes the bytes one by one and puts
them into a chain of pbufs, which it makes longer when it is full, until an `END` comes.

A new piece of the chain is allocated at the layer `PBUF_LINK`, with `PBUF_POOL_BUFSIZE` less the unaligned
link header as its length. The first pbuf of it has room for less than that, so it is a chain of two
pbufs. What the pool has in its memory is part of the input.

**The round trip** (`slip_round_trip`): what was sent is what is returned.
-/

namespace Lwip.Netif

open Lwip.Core

/-- `SLIP_MAX_SIZE`. -/
def slipMaxSize : ℕ := 1500

def slipEnd : BitVec 8 := 0xC0
def slipEsc : BitVec 8 := 0xDB
def slipEscEnd : BitVec 8 := 0xDC
def slipEscEsc : BitVec 8 := 0xDD

/-! ### Sending -/

/-- The switch in the loop of `slipif_output`. -/
def slipifSendByte (c : BitVec 8) : List (BitVec 8) :=
  if c = slipEnd then [slipEsc, slipEscEnd]
  else if c = slipEsc then [slipEsc, slipEscEsc]
  else [c]

/-- `slipif_output`: the bytes that it sends. -/
def slipifOutput (p : List Pbuf) : List (BitVec 8) :=
  slipEnd :: (p.flatMap fun q ↦ q.payload.flatMap slipifSendByte) ++ [slipEnd]

/-! ### Allocation from the pool -/

/-- What the pool has in its memory: the bytes of the pbufs that it hands out, one after another. -/
abbrev PoolMem := ℕ → ℕ → BitVec 8

/-- A pbuf from the pool, the `k`th, with `rem` bytes still to be allocated. -/
def poolPbuf (mem : PoolMem) (k len rem : ℕ) : Pbuf := ⟨(List.range len).map (mem k), rem⟩

/-- The loop of `pbuf_alloc` for the tail of the chain. -/
def poolTail (mem : PoolMem) : ℕ → ℕ → ℕ → List Pbuf
  | fuel + 1, k, rem =>
    if 0 < rem then
      poolPbuf mem k (min rem pbufPoolBufsizeAligned) rem ::
        poolTail mem fuel (k + 1) (rem - min rem pbufPoolBufsizeAligned)
    else []
  | 0, _, _ => []

/-- `pbuf_alloc` from the pool, when there is memory. -/
def pbufAllocPool (layer : PbufLayer) (length : ℕ) (mem : PoolMem) : List Pbuf :=
  let len := min length (pbufPoolBufsizeAligned - memAlignSize layer.offset)
  poolPbuf mem 0 len length :: poolTail mem length 1 (length - len)

/-! ### Receiving -/

inductive SlipifRecvState
  | normal
  | escape
  deriving DecidableEq, Repr

/-- `struct slipif_priv`. `p` is the place in the chain `q`, and `i` the place in that pbuf. -/
structure SlipifPriv where
  p : Option ℕ
  q : List Pbuf
  state : SlipifRecvState
  i : ℕ
  recved : ℕ
  deriving DecidableEq, Repr

namespace SlipifPriv

/-- As `slipif_init` leaves it. -/
def init : SlipifPriv := ⟨none, [], .normal, 0, 0⟩

/-- A piece is put behind the chain when there is no place to go on at; without memory nothing happens. -/
def allocate (s : SlipifPriv) (mem : Option PoolMem) : Option SlipifPriv :=
  match s.p, mem with
  | some _, _ => some s
  | none, none => some s
  | none, some mem =>
    let p := pbufAllocPool .link (pbufPoolBufsizeAligned - PbufLayer.link.offset) mem
    if s.q = [] then some { s with p := some 0, q := p }
    else (pbufCat p s.q).map fun q ↦ { s with p := some s.q.length, q := q }

/-- The byte is written; the place moves on to the next pbuf of the chain, if there is one with room. -/
def store (s : SlipifPriv) (c : BitVec 8) : SlipifPriv :=
  match s.p with
  | none => s
  | some k =>
    if s.recved ≤ slipMaxSize then
      let q := s.q.modify k (Pbuf.write · s.i c)
      let i := (s.i + 1) % 2 ^ 16
      let s := { s with q := q, recved := (s.recved + 1) % 2 ^ 16 }
      if (s.q[k]?.map Pbuf.len).getD 0 ≤ i then
        { s with i := 0, p := if 0 < (s.q[k + 1]?.map Pbuf.len).getD 0 then some (k + 1) else none }
      else { s with i := i }
    else s

/-- The part of `slipif_rxbyte` behind the switch over the states. -/
def receive (s : SlipifPriv) (c : BitVec 8) (mem : Option PoolMem) : Option (SlipifPriv × Option (List Pbuf)) :=
  (s.allocate mem).map fun s ↦ (s.store c, none)

end SlipifPriv

open SlipifPriv in
/-- `slipif_rxbyte`. The chain that it may return is a packet. -/
def slipifRxbyte (c : BitVec 8) (mem : Option PoolMem) (s : SlipifPriv) : Option (SlipifPriv × Option (List Pbuf)) :=
  match s.state with
  | .normal =>
    if c = slipEnd then
      if 0 < s.recved then
        (pbufRealloc s.recved s.q).map fun t ↦ ({ s with p := none, q := [], i := 0, recved := 0 }, some t)
      else some (s, none)
    else if c = slipEsc then some ({ s with state := .escape }, none)
    else receive s c mem
  | .escape =>
    receive { s with state := .normal }
      (if c = slipEscEnd then slipEnd else if c = slipEscEsc then slipEsc else c) mem

/-! ### What the receiver holds -/

/-- Two pbufs, of which the second has the two bytes that the alignment of the first takes away. -/
theorem pbufAllocPool_link (mem : PoolMem) :
    pbufAllocPool .link (pbufPoolBufsizeAligned - PbufLayer.link.offset) mem =
      [poolPbuf mem 0 576 578, poolPbuf mem 1 2 2] := rfl

@[simp] theorem poolPbuf_len (mem : PoolMem) (k len rem : ℕ) : (poolPbuf mem k len rem).len = len := by
  rw [Pbuf.len, poolPbuf, List.length_map, List.length_range]

namespace SlipifPriv

/-- The bytes `xs` are in the chain, up to the place; if there is no place, they fill it. -/
inductive Filled (xs : List (BitVec 8)) : SlipifPriv → Prop
  | full (q : List Pbuf) (state : SlipifRecvState) (recved : ℕ) (h : pbufBytes q = xs) :
      Filled xs ⟨none, q, state, 0, recved⟩
  | place (pre : List Pbuf) (b : Pbuf) (post : List Pbuf) (state : SlipifRecvState) (i recved : ℕ) (hi : i < b.len)
      (h : pbufBytes pre ++ b.payload.take i = xs) (hpost : ∀ p ∈ post, 0 < p.len) :
      Filled xs ⟨some pre.length, pre ++ b :: post, state, i, recved⟩

/-- **The receiver has seen `xs`**, and is not in an escape sequence. -/
structure Holds (xs : List (BitVec 8)) (s : SlipifPriv) : Prop where
  filled : s.Filled xs
  recved_eq : s.recved = xs.length
  normal : s.state = .normal
  totals : Totals s.q
  room : (pbufBytes s.q).length ≤ xs.length + 578

variable {s t : SlipifPriv} {xs : List (BitVec 8)} {c : BitVec 8}

theorem holds_init : Holds [] init := ⟨.full [] .normal 0 rfl, rfl, rfl, trivial, Nat.zero_le _⟩

theorem Filled.prefix (h : s.Filled xs) : xs <+: pbufBytes s.q := by
  cases h with
  | full q state recved h => exact h ▸ List.prefix_rfl
  | place pre b post state i recved hi h hpost =>
    refine ⟨b.payload.drop i ++ pbufBytes post, ?_⟩
    rw [← h, List.append_assoc, ← List.append_assoc (b.payload.take i), List.take_append_drop]
    simp only [pbufBytes_append, pbufBytes_cons]

/-- Where there is no place, a piece of the chain makes one. -/
theorem Holds.allocate (h : s.Holds xs) (hlen : xs.length ≤ slipMaxSize + 1) (mem : PoolMem) :
    ∃ t, s.allocate (some mem) = some t ∧ t.Holds xs ∧ t.p.isSome = true := by
  have hmax : slipMaxSize = 1500 := rfl
  obtain ⟨hfilled, hrecved, hnormal, htotals, hroom⟩ := h
  cases hfilled with
  | place pre b post state i recved hi h hpost =>
    exact ⟨_, rfl, ⟨.place pre b post state i recved hi h hpost, hrecved, hnormal, htotals, hroom⟩, rfl⟩
  | full q state recved h =>
    dsimp only at hrecved hnormal htotals hroom
    have hpiece : ∀ p ∈ [poolPbuf mem 1 2 2], 0 < p.len := by
      intro p hp
      rw [List.mem_singleton.1 hp, poolPbuf_len]
      omega
    have hbytes : (pbufBytes [poolPbuf mem 0 576 578, poolPbuf mem 1 2 2]).length = 578 := by
      simp [pbufBytes, poolPbuf]
    have htotals' : Totals [poolPbuf mem 0 576 578, poolPbuf mem 1 2 2] :=
      ⟨hbytes.symm, by simp [pbufBytes, poolPbuf], trivial⟩
    have hfirst : 0 < (poolPbuf mem 0 576 578).len := by
      rw [poolPbuf_len]
      omega
    rw [SlipifPriv.allocate.eq_def]
    dsimp only
    rw [pbufAllocPool_link]
    by_cases hq : q = []
    · subst hq
      obtain rfl : [] = xs := h
      rw [if_pos rfl]
      refine ⟨_, rfl, ⟨?_, hrecved, hnormal, htotals', hbytes.trans_le (Nat.le_add_left ..)⟩, rfl⟩
      exact .place [] _ _ state 0 recved hfirst rfl hpiece
    · rw [if_neg hq]
      obtain ⟨q', hcat, htot, -, hcatBytes⟩ := htotals.cat htotals' hq (by rw [h, hbytes]; omega)
      obtain ⟨pre, rfl, hpay⟩ := append_of_cat hcat
      have hpre : pbufBytes pre = pbufBytes q := by
        rw [pbufBytes, List.flatMap, hpay]
        rfl
      have hlength : pre.length = q.length := by
        rw [← List.length_map Pbuf.payload, hpay, List.length_map]
      rw [hcat, Option.map_some, ← hlength]
      refine ⟨_, rfl, ⟨?_, hrecved, hnormal, htot, ?_⟩, rfl⟩
      · refine .place pre _ _ state 0 recved hfirst ?_ hpiece
        rw [List.take_zero, List.append_nil, hpre, h]
      · dsimp only
        rw [hcatBytes, List.length_append, hbytes, h]

/-- A byte that is stored. -/
theorem Holds.store (h : s.Holds xs) (hlen : xs.length ≤ slipMaxSize) (hp : s.p.isSome = true) :
    (s.store c).Holds (xs ++ [c]) := by
  have hmax : slipMaxSize = 1500 := rfl
  obtain ⟨hfilled, hrecved, hnormal, htotals, hroom⟩ := h
  cases hfilled with
  | full => cases hp
  | place pre b post state i recved hi h hpost =>
    dsimp only at hrecved hnormal htotals hroom
    subst hrecved hnormal
    obtain ⟨htotals', hlength⟩ := htotals.write i c
    have hb : b.len < 2 ^ 16 := by
      have : b.len ≤ (pbufBytes (pre ++ b :: post)).length := by
        simp only [pbufBytes_append, pbufBytes_cons, List.length_append, Pbuf.len]
        omega
      omega
    have htake : pbufBytes pre ++ (b.write i c).payload.take (i + 1) = xs ++ [c] := by
      rw [Pbuf.write_take hi, ← List.append_assoc, h]
    have hroom' : (pbufBytes (pre ++ b.write i c :: post)).length ≤ (xs ++ [c]).length + 578 := by
      rw [hlength, List.length_append]
      omega
    have hstore : SlipifPriv.store ⟨some pre.length, pre ++ b :: post, .normal, i, xs.length⟩ c =
        if b.len ≤ i + 1 then ⟨if 0 < (post[0]?.map Pbuf.len).getD 0 then some (pre.length + 1) else none,
          pre ++ b.write i c :: post, .normal, 0, (xs ++ [c]).length⟩
        else ⟨some pre.length, pre ++ b.write i c :: post, .normal, i + 1, (xs ++ [c]).length⟩ := by
      have hcount : (xs.length + 1) % 2 ^ 16 = (xs ++ [c]).length := by
        rw [List.length_append, List.length_singleton]
        omega
      have hnext : (pre ++ b.write i c :: post)[pre.length + 1]? = post[0]? := by
        rw [List.getElem?_append_right (Nat.le_succ _), Nat.succ_sub (le_refl _), Nat.sub_self,
          List.getElem?_cons_succ]
      rw [SlipifPriv.store]
      dsimp only
      rw [if_pos hlen, modify_at, hnext, hcount, Nat.mod_eq_of_lt (by omega),
        List.getElem?_append_right le_rfl, Nat.sub_self, List.getElem?_cons_zero, Option.map_some,
        Option.getD_some, Pbuf.write_len]
    have hfull : b.len ≤ i + 1 → pbufBytes (pre ++ [b.write i c]) = xs ++ [c] := by
      intro hend
      rw [← htake, List.take_of_length_le (by rw [← Pbuf.len, Pbuf.write_len]; exact hend)]
      simp only [pbufBytes_append, pbufBytes_cons, pbufBytes_nil, List.append_nil]
    rw [hstore]
    split_ifs with hend hnext
    · cases post with
      | nil => exact absurd hnext (lt_irrefl 0)
      | cons n post =>
        -- the place moves to the next pbuf
        have hplace : Filled (xs ++ [c]) ⟨some (pre ++ [b.write i c]).length,
            (pre ++ [b.write i c]) ++ n :: post, .normal, 0, (xs ++ [c]).length⟩ :=
          .place _ n post _ 0 _ (hpost n List.mem_cons_self)
            (by rw [List.take_zero, List.append_nil, hfull hend])
            fun p hp ↦ hpost p (List.mem_cons_of_mem n hp)
        rw [List.length_append, List.append_assoc] at hplace
        exact ⟨hplace, rfl, rfl, htotals', hroom'⟩
    · obtain rfl : post = [] := by
        by_contra hne
        obtain ⟨n, post, rfl⟩ := List.exists_cons_of_ne_nil hne
        exact hnext (hpost n List.mem_cons_self)
      exact ⟨.full _ .normal _ (hfull hend), rfl, rfl, htotals', hroom'⟩
    · exact ⟨.place pre _ post .normal (i + 1) _ (by rw [Pbuf.write_len]; omega) htake hpost, rfl, rfl, htotals', hroom'⟩

/-- **The byte behind the switch.** -/
theorem Holds.receive (h : s.Holds xs) (hlen : xs.length ≤ slipMaxSize) (mem : PoolMem) :
    ∃ t, s.receive c (some mem) = some (t, none) ∧ t.Holds (xs ++ [c]) := by
  obtain ⟨t, ht, hholds, hp⟩ := h.allocate (hlen.trans (Nat.le_succ _)) mem
  refine ⟨t.store c, ?_, hholds.store hlen hp⟩
  rw [SlipifPriv.receive, ht]
  rfl

end SlipifPriv

open SlipifPriv

/-! ### The round trip -/

/-- The receiver, with memory in the pool. -/
abbrev rxbyte (x : BitVec 8 × PoolMem) : SlipifPriv → Option (SlipifPriv × Option (List Pbuf)) :=
  slipifRxbyte x.1 (some x.2)

variable {s : SlipifPriv} {xs : List (BitVec 8)} {c : BitVec 8}

/-- The receiver; the pool may have no memory. -/
abbrev rxbyteMem (x : BitVec 8 × Option PoolMem) : SlipifPriv → Option (SlipifPriv × Option (List Pbuf)) :=
  slipifRxbyte x.1 x.2

/-- The code of a byte is read as the byte, with the memory that the pool has at its last item. -/
theorem feed_code (hnormal : s.state = .normal) {as : List (BitVec 8 × Option PoolMem)}
    (has : as.map Prod.fst = slipifSendByte c) :
    ∃ pre e mem u, as = pre ++ [(e, mem)] ∧ feed rxbyteMem pre s = some (u, []) ∧ u.p = s.p ∧
      (u.state = .escape ∨ e ≠ slipEnd ∧ e ≠ slipEsc) ∧
      feed rxbyteMem as s = (s.receive c mem).map fun r ↦ (r.1, r.2.toList) := by
  have hlast : ∀ (x : BitVec 8 × Option PoolMem) (t : SlipifPriv),
      feed rxbyteMem [x] t = (rxbyteMem x t).map fun r ↦ (r.1, r.2.toList) := by
    intro x t
    rw [feed, Option.map_eq_bind]
    congr 1
    funext r
    rw [feed, Option.map_some, List.append_nil]
    rfl
  have hescaped : ∀ e, slipifSendByte c = [slipEsc, e] →
      (if e = slipEscEnd then slipEnd else if e = slipEscEsc then slipEsc else e) = c →
      ∃ pre e mem u, as = pre ++ [(e, mem)] ∧ feed rxbyteMem pre s = some (u, []) ∧ u.p = s.p ∧
        (u.state = .escape ∨ e ≠ slipEnd ∧ e ≠ slipEsc) ∧
        feed rxbyteMem as s = (s.receive c mem).map fun r ↦ (r.1, r.2.toList) := by
    intro e hcode hread
    rw [hcode] at has
    obtain ⟨⟨-, mem⟩, as, rfl, rfl, htail⟩ := List.map_eq_cons_iff.1 has
    obtain ⟨⟨e, mem'⟩, as, rfl, rfl, hnil⟩ := List.map_eq_cons_iff.1 htail
    obtain rfl := List.map_eq_nil_iff.1 hnil
    have hfirst : feed rxbyteMem [(slipEsc, mem)] s = some ({ s with state := .escape }, []) := by
      rw [hlast, rxbyteMem, slipifRxbyte, hnormal]
      rfl
    have hsecond : rxbyteMem (e, mem') { s with state := .escape } = s.receive c mem' := by
      rw [rxbyteMem, slipifRxbyte]
      dsimp only
      rw [hread, ← hnormal]
    refine ⟨[(slipEsc, mem)], e, mem', _, rfl, hfirst, rfl, .inl rfl, ?_⟩
    rw [← List.singleton_append, feed_append, hfirst, Option.bind_some, hlast, hsecond, Option.map_map]
    rfl
  by_cases hend : c = slipEnd
  · exact hescaped slipEscEnd (by rw [slipifSendByte, if_pos hend]) (by rw [if_pos rfl, hend])
  by_cases hesc : c = slipEsc
  · exact hescaped slipEscEsc (by rw [slipifSendByte, if_neg hend, if_pos hesc])
      (by rw [if_neg (by decide), if_pos rfl, hesc])
  · rw [slipifSendByte, if_neg hend, if_neg hesc] at has
    obtain ⟨⟨c, mem⟩, as, rfl, rfl, hnil⟩ := List.map_eq_cons_iff.1 has
    obtain rfl := List.map_eq_nil_iff.1 hnil
    refine ⟨[], c, mem, s, rfl, rfl, rfl, .inr ⟨hend, hesc⟩, ?_⟩
    rw [hlast, rxbyteMem, slipifRxbyte, hnormal]
    dsimp only
    rw [if_neg hend, if_neg hesc]

/-- The code of a byte, with memory in the pool. -/
theorem feed_sendByte (h : s.Holds xs) (hlen : xs.length ≤ slipMaxSize) {as : List (BitVec 8 × PoolMem)}
    (has : as.map Prod.fst = slipifSendByte c) :
    ∃ t, feed rxbyte as s = some (t, []) ∧ t.Holds (xs ++ [c]) := by
  have has' : (as.map (Prod.map id some)).map Prod.fst = slipifSendByte c := by
    rw [List.map_map]
    exact has
  obtain ⟨pre, e, mem, -, hlast, -, -, -, hfeed⟩ := feed_code h.normal has'
  obtain ⟨⟨_, mem⟩, -, rfl⟩ : ∃ x ∈ as, mem = some x.2 := by
    obtain ⟨x, hx, hmem⟩ := List.mem_map.1 (hlast ▸ List.mem_append_right pre (List.mem_singleton_self (e, mem)))
    exact ⟨x, hx, (congrArg Prod.snd hmem).symm⟩
  obtain ⟨t, ht, hholds⟩ := h.receive (c := c) hlen mem
  refine ⟨t, ?_, hholds⟩
  rw [feed_map, ht] at hfeed
  exact hfeed

/-- An `END` with nothing before it is passed over. -/
theorem rxbyte_idle (mem : PoolMem) : rxbyte (slipEnd, mem) init = some (init, none) := rfl

/-- An `END` behind a packet returns it, and the receiver is as it was at the beginning. -/
theorem rxbyte_end (h : s.Holds xs) (hlen : xs.length ≤ slipMaxSize + 1) (hne : xs ≠ []) (mem : Option PoolMem) :
    ∃ p, rxbyteMem (slipEnd, mem) s = some (init, some p) ∧ pbufBytes p = xs ∧ Totals p := by
  have hmax : slipMaxSize = 1500 := rfl
  have hprefix := h.filled.prefix
  have hq : s.q ≠ [] := by
    intro hq
    rw [hq] at hprefix
    exact hne (List.prefix_nil.1 hprefix)
  have hroom := h.room
  obtain ⟨p, hp, htotals, -, -, hbytes⟩ := h.totals.realloc hq (by omega) s.recved
  refine ⟨p, ?_, ?_, htotals⟩
  · have hpos : 0 < s.recved := h.recved_eq ▸ List.length_pos_iff.2 hne
    rw [rxbyteMem, slipifRxbyte, h.normal]
    dsimp only
    rw [if_pos rfl, if_pos hpos, hp, Option.map_some]
    rfl
  · rw [hbytes, h.recved_eq]
    exact (List.prefix_iff_eq_take.1 hprefix).symm

/-- What is sent are the bytes of the packet, encoded, between two `END`s. -/
theorem slipifOutput_frames {μ : Type*} {p : List Pbuf} {as : List (BitVec 8 × μ)} (has : as.map Prod.fst = slipifOutput p) :
    ∃ mem bs mem', as = (slipEnd, mem) :: (bs ++ [(slipEnd, mem')]) ∧
      bs.map Prod.fst = (pbufBytes p).flatMap slipifSendByte := by
  have hcode : slipifOutput p = slipEnd :: ((pbufBytes p).flatMap slipifSendByte ++ [slipEnd]) := by
    rw [slipifOutput, pbufBytes, List.flatMap_assoc]
    rfl
  rw [hcode] at has
  obtain ⟨⟨-, mem⟩, as, rfl, rfl, htail⟩ := List.map_eq_cons_iff.1 has
  obtain ⟨bs, last, rfl, hcoded, hlast⟩ := List.map_eq_append_iff.1 htail
  obtain ⟨⟨-, mem'⟩, last, rfl, rfl, hnil⟩ := List.map_eq_cons_iff.1 hlast
  obtain rfl := List.map_eq_nil_iff.1 hnil
  exact ⟨mem, bs, mem', rfl, hcoded⟩

/-- What is sent for a packet, from an idle receiver on. -/
theorem feed_slipifOutput {p : List Pbuf} (hpos : 1 ≤ (pbufBytes p).length)
    (hlen : (pbufBytes p).length ≤ slipMaxSize) {as : List (BitVec 8 × PoolMem)}
    (has : as.map Prod.fst = slipifOutput p) :
    ∃ r, feed rxbyte as init = some (init, [r]) ∧ pbufBytes r = pbufBytes p ∧ Totals r := by
  obtain ⟨mem, as, mem', rfl, hcoded⟩ := slipifOutput_frames has
  obtain ⟨t, ht, hholds⟩ := feeds_letters (I := Holds) (w := pbufBytes p)
    (fun xs x hxs s as hs has ↦ feed_sendByte hs (by
      have := hxs.length_le
      rw [List.length_append] at this
      omega) has) holds_init hcoded
  obtain ⟨r, hend, hbytes, htotals⟩ := rxbyte_end hholds (hlen.trans (Nat.le_succ _))
    (List.length_pos_iff.1 hpos) (some mem')
  have hr : rxbyte (slipEnd, mem') t = some (init, some r) := hend
  exact ⟨r, feed_cons_some (rxbyte_idle mem) (feed_append_some ht (feed_cons_some hr rfl)), hbytes, htotals⟩

/-- **The round trip.** Packets of 1 to `SLIP_MAX_SIZE` bytes are sent, and the bytes are fed to an idle
receiver in pieces, with memory in the pool: no assertion fails, the receiver is idle again, and the chains
that it has returned are the packets in order, with their totals right. -/
theorem slip_round_trip (packets : List (List Pbuf)) (chunks : List (List (BitVec 8 × PoolMem)))
    (hlen : ∀ p ∈ packets, 1 ≤ (pbufBytes p).length ∧ (pbufBytes p).length ≤ slipMaxSize)
    (hsent : chunks.flatten.map Prod.fst = packets.flatMap slipifOutput) :
    ∃ received, feedChunks rxbyte chunks init = some (init, received) ∧
      List.Forall₂ (fun p r ↦ pbufBytes r = pbufBytes p ∧ Totals r ∧ pbufTotLen r = (pbufBytes p).length)
        packets received := by
  rw [feedChunks_eq]
  obtain ⟨s, received, hfeed, rfl, hall⟩ := feeds_frames (J := fun s ↦ s = init)
    (R := fun p r ↦ pbufBytes r = pbufBytes p ∧ Totals r ∧ pbufTotLen r = (pbufBytes p).length)
    (fun p hp s as hs has ↦ by
      obtain ⟨hpos, hle⟩ := hlen p hp
      obtain ⟨r, hr, hbytes, htotals⟩ := feed_slipifOutput hpos hle has
      subst hs
      exact ⟨init, r, hr, rfl, hbytes, htotals, htotals.totLen_eq.trans (congrArg List.length hbytes)⟩)
    rfl hsent
  exact ⟨received, hfeed, hall⟩

/-- Two packets, the first of which has both of the bytes that are escaped, in pieces. -/
theorem slip_round_trip_escaped :
    ∃ received, feedChunks rxbyte
        ([[0xC0, 0xDB], [0xDC, 0x45, 0xDB, 0xDD, 0xC0, 0xC0], [0x00, 0xC0]].map fun cs ↦
          cs.map fun c ↦ (c, fun _ _ ↦ 0)) init = some (init, received) ∧
      received.map pbufBytes = [[0xC0, 0x45, 0xDB], [0x00]] := by
  obtain ⟨received, hfeed, hall⟩ := slip_round_trip [[⟨[0xC0], 3⟩, ⟨[], 2⟩, ⟨[0x45, 0xDB], 2⟩], [⟨[0x00], 1⟩]]
    ([[0xC0, 0xDB], [0xDC, 0x45, 0xDB, 0xDD, 0xC0, 0xC0], [0x00, 0xC0]].map fun cs ↦
      cs.map fun c ↦ (c, fun _ _ ↦ 0)) (by decide) (by rfl)
  refine ⟨received, hfeed, ?_⟩
  obtain ⟨r, rs, hr, htail, rfl⟩ := List.forall₂_cons_left_iff.1 hall
  obtain ⟨r', rs, hr', hnil, rfl⟩ := List.forall₂_cons_left_iff.1 htail
  obtain rfl := List.forall₂_nil_left_iff.1 hnil
  rw [List.map_cons, List.map_cons, hr.1, hr'.1]
  rfl

end Lwip.Netif
