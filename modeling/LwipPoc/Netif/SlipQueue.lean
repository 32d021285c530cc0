import LwipPoc.Netif.Loop
import LwipPoc.Netif.SlipMemory

/-!
# The queue of received packets

`slipif.c` with `SLIP_RX_FROM_ISR` and `SLIP_RX_QUEUE`. `slipif_received_byte` runs in an interrupt: what
`slipif_rxbyte` returns is put on the queue `rxpackets`, pbufs linked by `next`. `slipif_process_rxqueue`
takes a packet off it in a protected part, up to the pbuf with `len == tot_len`, and passes it on outside.

* Two parties move in turn. The producer receives a byte, and behind a completed packet has its protected
  part before it; the consumer has its protected part, and behind it a packet to pass on.
* The cells of a packet under way belong to the producer, to the queue or to the consumer (`Owns`), and so
  the queue **is a finite list in every run** (`run_finite`), whose walks end (`run_goes_on`).
* The search for the end of the queue begins at the new packet instead. It finds the last pbuf of that
  packet, which is linked to the first, and the queue stays as it was: **the packet is lost** where the queue
  is not empty. In the runs where it always is, what was completed is what was passed on and what is under
  way, in order (`run_delivers`).
-/

namespace Lwip.Netif

open Lwip.Core LoopNetif

/-- `struct slipif_priv` with its queue, the memory of the pbufs, and the variables `p` of
`slipif_rxbyte_enqueue` and `slipif_process_rxqueue`. -/
structure SlipifRx where
  priv : SlipifPriv
  heap : CellHeap Pbuf
  rxpackets : Option ℕ
  /-- What was returned by `slipif_rxbyte`, until it is put on the queue. -/
  pending : Option ℕ
  /-- What was taken off the queue, until it is passed on. -/
  holding : Option ℕ

namespace SlipifRx

/-- As `slipif_init` leaves it. -/
def init : SlipifRx := ⟨.init, ∅, none, none, none⟩

/-- The call of `slipif_rxbyte`; a packet that it returns is at the addresses `addrs`. -/
def rxbyte (s : SlipifRx) (c : BitVec 8) (mem : Option PoolMem) (addrs : List ℕ) :
    Option (SlipifRx × Option (List Pbuf)) :=
  (slipifRxbyte c mem s.priv).bind fun x ↦
    match x.2 with
    | none => some ({ s with priv := x.1 }, none)
    | some t =>
      if addrs.length = t.length ∧ addrs.Nodup ∧ ∀ a ∈ addrs, a ∉ s.heap then
        some ({ s with priv := x.1, heap := s.heap.place (addrs.zip t), pending := addrs.head? }, some t)
      else none

/-- The loop `while (q->next != NULL)`. -/
def lastPbuf (h : CellHeap Pbuf) : ℕ → ℕ → Option ℕ
  | 0, _ => none
  | fuel + 1, q =>
    (h.lookup q).bind fun c ↦
      match c.next with
      | none => some q
      | some n => lastPbuf h fuel n

/-- **The protected part of `slipif_rxbyte_enqueue`**. -/
def rxbyteEnqueue (s : SlipifRx) (p : ℕ) : Option SlipifRx :=
  match s.rxpackets with
  | some _ =>
    -- the search begins at `p`
    (lastPbuf s.heap s.heap.keys.card p).bind fun q ↦
      (setNext s.heap q (some p)).map fun h ↦ { s with heap := h, pending := none }
  | none => some { s with rxpackets := some p, pending := none }

/-- The loop `while ((q->len != q->tot_len) && (q->next != NULL))`. -/
def packetEnd (h : CellHeap Pbuf) : ℕ → ℕ → Option ℕ
  | 0, _ => none
  | fuel + 1, q =>
    (h.lookup q).bind fun c ↦
      if c.val.len = c.val.totLen then some q
      else
        match c.next with
        | none => some q
        | some n => packetEnd h fuel n

/-- **The protected part of a turn of `slipif_process_rxqueue`**. -/
def dequeue (s : SlipifRx) : Option SlipifRx :=
  match s.rxpackets with
  | none => some s
  | some p =>
    (packetEnd s.heap s.heap.keys.card p).bind fun q ↦
      (s.heap.lookup q).bind fun c ↦
        (setNext s.heap q none).map fun h ↦ { s with heap := h, rxpackets := c.next, holding := some p }

/-- The call of `netif->input`, and the packet passed to it. Whoever frees its pbufs, they are not used any
more. -/
def passOn (s : SlipifRx) (p : ℕ) : Option (SlipifRx × List Pbuf) :=
  (CellHeap.freeAll s.heap.keys.card (some p) s.heap).map fun h ↦
    ({ s with heap := h, holding := none }, (chain s.heap (some p)).map Prod.snd)

/-- The pbufs from `p` on. -/
def pbufsFrom (s : SlipifRx) (p : Option ℕ) : List Pbuf := (chain s.heap p).map Prod.snd

end SlipifRx

/-! ### Runs -/

/-- Who moves: a byte is received, and a packet that it has completed is put on the queue; a packet is taken
off the queue, and is passed on. -/
inductive SlipifMove
  | receivedByte (c : BitVec 8) (mem : Option PoolMem) (addrs : List ℕ)
  | enqueue
  | dequeue
  | input

/-- The packets completed by `slipif_rxbyte`, and those passed to `netif->input`. -/
structure SlipifRun where
  rx : SlipifRx
  completed : List (List Pbuf)
  input : List (List Pbuf)

namespace SlipifRun

def init : SlipifRun := ⟨.init, [], []⟩

/-- A move. The producer has no packet when it receives a byte, and the consumer none when it takes one. -/
def step : SlipifMove → SlipifRun → Option SlipifRun
  | .receivedByte c mem addrs, r =>
    if r.rx.pending = none then
      (r.rx.rxbyte c mem addrs).map fun x ↦ { r with rx := x.1, completed := r.completed ++ x.2.toList }
    else none
  | .enqueue, r => r.rx.pending.bind fun p ↦ (r.rx.rxbyteEnqueue p).map ({ r with rx := · })
  | .dequeue, r => if r.rx.holding = none then r.rx.dequeue.map ({ r with rx := · }) else none
  | .input, r =>
    r.rx.holding.bind fun p ↦ (r.rx.passOn p).map fun x ↦ { r with rx := x.1, input := r.input ++ [x.2] }

end SlipifRun

/-! ### What is returned -/

/-- A packet that can be told from what follows it: each of its pbufs has bytes. -/
structure Whole (t : List Pbuf) : Prop where
  ne_nil : t ≠ []
  totals : Totals t
  pos : ∀ p ∈ t, 0 < p.len

/-- What the receiver has between two bytes. -/
structure Receives (s : SlipifPriv) : Prop where
  holds : ∃ xs, ({ s with state := .normal } : SlipifPriv).Holds xs ∧ xs.length ≤ slipMaxSize + 1
  pos : ∀ p ∈ s.q, 0 < p.len

theorem SlipifPriv.Holds.receives {s : SlipifPriv} {xs : List (BitVec 8)} (h : s.Holds xs)
    (hlen : xs.length ≤ slipMaxSize + 1) (hpos : ∀ p ∈ s.q, 0 < p.len) : Receives s := by
  have hsame : ({ s with state := .normal } : SlipifPriv) = s := by rw [← h.normal]
  exact ⟨⟨xs, hsame ▸ h, hlen⟩, hpos⟩

theorem receives_init : Receives .init := 
  SlipifPriv.holds_init.receives (Nat.zero_le _) nofun

/-- A trimmed chain of pbufs with bytes. -/
theorem pos_realloc {n : ℕ} {ps t : List Pbuf} (hn : 0 < n) (hpos : ∀ p ∈ ps, 0 < p.len)
    (h : pbufRealloc n ps = some t) : ∀ p ∈ t, 0 < p.len := by
  have htrim : ∀ (grow n : ℕ) (ps t : List Pbuf), 0 < n → (∀ p ∈ ps, 0 < p.len) → pbufTrim grow n ps = some t →
      ∀ p ∈ t, 0 < p.len := by
    intro grow n ps
    induction ps generalizing n with
    | nil => exact fun t _ _ h ↦ by cases h
    | cons q qs ih =>
      intro t hn hpos h
      have hq := hpos q List.mem_cons_self
      rw [pbufTrim] at h
      split_ifs at h with hlt
      · obtain ⟨t', ht', rfl⟩ := Option.map_eq_some_iff.1 h
        refine List.forall_mem_cons.2 ⟨hq, ?_⟩
        exact ih _ t' (Nat.sub_pos_of_lt hlt) (fun p hp ↦ hpos p (List.mem_cons_of_mem q hp)) ht'
      · obtain rfl := Option.some.inj h
        rw [List.forall_mem_singleton, Pbuf.len, List.length_take]
        exact lt_min hn hq
  rw [pbufRealloc] at h
  split_ifs at h
  · obtain rfl := Option.some.inj h
    exact hpos
  · exact htrim _ _ _ _ hn hpos h

namespace SlipifPriv

variable {s t : SlipifPriv} {c : BitVec 8} {mem : Option PoolMem}

/-- The pbufs from the pool have bytes. -/
theorem allocate_pos (h : s.allocate mem = some t) (hpos : ∀ p ∈ s.q, 0 < p.len) : ∀ p ∈ t.q, 0 < p.len := by
  rcases mem with - | mem
  · rw [allocate_none] at h
    exact Option.some.inj h ▸ hpos
  · have hpool : ∀ p ∈ pbufAllocPool .link (pbufPoolBufsizeAligned - PbufLayer.link.offset) mem, 0 < p.len := by
      rw [pbufAllocPool_link]
      refine List.forall_mem_cons.2 ⟨?_, List.forall_mem_singleton.2 ?_⟩ <;>
      · rw [poolPbuf_len]
        decide
    rw [allocate.eq_def] at h
    rcases hp : s.p with - | k <;> rw [hp] at h <;> dsimp only at h
    · split_ifs at h with hq
      · obtain rfl := Option.some.inj h
        exact hpool
      · obtain ⟨q, hq, rfl⟩ := Option.map_eq_some_iff.1 h
        obtain ⟨h', rfl, hpay⟩ := append_of_cat hq
        have hlens : h'.map Pbuf.len = s.q.map Pbuf.len := by
          have := congrArg (List.map List.length) hpay
          rwa [List.map_map, List.map_map] at this
        intro p hp
        rcases List.mem_append.1 hp with hp | hp
        · obtain ⟨p', hp', hlen⟩ := List.mem_map.1 (hlens ▸ List.mem_map_of_mem hp)
          exact hlen ▸ hpos p' hp'
        · exact hpool p hp
    · exact Option.some.inj h ▸ hpos

/-- Writing a byte changes no length. -/
theorem store_pos (hpos : ∀ p ∈ s.q, 0 < p.len) : ∀ p ∈ (s.store c).q, 0 < p.len := by
  have hmodify : ∀ (q : List Pbuf) (k i : ℕ), (∀ p ∈ q, 0 < p.len) → ∀ p ∈ q.modify k (Pbuf.write · i c), 0 < p.len := by
    intro q k i hq p hp
    obtain ⟨j, hj, rfl⟩ := List.mem_iff_getElem.1 hp
    rw [List.getElem_modify]
    split_ifs
    · rw [Pbuf.write_len]
      exact hq _ (List.getElem_mem _)
    · exact hq _ (List.getElem_mem _)
  rw [store]
  split
  · exact hpos
  · rename_i k
    dsimp only
    split_ifs <;> first | exact hpos | exact hmodify _ _ _ hpos

end SlipifPriv

/-- **A byte**, whatever it is and whether there is memory: what is returned is a packet, and the receiver
goes on. -/
theorem Receives.rxbyte {s : SlipifPriv} (h : Receives s) (c : BitVec 8) (mem : Option PoolMem) :
    ∃ t o, slipifRxbyte c mem s = some (t, o) ∧ Receives t ∧ ∀ q ∈ o, Whole q := by
  obtain ⟨⟨xs, hholds, hlen⟩, hpos⟩ := h
  have hreceive : ∀ c, ∃ t, ({ s with state := .normal } : SlipifPriv).receive c mem = some (t, none) ∧ Receives t := by
    intro c
    obtain ⟨t, ht, hkept⟩ := hholds.receive_any (c := c) hlen mem
    have htpos : ∀ p ∈ t.q, 0 < p.len := by
      obtain ⟨u, hu, heq⟩ := Option.map_eq_some_iff.1 ht
      obtain rfl : u.store c = t := congrArg Prod.fst heq
      exact SlipifPriv.store_pos (SlipifPriv.allocate_pos hu hpos)
    refine ⟨t, ht, ?_⟩
    rcases hkept with ⟨hle, hput⟩ | ⟨hsame, -⟩
    · exact hput.receives (by rw [List.length_append]; exact Nat.succ_le_succ hle) htpos
    · exact hsame.receives hlen htpos
  rcases s with ⟨p, q, state, i, recved⟩
  rcases state with - | -
  · rcases Decidable.em (c = slipEnd) with rfl | hend
    · rcases Decidable.em (xs = []) with rfl | hne
      · refine ⟨_, none, ?_, hholds.receives hlen hpos, nofun⟩
        have hzero : ¬0 < recved := by
          rw [show recved = 0 from hholds.recved_eq]
          exact lt_irrefl 0
        rw [slipifRxbyte]
        dsimp only
        rw [if_pos rfl, if_neg hzero]
      · obtain ⟨t, ht, hbytes, htotals⟩ := rxbyte_end hholds hlen hne mem
        refine ⟨_, some t, ht, receives_init, ?_⟩
        rintro _ ⟨⟩
        rw [rxbyteMem, slipifRxbyte] at ht
        dsimp only at ht
        rw [if_pos rfl] at ht
        split_ifs at ht with hrecved
        · obtain ⟨t', ht', heq⟩ := Option.map_eq_some_iff.1 ht
          obtain rfl : t' = t := Option.some.inj (congrArg Prod.snd heq)
          refine ⟨?_, htotals, pos_realloc hrecved hpos ht'⟩
          rintro rfl
          exact hne hbytes.symm
        · cases ht
    · rcases Decidable.em (c = slipEsc) with rfl | hesc
      · exact ⟨_, none, rfl, ⟨⟨xs, hholds, hlen⟩, hpos⟩, nofun⟩
      · obtain ⟨t, ht, hkept⟩ := hreceive c
        refine ⟨t, none, ?_, hkept, nofun⟩
        rw [slipifRxbyte]
        dsimp only
        rw [if_neg hend, if_neg hesc, ht]
  · obtain ⟨t, ht, hkept⟩ := hreceive (if c = slipEscEnd then slipEnd else if c = slipEscEsc then slipEsc else c)
    exact ⟨t, none, ht, hkept, nofun⟩

/-! ### Packets on the queue -/

/-- A packet ends at its last pbuf only. -/
theorem Whole.tail_nil {pre post : List Pbuf} {v : Pbuf} (h : Whole (pre ++ v :: post)) (hv : v.len = v.totLen) :
    post = [] := by
  obtain ⟨-, htotals, hpos⟩ := h
  induction pre with
  | nil =>
    rcases post with - | ⟨w, post⟩
    · rfl
    · have hw := hpos w (List.mem_cons_of_mem v List.mem_cons_self)
      have htot := htotals.1
      simp only [pbufBytes_cons, List.length_append, Pbuf.len] at htot hv hw
      omega
  | cons p pre ih => exact ih htotals.2 fun q hq ↦ hpos q (List.mem_cons_of_mem p hq)

theorem Whole.packets_eq {t : List Pbuf} (h : Whole t) : packets t = [t] := by
  induction t with
  | nil => exact absurd rfl h.ne_nil
  | cons p t ih =>
    rw [packets]
    rcases Decidable.em (t = []) with rfl | hne
    · have htot : p.totLen = (pbufBytes [p]).length := h.totals.1
      rw [pbufBytes_single] at htot
      have hlen : p.len = p.totLen := htot.symm
      rw [if_pos hlen]
      rfl
    · have h' : Whole ([] ++ p :: t) := h
      rw [if_neg fun hlen ↦ hne (h'.tail_nil hlen),
        ih ⟨hne, h.totals.2, fun q hq ↦ h.pos q (List.mem_cons_of_mem p hq)⟩]

namespace SlipifRx

variable {s s' : SlipifRx} {h : CellHeap Pbuf} {hs xs ps : List (ℕ × Pbuf)} {p fuel : ℕ}

/-- The last pbuf of a chain is found. -/
theorem lastPbuf_spec (hx : h.Links (some p) xs none) (hf : xs.length ≤ fuel) :
    ∃ ys l v, lastPbuf h fuel p = some l ∧ xs = ys ++ [(l, v)] := by
  induction xs generalizing p fuel with
  | nil => cases hx
  | cons x xs ih =>
    obtain ⟨hp, r, hr, hx⟩ := hx
    obtain rfl := Option.some.inj hp
    obtain ⟨fuel, rfl⟩ : ∃ n, fuel = n + 1 := ⟨fuel - 1, by rw [List.length_cons] at hf; omega⟩
    rw [lastPbuf, hr, Option.bind_some]
    dsimp only
    rcases r with - | n
    · rcases xs with - | ⟨y, xs⟩
      · exact ⟨[], x.1, x.2, rfl, rfl⟩
      · cases hx.1
    · obtain ⟨ys, l, v, hl, rfl⟩ := ih hx (Nat.le_of_succ_le_succ hf)
      exact ⟨x :: ys, l, v, hl, rfl⟩

/-- The end of a packet is found: the first pbuf with `len == tot_len`, or the last one. -/
theorem packetEnd_spec (hx : h.Links (some p) xs none) (hf : xs.length ≤ fuel) :
    ∃ ys l v rest, packetEnd h fuel p = some l ∧ xs = ys ++ (l, v) :: rest ∧ (v.len = v.totLen ∨ rest = []) := by
  induction xs generalizing p fuel with
  | nil => cases hx
  | cons x xs ih =>
    obtain ⟨hp, r, hr, hx⟩ := hx
    obtain rfl := Option.some.inj hp
    obtain ⟨fuel, rfl⟩ : ∃ n, fuel = n + 1 := ⟨fuel - 1, by rw [List.length_cons] at hf; omega⟩
    rw [packetEnd, hr, Option.bind_some]
    dsimp only
    split_ifs with hend
    · exact ⟨[], x.1, x.2, xs, rfl, rfl, .inl hend⟩
    · rcases r with - | n
      · rcases xs with - | ⟨y, xs⟩
        · exact ⟨[], x.1, x.2, [], rfl, rfl, .inr rfl⟩
        · cases hx.1
      · obtain ⟨ys, l, v, rest, hl, rfl, hrest⟩ := ih hx (Nat.le_of_succ_le_succ hf)
        exact ⟨x :: ys, l, v, rest, hl, rfl, hrest⟩

/-! ### Whose the pbufs are -/

/-- **The pbufs under way**: those that the consumer has, those on the queue, and those that the producer
has, each a list of their own. -/
structure Owns (s : SlipifRx) (hs xs ps : List (ℕ × Pbuf)) : Prop where
  held : s.heap.Links s.holding hs none
  queue : s.heap.Links s.rxpackets xs none
  made : s.heap.Links s.pending ps none
  held_queue : (hs.map Prod.fst).Disjoint (xs.map Prod.fst)
  held_made : (hs.map Prod.fst).Disjoint (ps.map Prod.fst)
  queue_made : (xs.map Prod.fst).Disjoint (ps.map Prod.fst)

theorem owns_init : Owns init [] [] [] := by
  refine ⟨rfl, rfl, rfl, ?_, ?_, ?_⟩ <;> exact List.disjoint_nil_left _

/-- No pbufs for no pointer. -/
theorem eq_nil_of_links (hx : h.Links none xs none) : xs = [] := by
  rcases xs with - | ⟨x, xs⟩
  · rfl
  · cases hx.1

/-- The call of `slipif_rxbyte`: a packet that is returned is the producer's. -/
theorem Owns.rxbyte {c : BitVec 8} {mem : Option PoolMem} {addrs : List ℕ} {o : Option (List Pbuf)}
    (h : Owns s hs xs []) (hrx : s.rxbyte c mem addrs = some (s', o)) :
    slipifRxbyte c mem s.priv = some (s'.priv, o) ∧
      ∃ ps, Owns s' hs xs ps ∧ ps.map Prod.snd = o.getD [] := by
  obtain ⟨⟨priv, o'⟩, hbyte, hrx⟩ := Option.bind_eq_some_iff.1 hrx
  rcases o' with - | t <;> dsimp only at hrx
  · cases hrx
    exact ⟨hbyte, [], ⟨h.held, h.queue, h.made, h.held_queue, h.held_made, h.queue_made⟩, rfl⟩
  · obtain ⟨⟨hlen, hnd, hfresh⟩, heq⟩ := Option.ite_none_right_eq_some.1 hrx
    cases heq
    have hfst : (addrs.zip t).map Prod.fst = addrs := List.map_fst_zip hlen.le
    have hapart : ∀ {p : Option ℕ} {zs : List (ℕ × Pbuf)}, s.heap.Links p zs none →
        (s.heap.place (addrs.zip t)).Links p zs none ∧
          (zs.map Prod.fst).Disjoint ((addrs.zip t).map Prod.fst) := by
      intro p zs hzs
      have hdisjoint : (zs.map Prod.fst).Disjoint ((addrs.zip t).map Prod.fst) := by
        intro a ha hnew
        rw [hfst] at hnew
        exact hfresh a hnew (hzs.mem_heap ha)
      exact ⟨hzs.frame fun a ha ↦ CellHeap.place_lookup fun hnew ↦ hdisjoint ha hnew, hdisjoint⟩
    have hnd' : ((addrs.zip t).map Prod.fst).Nodup := by rwa [hfst]
    have hmade := CellHeap.links_place (h := s.heap) hnd'
    rw [← List.head?_map, hfst] at hmade
    exact ⟨hbyte, addrs.zip t, ⟨(hapart h.held).1, (hapart h.queue).1, hmade, h.held_queue,
      (hapart h.held).2, (hapart h.queue).2⟩, List.map_snd_zip hlen.ge⟩

/-- **The protected part of `slipif_rxbyte_enqueue`**: an empty queue takes the packet; any other stays as it
is, and the packet is nobody's. -/
theorem Owns.enqueue (h : Owns s hs xs ps) (hp : s.pending = some p) :
    ∃ t, s.rxbyteEnqueue p = some t ∧ t.priv = s.priv ∧
      (s.rxpackets = none ∧ Owns t hs ps [] ∨ s.rxpackets ≠ none ∧ Owns t hs xs []) := by
  have hmade := h.made
  rw [hp] at hmade
  rw [rxbyteEnqueue.eq_def]
  rcases hrx : s.rxpackets with - | a
  · exact ⟨_, rfl, rfl, .inl ⟨rfl, h.held, hmade, rfl, h.held_made, List.disjoint_nil_right _,
      List.disjoint_nil_right _⟩⟩
  · obtain ⟨ys, l, v, hlast, rfl⟩ := lastPbuf_spec hmade hmade.length_le
    have hl : l ∈ (ys ++ [(l, v)]).map Prod.fst := by simp
    have hcell := hmade.lookup_last
    dsimp only
    rw [hlast, Option.bind_some, setNext, hcell]
    refine ⟨_, rfl, rfl, .inr ⟨Option.some_ne_none a, ?_, ?_, rfl, h.held_queue, List.disjoint_nil_right _,
      List.disjoint_nil_right _⟩⟩
    · exact h.held.insert_of_notMem (fun hmem ↦ h.held_made hmem hl) _
    · exact hrx ▸ h.queue.insert_of_notMem (fun hmem ↦ h.queue_made hmem hl) _

/-- **The protected part of `slipif_process_rxqueue`** divides the queue at the end of a packet. -/
theorem Owns.dequeue (h : Owns s hs xs ps) :
    ∃ t, s.dequeue = some t ∧ t.priv = s.priv ∧
      (xs = [] ∧ t = s ∨ ∃ ys l v rest, xs = ys ++ (l, v) :: rest ∧ (v.len = v.totLen ∨ rest = []) ∧
        Owns t (ys ++ [(l, v)]) rest ps) := by
  rw [SlipifRx.dequeue.eq_def]
  have hqueue := h.queue
  rcases hrx : s.rxpackets with - | a <;> rw [hrx] at hqueue <;> dsimp only
  · exact ⟨s, rfl, rfl, .inl ⟨eq_nil_of_links hqueue, rfl⟩⟩
  · obtain ⟨ys, l, v, rest, hend, rfl, hrest⟩ := packetEnd_spec hqueue hqueue.length_le
    obtain ⟨r, hcell, hfirst, hsecond⟩ := hqueue.cut
    have hnd := hqueue.nodup
    have hsplit : (ys ++ (l, v) :: rest).map Prod.fst = (ys ++ [(l, v)]).map Prod.fst ++ rest.map Prod.fst := by
      simp
    rw [hsplit] at hnd
    have hmade : ∀ a ∈ (ys ++ (l, v) :: rest).map Prod.fst, a ∉ ps.map Prod.fst := fun a ha hp ↦ h.queue_made ha hp
    have hl : l ∈ (ys ++ (l, v) :: rest).map Prod.fst := by simp
    rw [hend, Option.bind_some, hcell, Option.bind_some, setNext, hcell]
    refine ⟨_, rfl, rfl, .inr ⟨ys, l, v, rest, rfl, hrest, hfirst, hsecond, ?_, ?_, ?_, ?_⟩⟩
    · exact h.made.insert_of_notMem (hmade l hl) _
    · exact List.disjoint_of_nodup_append hnd
    · exact fun a ha ↦ hmade a (hsplit ▸ List.mem_append_left _ ha)
    · exact fun a ha ↦ hmade a (hsplit ▸ List.mem_append_right _ ha)

/-- The call of `netif->input`. -/
theorem Owns.passOn (h : Owns s hs xs ps) (hp : s.holding = some p) :
    ∃ t, s.passOn p = some (t, hs.map Prod.snd) ∧ t.priv = s.priv ∧ Owns t [] xs ps := by
  have hheld := h.held
  rw [hp] at hheld
  obtain ⟨heap, hfree, hlookup⟩ := hheld.freeAll_eq hheld.length_le
  have hframe : ∀ {p : Option ℕ} {zs : List (ℕ × Pbuf)}, (hs.map Prod.fst).Disjoint (zs.map Prod.fst) →
      s.heap.Links p zs none → heap.Links p zs none := by
    intro p zs hdisjoint hzs
    refine hzs.frame fun a ha ↦ ?_
    rw [hlookup, if_neg fun hmem ↦ hdisjoint hmem ha]
  refine ⟨⟨s.priv, heap, s.rxpackets, s.pending, none⟩, ?_, rfl, rfl, hframe h.held_queue h.queue,
    hframe h.held_made h.made, List.disjoint_nil_left _, List.disjoint_nil_left _, h.queue_made⟩
  rw [SlipifRx.passOn, hfree, Option.map_some, chain_eq hheld]

end SlipifRx

/-! ### What a move does -/

namespace SlipifRun

open SlipifRx

variable {r r' : SlipifRun} {m : SlipifMove} {ms : List SlipifMove} {hs xs ps : List (ℕ × Pbuf)}

/-- **What a move does** with the pbufs of the consumer, of the queue and of the producer. -/
inductive Moved (r r' : SlipifRun) : SlipifMove → (hs xs ps hs' xs' ps' : List (ℕ × Pbuf)) → Prop
  | received (c : BitVec 8) (mem : Option PoolMem) (addrs : List ℕ) (hs xs : List (ℕ × Pbuf))
      (hc : r'.completed = r.completed) (hi : r'.input = r.input) :
      Moved r r' (.receivedByte c mem addrs) hs xs [] hs xs []
  | completed (c : BitVec 8) (mem : Option PoolMem) (addrs : List ℕ) (hs xs ps : List (ℕ × Pbuf))
      (hps : Whole (ps.map Prod.snd)) (hc : r'.completed = r.completed ++ [ps.map Prod.snd])
      (hi : r'.input = r.input) : Moved r r' (.receivedByte c mem addrs) hs xs [] hs xs ps
  | queued (hs ps : List (ℕ × Pbuf)) (hc : r'.completed = r.completed) (hi : r'.input = r.input) :
      Moved r r' .enqueue hs [] ps hs ps []
  | lost (hs xs ps : List (ℕ × Pbuf)) (hne : r.rx.rxpackets ≠ none) (hc : r'.completed = r.completed)
      (hi : r'.input = r.input) : Moved r r' .enqueue hs xs ps hs xs []
  | idle (ps : List (ℕ × Pbuf)) (hc : r'.completed = r.completed) (hi : r'.input = r.input) :
      Moved r r' .dequeue [] [] ps [] [] ps
  | taken (ys : List (ℕ × Pbuf)) (l : ℕ) (v : Pbuf) (rest ps : List (ℕ × Pbuf))
      (hrest : v.len = v.totLen ∨ rest = []) (hc : r'.completed = r.completed) (hi : r'.input = r.input) :
      Moved r r' .dequeue [] (ys ++ (l, v) :: rest) ps (ys ++ [(l, v)]) rest ps
  | passed (hs xs ps : List (ℕ × Pbuf)) (hne : hs ≠ []) (hc : r'.completed = r.completed)
      (hi : r'.input = r.input ++ [hs.map Prod.snd]) : Moved r r' .input hs xs ps [] xs ps

theorem step_moved (howns : Owns r.rx hs xs ps) (hrec : Receives r.rx.priv) (hstep : step m r = some r') :
    Receives r'.rx.priv ∧ ∃ hs' xs' ps', Owns r'.rx hs' xs' ps' ∧ Moved r r' m hs xs ps hs' xs' ps' := by
  rcases m with ⟨c, mem, addrs⟩ | - | - | -
  · obtain ⟨hnone, hstep⟩ := Option.ite_none_right_eq_some.1 hstep
    obtain ⟨⟨s, o⟩, hrx, rfl⟩ := Option.map_eq_some_iff.1 hstep
    have hmade := howns.made
    rw [hnone] at hmade
    obtain rfl := eq_nil_of_links hmade
    obtain ⟨hbyte, ps, howns', hps⟩ := howns.rxbyte hrx
    obtain ⟨t, o', hbyte', hrec', hwhole⟩ := hrec.rxbyte c mem
    obtain ⟨rfl, rfl⟩ := Prod.mk.inj (Option.some.inj (hbyte'.symm.trans hbyte))
    refine ⟨hrec', hs, xs, ps, howns', ?_⟩
    rcases o' with - | t
    · obtain rfl := List.map_eq_nil_iff.1 hps
      exact .received c mem addrs hs xs (List.append_nil _) rfl
    · obtain rfl : ps.map Prod.snd = t := hps
      exact .completed c mem addrs hs xs ps (hwhole _ rfl) rfl rfl
  · obtain ⟨p, hp, hstep⟩ := Option.bind_eq_some_iff.1 hstep
    obtain ⟨s, hrx, rfl⟩ := Option.map_eq_some_iff.1 hstep
    obtain ⟨t, ht, hpriv, hcases⟩ := howns.enqueue hp
    obtain rfl := Option.some.inj (ht.symm.trans hrx)
    refine ⟨hpriv ▸ hrec, ?_⟩
    rcases hcases with ⟨hempty, howns'⟩ | ⟨hne, howns'⟩
    · have hqueue := howns.queue
      rw [hempty] at hqueue
      obtain rfl := eq_nil_of_links hqueue
      exact ⟨hs, ps, [], howns', .queued hs ps rfl rfl⟩
    · exact ⟨hs, xs, [], howns', .lost hs xs ps hne rfl rfl⟩
  · obtain ⟨hnone, hstep⟩ := Option.ite_none_right_eq_some.1 hstep
    obtain ⟨s, hrx, rfl⟩ := Option.map_eq_some_iff.1 hstep
    have hheld := howns.held
    rw [hnone] at hheld
    obtain rfl := eq_nil_of_links hheld
    obtain ⟨t, ht, hpriv, hcases⟩ := howns.dequeue
    obtain rfl := Option.some.inj (ht.symm.trans hrx)
    refine ⟨hpriv ▸ hrec, ?_⟩
    rcases hcases with ⟨rfl, hsame⟩ | ⟨ys, l, v, rest, rfl, hrest, howns'⟩
    · exact ⟨[], [], ps, hsame ▸ howns, .idle ps rfl rfl⟩
    · exact ⟨_, rest, ps, howns', .taken ys l v rest ps hrest rfl rfl⟩
  · obtain ⟨p, hp, hstep⟩ := Option.bind_eq_some_iff.1 hstep
    obtain ⟨⟨s, t⟩, hrx, rfl⟩ := Option.map_eq_some_iff.1 hstep
    obtain ⟨u, hu, hpriv, howns'⟩ := howns.passOn hp
    obtain ⟨rfl, rfl⟩ := Prod.mk.inj (Option.some.inj (hu.symm.trans hrx))
    have hne : hs ≠ [] := by
      rintro rfl
      exact absurd (hp.symm.trans howns.held) (Option.some_ne_none p)
    exact ⟨hpriv ▸ hrec, [], xs, ps, howns', .passed hs xs ps hne rfl rfl⟩

/-! ### Every run -/

theorem run_owns (hrun : runLabels step ms init = some r) :
    Receives r.rx.priv ∧ ∃ hs xs ps, Owns r.rx hs xs ps :=
  runLabels_invariant (I := fun r ↦ Receives r.rx.priv ∧ ∃ hs xs ps, Owns r.rx hs xs ps)
    ⟨receives_init, [], [], [], owns_init⟩
    (fun _ _ _ ⟨hrec, _, _, _, howns⟩ hstep ↦
      have ⟨hrec', _, _, _, howns', _⟩ := step_moved howns hrec hstep
      ⟨hrec', _, _, _, howns'⟩) hrun

/-- **The queue is a finite list**, and visits no pbuf twice. -/
theorem run_finite (hrun : runLabels step ms init = some r) :
    ∃ xs, r.rx.heap.Links r.rx.rxpackets xs none ∧ (xs.map Prod.fst).Nodup := by
  obtain ⟨-, hs, xs, ps, howns⟩ := run_owns hrun
  exact ⟨xs, howns.queue, howns.queue.nodup⟩

/-- **No walk goes on for ever**, and no assertion fails: whoever is to move can. -/
theorem run_goes_on (hrun : runLabels step ms init = some r) :
    (∀ c mem, (slipifRxbyte c mem r.rx.priv).isSome) ∧ (r.rx.pending.isSome → (step .enqueue r).isSome) ∧
      (r.rx.holding = none → (step .dequeue r).isSome) ∧ (r.rx.holding.isSome → (step .input r).isSome) := by
  obtain ⟨hrec, hs, xs, ps, howns⟩ := run_owns hrun
  refine ⟨fun c mem ↦ ?_, fun hp ↦ ?_, fun hnone ↦ ?_, fun hp ↦ ?_⟩
  · obtain ⟨t, o, ht, -⟩ := hrec.rxbyte c mem
    rw [ht]
    rfl
  · obtain ⟨p, hp⟩ := Option.isSome_iff_exists.1 hp
    obtain ⟨t, ht, -⟩ := howns.enqueue hp
    rw [step, hp, Option.bind_some, ht]
    rfl
  · obtain ⟨t, ht, -⟩ := howns.dequeue
    rw [step, if_pos hnone, ht]
    rfl
  · obtain ⟨p, hp⟩ := Option.isSome_iff_exists.1 hp
    obtain ⟨t, ht, -⟩ := howns.passOn hp
    rw [step, hp, Option.bind_some, ht]
    rfl

set_option maxRecDepth 4000 in
/-- A packet of one byte can be put on the queue. -/
theorem run_goes_on_received :
    ∃ r, runLabels step [.receivedByte 1 (some fun _ _ ↦ 0) [], .receivedByte 0xC0 (some fun _ _ ↦ 0) [0]] init = some r ∧
      (step .enqueue r).isSome := by
  refine exists_run_of_observe (fun r ↦ r.rx.pending.isSome) true (by decide) fun r hr hp ↦ ?_
  exact (run_goes_on hr).2.1 hp

/-! ### Runs in which the queue is empty -/

/-- A packet is put on the queue when there is none on it. -/
def FindsEmpty : SlipifMove → SlipifRun → Prop
  | .enqueue, r => r.rx.rxpackets = none
  | _, _ => True

instance : ∀ m r, Decidable (FindsEmpty m r)
  | .enqueue, _ => inferInstanceAs (Decidable (_ = _))
  | .receivedByte _ _ _, _ => inferInstanceAs (Decidable True)
  | .dequeue, _ => inferInstanceAs (Decidable True)
  | .input, _ => inferInstanceAs (Decidable True)

/-- **What was completed** was passed on, or is with the consumer, on the queue or with the producer, where
there is at most one packet each. -/
structure Exact (r : SlipifRun) (hs xs ps : List (ℕ × Pbuf)) : Prop where
  owns : Owns r.rx hs xs ps
  receives : Receives r.rx.priv
  held : hs = [] ∨ Whole (hs.map Prod.snd)
  queue : xs = [] ∨ Whole (xs.map Prod.snd)
  made : ps = [] ∨ Whole (ps.map Prod.snd)
  completed_eq : r.completed =
    r.input ++ packets (hs.map Prod.snd) ++ packets (xs.map Prod.snd) ++ packets (ps.map Prod.snd)

theorem Exact.step (h : Exact r hs xs ps) (hfinds : FindsEmpty m r) (hstep : step m r = some r') :
    ∃ hs' xs' ps', Exact r' hs' xs' ps' := by
  obtain ⟨hrec, hs', xs', ps', howns, hmoved⟩ := step_moved h.owns h.receives hstep
  have heq := h.completed_eq
  have hheld := h.held
  have hqueue := h.queue
  have hmade := h.made
  refine ⟨hs', xs', ps', ?_⟩
  cases hmoved with
  | received c mem addrs hs xs hc hi => exact ⟨howns, hrec, hheld, hqueue, hmade, by rw [hc, hi]; exact heq⟩
  | completed c mem addrs hs xs ps hps hc hi =>
    refine ⟨howns, hrec, hheld, hqueue, .inr hps, ?_⟩
    rw [hc, hi, heq, hps.packets_eq]
    simp only [List.map_nil, packets, List.append_nil]
  | queued hs ps hc hi =>
    refine ⟨howns, hrec, hheld, hmade, .inl rfl, ?_⟩
    rw [hc, hi, heq]
    simp only [List.map_nil, packets, List.append_nil]
  | lost hs xs ps hne => exact absurd hfinds hne
  | idle ps hc hi => exact ⟨howns, hrec, hheld, hqueue, hmade, by rw [hc, hi]; exact heq⟩
  | taken ys l v _ _ hrest hc hi =>
    have hwhole := hqueue.resolve_left (List.append_ne_nil_of_right_ne_nil _ (List.cons_ne_nil _ _))
    obtain rfl : xs' = [] := by
      refine hrest.elim (fun hv ↦ ?_) id
      rw [List.map_append, List.map_cons] at hwhole
      exact List.map_eq_nil_iff.1 (hwhole.tail_nil hv)
    refine ⟨howns, hrec, .inr hwhole, .inl rfl, hmade, ?_⟩
    rw [hc, hi, heq]
    simp only [List.map_nil, packets, List.append_nil]
  | passed hs xs ps hne hc hi =>
    refine ⟨howns, hrec, .inl rfl, hqueue, hmade, ?_⟩
    rw [hc, hi, heq, (hheld.resolve_left hne).packets_eq]
    simp only [List.map_nil, packets, List.append_nil]

/-- **Delivery is exact**, in every run in which a packet is put on the queue only when it finds it empty: the
queue is a finite list, and the packets completed are those passed to `netif->input`, and behind them the one
that the consumer has, those on the queue and the one that the producer has, each once and in order. -/
theorem run_delivers (hrun : runLabels (guardStep FindsEmpty step) ms init = some r) :
    (∃ xs, r.rx.heap.Links r.rx.rxpackets xs none ∧ (xs.map Prod.fst).Nodup) ∧
      r.completed = r.input ++ packets (r.rx.pbufsFrom r.rx.holding) ++
        packets (r.rx.pbufsFrom r.rx.rxpackets) ++ packets (r.rx.pbufsFrom r.rx.pending) := by
  refine ⟨run_finite (runLabels_of_guardStep hrun), ?_⟩
  obtain ⟨hs, xs, ps, h⟩ := runLabels_invariant (I := fun r ↦ ∃ hs xs ps, Exact r hs xs ps)
    ⟨[], [], [], owns_init, receives_init, .inl rfl, .inl rfl, .inl rfl, rfl⟩
    (fun _ _ _ ⟨_, _, _, h⟩ hstep ↦
      have hstep := guardStep_eq_some.1 hstep
      h.step hstep.1 hstep.2) hrun
  rw [h.completed_eq, pbufsFrom, pbufsFrom, pbufsFrom, chain_eq h.owns.held, chain_eq h.owns.queue,
    chain_eq h.owns.made]

/-- The pool, with zeros in its memory. -/
def zeros : Option PoolMem := some fun _ _ ↦ 0

/-- A packet of one byte is received at the address `a`, behind an `END`. -/
def receives (c : BitVec 8) (a : ℕ) : List SlipifMove :=
  [.receivedByte c zeros [], .receivedByte 0xC0 zeros [a]]

set_option maxRecDepth 4000 in
/-- Of two packets the first is passed on before the second one is put on the queue. -/
theorem run_delivers_two : ∃ r, runLabels (guardStep FindsEmpty step)
      (receives 1 0 ++ [.enqueue] ++ receives 2 1 ++ [.dequeue, .input, .enqueue, .dequeue]) init = some r ∧
    r.input.map pbufBytes = [[1]] ∧ r.completed.map pbufBytes = [[1], [2]] ∧
    r.completed = r.input ++ packets (r.rx.pbufsFrom r.rx.holding) ++
      packets (r.rx.pbufsFrom r.rx.rxpackets) ++ packets (r.rx.pbufsFrom r.rx.pending) := by
  refine exists_run_of_observe (fun r ↦ (r.input.map pbufBytes, r.completed.map pbufBytes))
    ([[1]], [[1], [2]]) (by decide) fun r hr hobs ↦ ?_
  obtain ⟨hinput, hcompleted⟩ := Prod.mk.inj hobs
  exact ⟨hinput, hcompleted, (run_delivers hr).2⟩

set_option maxRecDepth 4000 in
/-- **A packet is lost**: two are completed before the consumer moves, and when it has passed on the first
there is nothing left. -/
theorem run_loses : ∃ r, runLabels step
      (receives 1 0 ++ [.enqueue] ++ receives 2 1 ++ [.enqueue, .dequeue, .input, .dequeue]) init = some r ∧
    r.input.map pbufBytes = [[1]] ∧ r.completed.map pbufBytes = [[1], [2]] ∧
    r.rx.holding = none ∧ r.rx.rxpackets = none ∧ r.rx.pending = none := by
  refine exists_run_of_observe (fun r ↦ ((r.input.map pbufBytes, r.completed.map pbufBytes),
      r.rx.holding, r.rx.rxpackets, r.rx.pending))
    (([[1]], [[1], [2]]), none, none, none) (by decide) fun r hr hobs ↦ ?_
  obtain ⟨hpackets, hptrs⟩ := Prod.mk.inj hobs
  obtain ⟨hinput, hcompleted⟩ := Prod.mk.inj hpackets
  obtain ⟨hholding, hrest⟩ := Prod.mk.inj hptrs
  obtain ⟨hqueue, hpending⟩ := Prod.mk.inj hrest
  exact ⟨hinput, hcompleted, hholding, hqueue, hpending⟩

end SlipifRun

end Lwip.Netif
