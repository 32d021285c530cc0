import LwipPoc.Core.Pbuf
import LwipPoc.Foundation.Execution
import LwipPoc.Foundation.LinkedHeap

/-!
# Loopback

`netif_loop_output` and `netif_poll` of `core/netif.c`. A packet that an interface sends to itself is
copied into a fresh pbuf, which is linked behind the others between `loop_first` and `loop_last`; the
packets on this queue are told apart by `len == tot_len`. `netif_poll` takes them off, one in each
protected step, and passes them to `ip_input`.

* A call of `netif_loop_output` is one step: only its last part, which is protected, touches the queue.
  So is a turn of the loop of `netif_poll`: behind its protected part it has the packet to itself.
* `LWIP_LOOPBACK_MAX_PBUFS` is a parameter. With zero there is neither limit nor counter.
* `LWIP_ERROR` stops the program, as an assertion does, so `netif_loop_output` does not get to its exit
  behind a `pbuf_copy` that fails.

**Delivery is exact** (`loopback_exact`): at any time, what was accepted is what was passed to `ip_input`
and what is on the queue, in order. **The counter is not**: `netif_poll` takes the pbufs of the whole
queue off it with the first packet, so it is right in those runs where no packet waits behind the
one that is taken (`loop_cnt_exact`).
-/

namespace Lwip.Netif

open Lwip.Core

/-- The packet of a caller: a chain with the right totals. -/
structure LoopPacket where
  pbufs : List Pbuf
  ne_nil : pbufs ≠ []
  totals : Totals pbufs
  /-- `tot_len` is a `u16_t`. -/
  lt : (pbufBytes pbufs).length < 2 ^ 16

/-- What the functions use of a `struct netif`, and the memory of the pbufs that it holds. -/
structure LoopNetif where
  heap : CellHeap Pbuf
  loopFirst : Option ℕ
  loopLast : Option ℕ
  /-- A `u16_t`. -/
  loopCntCurrent : ℕ

/-- What `pbuf_alloc` gets: the place of a pbuf, and what is in memory there. -/
structure LoopMem where
  addr : ℕ
  junk : ℕ → BitVec 8

namespace LoopNetif

/-- The pbufs from `p` on. -/
def chain (h : CellHeap Pbuf) (p : Option ℕ) : List (ℕ × Pbuf) := h.walk h.keys.card p

/-- The pbufs on the queue. -/
def queue (s : LoopNetif) : List Pbuf := (chain s.heap s.loopFirst).map Prod.snd

/-- Nothing was sent yet. -/
def init : LoopNetif := ⟨∅, none, none, 0⟩

/-- `p->next = q`. -/
def setNext (h : CellHeap Pbuf) (p : ℕ) (q : Option ℕ) : Option (CellHeap Pbuf) :=
  (h.lookup p).map fun c ↦ h.insert p { c with next := q }

/-- `pbuf_alloc(PBUF_LINK, length, PBUF_RAM)`: one pbuf. -/
def pbufAlloc (h : CellHeap Pbuf) (length : ℕ) (mem : LoopMem) : Option (CellHeap Pbuf) :=
  if mem.addr ∈ h then none
  else some (h.insert mem.addr ⟨⟨(List.range length).map mem.junk, length⟩, none⟩)

/-- The counter, before a packet of `clen` pbufs is linked: `none` if there are too many. -/
def reserve (maxPbufs : ℕ) (s : LoopNetif) (clen : ℕ) : Option LoopNetif :=
  if maxPbufs = 0 then some s
  else if s.loopCntCurrent + clen < s.loopCntCurrent ∨ maxPbufs < s.loopCntCurrent + clen then none
  else some { s with loopCntCurrent := (s.loopCntCurrent + clen) % 2 ^ 16 }

/-- The protected part of `netif_loop_output`: the chain `r` is linked behind the queue. -/
def link (s : LoopNetif) (r last : ℕ) : Option LoopNetif :=
  match s.loopFirst, s.loopLast with
  | some _, none => none
  | some _, some l => (setNext s.heap l (some r)).map fun h ↦ { s with heap := h, loopLast := some last }
  | none, _ => some { s with loopFirst := some r, loopLast := some last }

/-- **`netif_loop_output`**. -/
def netifLoopOutput (maxPbufs : ℕ) (s : LoopNetif) (p : LoopPacket) (mem : Option LoopMem) :
    Option (ErrT × LoopNetif) :=
  match mem with
  | none => some (.mem, s)
  | some mem =>
    (pbufAlloc s.heap (pbufTotLen p.pbufs) mem).bind fun h ↦
      let r := chain h (some mem.addr)
      match reserve maxPbufs s (pbufClen (r.map Prod.snd)) with
      | none => some (.mem, s)
      | some s =>
        (pbufCopy (r.map Prod.snd) p.pbufs).bind fun copy ↦
          -- the bytes are written into the pbufs of `r`
          let h := (r.zip copy).foldl (fun h x ↦ h.insert x.1.1 ⟨x.2, (h.lookup x.1.1).bind Cell.next⟩) h
          (r.getLast?).bind fun last ↦
            (link { s with heap := h } mem.addr last.1).map (ErrT.ok, ·)

/-- The search for the last pbuf of the packet that begins at `p`. -/
def inEnd (h : CellHeap Pbuf) : ℕ → ℕ → Option ℕ
  | 0, _ => none
  | fuel + 1, p =>
    (h.lookup p).bind fun c ↦
      if c.val.len = c.val.totLen then some p
      else c.next.bind (inEnd h fuel)

/-- The counter, when a packet is taken: `pbuf_clen(in)` less. -/
def release (maxPbufs : ℕ) (s : LoopNetif) (clen : ℕ) : Option LoopNetif :=
  if maxPbufs = 0 then some s
  -- the difference is an `int`
  else if (s.loopCntCurrent : ℤ) - clen < s.loopCntCurrent then
    some { s with loopCntCurrent := (s.loopCntCurrent + 2 ^ 16 - clen) % 2 ^ 16 }
  else none

/-- The queue without the packet that ends at `e`, behind which `next` is. -/
def pop (s : LoopNetif) (e : ℕ) (next : Option ℕ) : Option LoopNetif :=
  if some e = s.loopLast then some { s with loopFirst := none, loopLast := none }
  else if next = none then none
  else some { s with loopFirst := next }

/-- **A turn of `netif_poll`**: the packet that goes to `ip_input`, if there is one. -/
def netifPoll (maxPbufs : ℕ) (s : LoopNetif) : Option (Option (List Pbuf) × LoopNetif) :=
  match s.loopFirst with
  | none => some (none, s)
  | some a =>
    (release maxPbufs s (pbufClen s.queue)).bind fun s ↦
      (inEnd s.heap s.heap.keys.card a).bind fun e ↦
        (s.heap.lookup e).bind fun c ↦
          (s.pop e c.next).bind fun s ↦
            (setNext s.heap e none).bind fun h ↦
              -- from here on the packet is `ip_input`'s
              (CellHeap.freeAll h.keys.card (some a) h).map fun h' ↦
                (some ((chain h (some a)).map Prod.snd), { s with heap := h' })

/-- The packets of a chain: each ends where `len == tot_len`. -/
def packets : List Pbuf → List (List Pbuf)
  | [] => []
  | p :: ps =>
    if p.len = p.totLen then [p] :: packets ps
    else
      match packets ps with
      | [] => [[p]]
      | q :: qs => (p :: q) :: qs

end LoopNetif

/-! ### Runs -/

/-- What happens to an interface. -/
inductive LoopCall
  | output (p : LoopPacket) (mem : Option LoopMem)
  | poll

/-- The interface, the contents of the packets for which `netif_loop_output` returned `ERR_OK`, and the
packets passed to `ip_input`. -/
structure LoopRun where
  netif : LoopNetif
  accepted : List (List (BitVec 8))
  input : List (List Pbuf)

namespace LoopRun

/-- Nothing was sent yet. -/
def init : LoopRun := ⟨.init, [], []⟩

/-- One call, or one turn of `netif_poll`. -/
def step (maxPbufs : ℕ) : LoopCall → LoopRun → Option LoopRun
  | .output p mem, r =>
    (r.netif.netifLoopOutput maxPbufs p mem).map fun x ↦
      { r with
        netif := x.2
        accepted := if x.1 = .ok then r.accepted ++ [pbufBytes p.pbufs] else r.accepted }
  | .poll, r =>
    (r.netif.netifPoll maxPbufs).map fun x ↦
      { r with netif := x.2, input := r.input ++ x.1.toList }

end LoopRun

/-! ### The queue -/

namespace LoopNetif

variable {s s' : LoopNetif} {xs : List (ℕ × Pbuf)} {h h' : CellHeap Pbuf} {maxPbufs : ℕ}
  {p : LoopPacket} {mem : Option LoopMem} {e : ErrT}

/-- **The queue** lies between `loop_first` and `loop_last`, and each of its pbufs is a packet. -/
structure Queued (s : LoopNetif) (xs : List (ℕ × Pbuf)) : Prop where
  links : s.heap.Links s.loopFirst xs none
  last : s.loopLast = xs.getLast?.map Prod.fst
  whole : ∀ x ∈ xs, x.2.len = x.2.totLen

theorem chain_eq {o : Option ℕ} (hx : h.Links o xs none) : chain h o = xs := hx.walk_eq hx.length_le

theorem Queued.queue_eq (hq : Queued s xs) : s.queue = xs.map Prod.snd :=
  congrArg _ (chain_eq hq.links)

theorem queued_init : Queued init [] := ⟨rfl, rfl, nofun⟩

/-- Pbufs that are packets are told apart. -/
theorem packets_whole {ps : List Pbuf} (hps : ∀ p ∈ ps, p.len = p.totLen) :
    packets ps = ps.map fun p ↦ [p] := by
  induction ps with
  | nil => rfl
  | cons p ps ih =>
    rw [packets, if_pos (hps p List.mem_cons_self),
      ih fun q hq ↦ hps q (List.mem_cons_of_mem _ hq), List.map_cons]

/-! ### `netif_loop_output` -/

/-- The counter does not matter for the queue. -/
theorem reserve_frame {clen : ℕ} (hres : reserve maxPbufs s clen = some s') :
    s' = { s with loopCntCurrent := s'.loopCntCurrent } := by
  rw [reserve] at hres
  split_ifs at hres <;> cases hres <;> rfl

/-- A fresh pbuf that is linked behind the queue. -/
theorem Queued.link {a : ℕ} {v : Pbuf} (hq : Queued s xs) (ha : a ∉ xs.map Prod.fst)
    (hnew : h.lookup a = some ⟨v, none⟩) (hheap : ∀ b, b ≠ a → h.lookup b = s.heap.lookup b)
    (hv : v.len = v.totLen) (hlink : ({ s with heap := h } : LoopNetif).link a a = some s') :
    Queued s' (xs ++ [(a, v)]) ∧ s'.loopCntCurrent = s.loopCntCurrent := by
  have hlinks : h.Links s.loopFirst xs none :=
    hq.links.frame fun b hb ↦ hheap b fun hba ↦ ha (hba ▸ hb)
  have hwhole : ∀ x ∈ xs ++ [(a, v)], x.2.len = x.2.totLen := by
    intro x hx
    rcases List.mem_append.1 hx with hx | hx
    · exact hq.whole x hx
    · rw [List.mem_singleton.1 hx]
      exact hv
  rcases xs.eq_nil_or_concat' with rfl | ⟨ys, ⟨l, w⟩, rfl⟩
  · have hfirst : s.loopFirst = none := hq.links
    simp only [LoopNetif.link, hfirst] at hlink
    cases hlink
    exact ⟨⟨⟨rfl, none, hnew, rfl⟩, rfl, hwhole⟩, rfl⟩
  · have hlast : s.loopLast = some l := by
      rw [hq.last]
      simp
    obtain ⟨b, hfirst⟩ : ∃ b, s.loopFirst = some b := by
      cases ys with
      | nil => exact ⟨_, hlinks.1⟩
      | cons y ys => exact ⟨_, hlinks.1⟩
    simp only [LoopNetif.link, hfirst, hlast, setNext, hlinks.lookup_last, Option.map_some] at hlink
    cases hlink
    refine ⟨⟨?_, by simp, hwhole⟩, rfl⟩
    have := hlinks.concat hnew ha
    rwa [hfirst] at this

/-- **`netif_loop_output`**: without memory, or above the limit, nothing happens; else a copy of the
packet is the last on the queue. -/
theorem Queued.output (hq : Queued s xs)
    (hout : s.netifLoopOutput maxPbufs p mem = some (e, s')) :
    (e ≠ .ok ∧ s' = s) ∨ (e = .ok ∧ (∃ a, Queued s' (xs ++
      [(a, ⟨pbufBytes p.pbufs, (pbufBytes p.pbufs).length⟩)])) ∧
      ∃ t, reserve maxPbufs s 1 = some t ∧ s'.loopCntCurrent = t.loopCntCurrent) := by
  rw [netifLoopOutput.eq_def] at hout
  cases mem with
  | none =>
    cases hout
    exact .inl ⟨by decide, rfl⟩
  | some mem =>
    obtain ⟨h, halloc, hout⟩ := Option.bind_eq_some_iff.1 hout
    rw [pbufAlloc] at halloc
    split_ifs at halloc with hfresh
    obtain rfl := Option.some.inj halloc
    rw [p.totals.totLen_eq] at hout
    set n := (pbufBytes p.pbufs).length with hn
    set v : Pbuf := ⟨(List.range n).map mem.junk, n⟩ with hv
    have hchain : chain (s.heap.insert mem.addr ⟨v, none⟩) (some mem.addr) = [(mem.addr, v)] :=
      chain_eq ⟨rfl, none, Finmap.lookup_insert _, rfl⟩
    have hclen : pbufClen [v] = 1 := rfl
    simp only [hchain, List.map_cons, List.map_nil, hclen] at hout
    cases hres : reserve maxPbufs s 1 with
    | none =>
      rw [hres] at hout
      cases hout
      exact .inl ⟨by decide, rfl⟩
    | some t =>
      rw [hres] at hout
      obtain ⟨copy, hcopy, hout⟩ := Option.bind_eq_some_iff.1 hout
      obtain rfl := p.totals.copy (by simp [hv, Pbuf.len, ← hn]) hcopy
      simp only [List.zip_cons_cons, List.zip_nil_left, List.foldl_cons, List.foldl_nil,
        List.getLast?_singleton, Option.bind_some] at hout
      obtain ⟨u, hlink, heq⟩ := Option.map_eq_some_iff.1 hout
      cases heq
      have htq : Queued t xs := by
        rw [reserve_frame hres]
        exact ⟨hq.links, hq.last, hq.whole⟩
      have hheap : t.heap = s.heap := by rw [reserve_frame hres]
      have hnotin : mem.addr ∉ xs.map Prod.fst := fun ha ↦ hfresh (hq.links.mem_heap ha)
      obtain ⟨hqueued, hcnt⟩ := htq.link hnotin
        (by rw [Finmap.lookup_insert, Finmap.lookup_insert]; rfl)
        (fun b hb ↦ by
          rw [Finmap.lookup_insert_of_ne _ hb, Finmap.lookup_insert_of_ne _ hb, hheap]) rfl hlink
      exact .inr ⟨rfl, ⟨mem.addr, hqueued⟩, t, rfl, hcnt⟩

/-! ### `netif_poll` -/

theorem release_frame {clen : ℕ} (hrel : release maxPbufs s clen = some s') :
    s' = { s with loopCntCurrent := s'.loopCntCurrent } := by
  rw [release] at hrel
  split_ifs at hrel <;> cases hrel <;> rfl

/-- The pointers, when the first packet is taken: the queue is empty, or begins at the next one. -/
theorem pop_head {a : ℕ} {v : Pbuf} {r : Option ℕ} (ha : a ∉ xs.map Prod.fst)
    (hlast : s.loopLast = ((a, v) :: xs).getLast?.map Prod.fst) (hxs : h.Links r xs none)
    (hpop : s.pop a r = some s') :
    s'.heap = s.heap ∧ s'.loopFirst = r ∧ s'.loopLast = xs.getLast?.map Prod.fst ∧
      s'.loopCntCurrent = s.loopCntCurrent := by
  rw [pop, hlast] at hpop
  cases xs with
  | nil =>
    rw [if_pos (by rfl)] at hpop
    cases hpop
    exact ⟨rfl, (hxs : r = none).symm, rfl, rfl⟩
  | cons x xs =>
    rw [List.getLast?_cons_cons] at hpop hlast
    have hne : ¬ some a = (x :: xs).getLast?.map Prod.fst := by
      intro heq
      obtain ⟨z, hz, hza⟩ := Option.map_eq_some_iff.1 heq.symm
      exact ha (hza ▸ List.mem_map_of_mem (List.mem_of_getLast? hz))
    rw [if_neg hne] at hpop
    split_ifs at hpop
    cases hpop
    exact ⟨rfl, rfl, rfl, rfl⟩

/-- **A turn of `netif_poll`** takes the first packet off the queue. -/
theorem Queued.poll {o : Option (List Pbuf)} (hq : Queued s xs)
    (hpoll : s.netifPoll maxPbufs = some (o, s')) :
    (xs = [] ∧ o = none ∧ s' = s) ∨ ∃ a v ys, xs = (a, v) :: ys ∧ o = some [v] ∧ Queued s' ys ∧
      ∃ t, release maxPbufs s (pbufClen (xs.map Prod.snd)) = some t ∧
        s'.loopCntCurrent = t.loopCntCurrent := by
  cases xs with
  | nil =>
    have hfirst : s.loopFirst = none := hq.links
    rw [netifPoll, hfirst] at hpoll
    cases hpoll
    exact .inl ⟨rfl, rfl, rfl⟩
  | cons x ys =>
    obtain ⟨a, v⟩ := x
    right
    have hnd := hq.links.nodup
    rw [List.map_cons, List.nodup_cons] at hnd
    obtain ⟨hfirst, r, hr, hys⟩ := hq.links
    rw [netifPoll, hfirst] at hpoll
    obtain ⟨t, hrel, hpoll⟩ := Option.bind_eq_some_iff.1 hpoll
    have ht := release_frame hrel
    rw [hq.queue_eq] at hrel
    have hheap : t.heap = s.heap := by rw [ht]
    have hlast : t.loopLast = (((a, v) :: ys).getLast?).map Prod.fst := by
      rw [ht]
      exact hq.last
    obtain ⟨n, hn⟩ : ∃ n, t.heap.keys.card = n + 1 := by
      have := hq.links.length_le
      rw [List.length_cons, ← hheap] at this
      exact ⟨t.heap.keys.card - 1, by omega⟩
    have hend : inEnd t.heap t.heap.keys.card a = some a := by
      rw [hn, inEnd, hheap, hr, Option.bind_some, if_pos (hq.whole _ List.mem_cons_self)]
    rw [hend, Option.bind_some, hheap, hr, Option.bind_some] at hpoll
    obtain ⟨u, hu, hpoll⟩ := Option.bind_eq_some_iff.1 hpoll
    obtain ⟨h, hnext, hpoll⟩ := Option.bind_eq_some_iff.1 hpoll
    obtain ⟨h', hfree, heq⟩ := Option.map_eq_some_iff.1 hpoll
    cases heq
    obtain ⟨huheap, hufirst, hulast, hucnt⟩ := pop_head hnd.1 hlast hys hu
    rw [hheap] at huheap
    rw [setNext, huheap, hr, Option.map_some] at hnext
    obtain rfl := Option.some.inj hnext
    have hone : CellHeap.Links (s.heap.insert a ⟨v, none⟩) (some a) [(a, v)] none :=
      ⟨rfl, none, Finmap.lookup_insert _, rfl⟩
    obtain ⟨h'', hfree', hlookup⟩ := hone.freeAll_eq hone.length_le
    obtain rfl := Option.some.inj (hfree.symm.trans hfree')
    refine ⟨a, v, ys, rfl, by rw [chain_eq hone]; rfl, ⟨?_, hulast, fun y hy ↦
      hq.whole y (List.mem_cons_of_mem _ hy)⟩, t, hrel, hucnt⟩
    have hframe : CellHeap.Links h' r ys none := by
      refine hys.frame fun b hb ↦ ?_
      have hba : b ≠ a := fun hba ↦ hnd.1 (hba ▸ hb)
      rw [hlookup, if_neg (by simpa using hba), Finmap.lookup_insert_of_ne _ hba]
    rw [← hufirst] at hframe
    exact hframe

end LoopNetif

/-! ### Delivery -/

namespace LoopRun

open LoopNetif

variable {maxPbufs : ℕ} {ls : List LoopCall} {r r' : LoopRun}

/-- **What was accepted** is what was passed on, and what waits on the queue, packet by packet. -/
structure Exact (r : LoopRun) (xs : List (ℕ × Pbuf)) : Prop where
  queued : r.netif.Queued xs
  accepted : r.accepted = (r.input ++ xs.map fun x ↦ [x.2]).map pbufBytes
  totals : ∀ q ∈ r.input, Totals q

theorem exact_init : Exact init [] := ⟨queued_init, rfl, nofun⟩

theorem Exact.step {xs : List (ℕ × Pbuf)} {l : LoopCall} (hr : Exact r xs)
    (hstep : step maxPbufs l r = some r') : ∃ ys, Exact r' ys := by
  cases l with
  | output p mem =>
    obtain ⟨⟨e, t⟩, hout, rfl⟩ := Option.map_eq_some_iff.1 hstep
    rcases hr.queued.output hout with ⟨he, rfl⟩ | ⟨rfl, ⟨a, hq⟩, -⟩
    · exact ⟨xs, hr.queued, by rw [if_neg he, hr.accepted], hr.totals⟩
    · refine ⟨_, hq, ?_, hr.totals⟩
      rw [if_pos rfl, hr.accepted]
      simp
  | poll =>
    obtain ⟨⟨o, t⟩, hpoll, rfl⟩ := Option.map_eq_some_iff.1 hstep
    rcases hr.queued.poll hpoll with ⟨rfl, rfl, rfl⟩ | ⟨a, v, ys, rfl, rfl, hq, -⟩
    · exact ⟨[], hr.queued, by simpa using hr.accepted, by simpa using hr.totals⟩
    · refine ⟨ys, hq, ?_, fun q hmem ↦ ?_⟩
      · rw [hr.accepted]
        simp
      · rcases List.mem_append.1 hmem with hmem | hmem
        · exact hr.totals q hmem
        · obtain rfl := List.mem_singleton.1 hmem
          have hv := hr.queued.whole _ List.mem_cons_self
          exact ⟨by simpa [Pbuf.len] using hv.symm, trivial⟩

theorem exists_exact (hrun : runLabels (step maxPbufs) ls init = some r) : ∃ xs, Exact r xs :=
  runLabels_invariant (I := fun r ↦ ∃ xs, Exact r xs) ⟨[], exact_init⟩
    (fun _ _ _ ⟨_, ht⟩ hstep ↦ ht.step hstep) hrun

/-- **Loopback delivery is exact.** The packets accepted are those passed to `ip_input`, and behind them
those on the queue, each once and in order; and the queue is what lies between `loop_first` and
`loop_last`. -/
theorem loopback_exact (hrun : runLabels (step maxPbufs) ls init = some r) :
    r.accepted = (r.input ++ packets r.netif.queue).map pbufBytes ∧
    (∀ q ∈ r.input ++ packets r.netif.queue, Totals q) ∧
    ∃ xs, r.netif.heap.Links r.netif.loopFirst xs none ∧
      r.netif.loopLast = xs.getLast?.map Prod.fst ∧ r.netif.queue = xs.map Prod.snd := by
  obtain ⟨xs, hr⟩ := exists_exact hrun
  have hqueue := hr.queued.queue_eq
  have hpackets : packets r.netif.queue = xs.map fun x ↦ [x.2] := by
    rw [hqueue, packets_whole, List.map_map]
    · rfl
    · intro p hp
      obtain ⟨x, hx, rfl⟩ := List.mem_map.1 hp
      exact hr.queued.whole x hx
  rw [hpackets]
  refine ⟨hr.accepted, fun q hq ↦ ?_, xs, hr.queued.links, hr.queued.last, hqueue⟩
  rcases List.mem_append.1 hq with hq | hq
  · exact hr.totals q hq
  · obtain ⟨x, hx, rfl⟩ := List.mem_map.1 hq
    exact ⟨by simpa [Pbuf.len] using (hr.queued.whole x hx).symm, trivial⟩

/-! ### The counter -/

/-- A turn of `netif_poll` finds nothing, or counts one pbuf: no packet waits behind the first. -/
def PollsAlone : LoopCall → LoopRun → Prop
  | .output _ _, _ => True
  | .poll, r => r.netif.loopFirst = none ∨ pbufClen r.netif.queue = 1

instance : ∀ l r, Decidable (PollsAlone l r)
  | .output _ _, _ => inferInstanceAs (Decidable True)
  | .poll, _ => inferInstanceAs (Decidable (_ ∨ _))

/-- The counter counts the queue. -/
structure Counted (maxPbufs : ℕ) (r : LoopRun) (xs : List (ℕ × Pbuf)) : Prop where
  queued : r.netif.Queued xs
  count : r.netif.loopCntCurrent = xs.length
  le : xs.length ≤ maxPbufs

theorem Counted.step {xs : List (ℕ × Pbuf)} {l : LoopCall} (hpos : 0 < maxPbufs)
    (hlt : maxPbufs < 2 ^ 16) (hr : Counted maxPbufs r xs) (halone : PollsAlone l r)
    (hstep : step maxPbufs l r = some r') : ∃ ys, Counted maxPbufs r' ys := by
  have hcount := hr.count
  have hle := hr.le
  cases l with
  | output p mem =>
    obtain ⟨⟨e, t⟩, hout, rfl⟩ := Option.map_eq_some_iff.1 hstep
    rcases hr.queued.output hout with ⟨-, rfl⟩ | ⟨-, ⟨a, hq⟩, u, hres, hu⟩
    · exact ⟨xs, hr.queued, hr.count, hr.le⟩
    · rw [reserve, if_neg hpos.ne'] at hres
      split_ifs at hres with hfull
      cases hres
      refine ⟨_, hq, ?_, ?_⟩
      · rw [hu, List.length_append, List.length_singleton]
        dsimp only
        omega
      · rw [List.length_append, List.length_singleton]
        omega
  | poll =>
    obtain ⟨⟨o, t⟩, hpoll, rfl⟩ := Option.map_eq_some_iff.1 hstep
    rcases hr.queued.poll hpoll with ⟨rfl, -, rfl⟩ | ⟨a, v, ys, rfl, -, hq, u, hrel, hu⟩
    · exact ⟨[], hr.queued, hr.count, hr.le⟩
    · have hone : pbufClen (((a, v) :: ys).map Prod.snd) = 1 := by
        rcases halone with hnone | hone
        · rw [hr.queued.links.1] at hnone
          cases hnone
        · rwa [hr.queued.queue_eq] at hone
      rw [hone, release, if_neg hpos.ne'] at hrel
      split_ifs at hrel
      cases hrel
      rw [List.length_cons] at hcount hle
      refine ⟨ys, hq, ?_, by omega⟩
      rw [hu]
      dsimp only
      omega

/-- **The counter is right** in every run where `netif_poll` only finds packets with nothing behind them:
it counts the pbufs on the queue, stays below the limit, and what is taken off it next is there. -/
theorem loop_cnt_exact (hpos : 0 < maxPbufs) (hlt : maxPbufs < 2 ^ 16)
    (hrun : runLabels (guardStep PollsAlone (step maxPbufs)) ls init = some r) :
    r.netif.loopCntCurrent = r.netif.queue.length ∧ r.netif.loopCntCurrent ≤ maxPbufs ∧
      pbufClen r.netif.queue ≤ r.netif.loopCntCurrent := by
  obtain ⟨xs, hr⟩ := runLabels_invariant (I := fun r ↦ ∃ xs, Counted maxPbufs r xs)
    ⟨[], queued_init, rfl, Nat.zero_le _⟩
    (fun _ _ _ ⟨_, ht⟩ hstep ↦
      have hstep := guardStep_eq_some.1 hstep
      ht.step hpos hlt hstep.1 hstep.2) hrun
  have hlen : r.netif.queue.length = xs.length := by
    rw [hr.queued.queue_eq, List.length_map]
  rw [hlen, hr.count]
  refine ⟨rfl, hr.le, ?_⟩
  rw [pbufClen, hlen]
  exact Nat.mod_le _ _

/-! ### Two packets -/

/-- A packet of one byte in one pbuf. -/
def smallPacket (b : BitVec 8) : LoopPacket := 
  ⟨[⟨[b], 1⟩], List.cons_ne_nil _ _, ⟨rfl, trivial⟩, by simp⟩

/-- Memory at `n`. -/
def memAt (n : ℕ) : Option LoopMem := some ⟨n, fun _ ↦ 0⟩

/-- Two packets are sent, and one is polled. -/
theorem loopback_exact_two : ∃ r, runLabels (step 0)
      [.output (smallPacket 1) (memAt 0), .output (smallPacket 2) (memAt 1), .poll] init = some r ∧
    r.input.map pbufBytes = [[1]] ∧ r.netif.queue = [⟨[2], 1⟩] ∧
    r.accepted = (r.input ++ packets r.netif.queue).map pbufBytes := by
  refine exists_run_of_observe (fun r ↦ (r.input.map pbufBytes, r.netif.queue))
    ([[1]], [⟨[2], 1⟩]) (by decide) fun r hr hobs ↦ ?_
  obtain ⟨hinput, hqueue⟩ := Prod.mk.inj hobs
  exact ⟨hinput, hqueue, (loopback_exact hr).1⟩

/-- A packet is sent and polled, and then another one. -/
theorem loop_cnt_exact_turns : ∃ r, runLabels (guardStep PollsAlone (step 8))
      [.output (smallPacket 1) (memAt 0), .poll, .output (smallPacket 2) (memAt 0)] init = some r ∧
    r.netif.queue.length = 1 ∧ r.netif.loopCntCurrent = r.netif.queue.length := by
  refine exists_run_of_observe (fun r ↦ r.netif.queue.length) 1 (by decide)
    fun r hr hobs ↦ ?_
  exact ⟨hobs, (loop_cnt_exact (by decide) (by decide) hr).1⟩

/-- **The counter drifts**: of two packets the first takes the count of both with it, and behind the
second it has wrapped, far above the limit. -/
theorem loop_cnt_wraps :
    (∃ r, runLabels (step 8) [.output (smallPacket 1) (memAt 0), .output (smallPacket 2) (memAt 1),
      .poll] init = some r ∧ r.netif.queue.length = 1 ∧ r.netif.loopCntCurrent = 0) ∧
    ∃ r, runLabels (step 8) [.output (smallPacket 1) (memAt 0), .output (smallPacket 2) (memAt 1),
      .poll, .poll] init = some r ∧ r.netif.queue.length = 0 ∧ r.netif.loopCntCurrent = 65535 :=
  ⟨exists_run_of_observe (fun r ↦ (r.netif.queue.length, r.netif.loopCntCurrent)) (1, 0)
      (by decide) fun _ _ hobs ↦ Prod.mk.inj hobs,
    exists_run_of_observe (fun r ↦ (r.netif.queue.length, r.netif.loopCntCurrent)) (0, 65535)
      (by decide) fun _ _ hobs ↦ Prod.mk.inj hobs⟩

end LoopRun

end Lwip.Netif
