import LwipPoc.Core.PbufFree
import LwipPoc.Core.Mem.FirstFit

/-!
# What `pbuf_alloc` returns

* **From the pool** a chain is built pbuf by pbuf, with room for headers in the first one only. `pbufAlloc_pool`: the
  lengths add up to what was asked for, every payload is inside of its own element, and totals and reference counts are
  right; and if the pool runs dry, all that was taken is back in it.
* **From the heap** the pbuf and its payload are one block (`pbufAllocRam`). Its size is a `u16_t`, and the sum may be
  larger: then the block is too small (`pbufAllocRam_iff`).
-/

namespace Lwip.Core

namespace PbufHeap

variable {s s' u : PbufHeap} {handles : PbufAddr → ℕ} {a p q r : PbufAddr} {as qs mem : List PbufAddr}
  {rem left length : ℕ} {layer : PbufLayer}

/-! ### The tail of a chain from the pool -/

/-- The total of the pbuf that is next, or what is left if there is none. -/
def behind (s : PbufHeap) (left : ℕ) : Option PbufAddr → ℕ
  | none => left
  | some a => (s.pbuf a).totLen

/-- **The tail `qs` of a chain was laid out** behind `r`, for `rem` bytes of which `left` are still to come. -/
structure Laid (s u : PbufHeap) (r : PbufAddr) (qs : List PbufAddr) (rem left : ℕ) : Prop where
  live : u.live = s.live ∪ qs.toFinset
  allocated : u.allocated = s.allocated ++ qs
  returned : u.returned = s.returned
  frame : ∀ b, b ≠ r → b ∉ qs → u.pbuf b = s.pbuf b
  last : u.pbuf r = { s.pbuf r with next := qs.head? }
  chain : ∀ handles, (u.graph handles).Chain qs.head? qs
  node : ∀ q ∈ qs, u.pbuf q = { poolNode (u.pbuf q).totLen with next := (u.pbuf q).next }
  bound : ∀ q ∈ qs, (u.pbuf q).totLen ≤ rem
  total : ∀ q ∈ qs, (u.pbuf q).totLen = (u.pbuf q).len + u.behind left (u.pbuf q).next
  head : u.behind left qs.head? = rem
  sum : (qs.map fun q ↦ (u.pbuf q).len).sum + left = rem

theorem laid_nil (hnext : (s.pbuf r).next = none) (rem : ℕ) : Laid s s r [] rem rem where
  live := by simp
  allocated := (List.append_nil _).symm
  returned := rfl
  frame _ _ _ := rfl
  last := by rw [List.head?_nil, ← hnext]
  chain _ := rfl
  node _ h := nomatch h
  bound _ h := nomatch h
  total _ h := nomatch h
  head := rfl
  sum := by simp

/-- One more pbuf in front of a tail. -/
theorem Laid.cons (hl : Laid ((s.obtain q (poolNode rem)).setNext r (some q)) u q qs
      (rem - min rem pbufPoolBufsizeAligned) left)
    (hrq : r ≠ q) (hr : r ∉ qs) : Laid s u r (q :: qs) rem left := by
  have hnew : ((s.obtain q (poolNode rem)).setNext r (some q)).pbuf q = poolNode rem := by
    rw [setNext_pbuf_of_ne hrq.symm]
    exact Function.update_self _ _ _
  have hq := hl.last
  rw [hnew] at hq
  have htot : (u.pbuf q).totLen = rem := by rw [hq]; rfl
  have hnext : (u.pbuf q).next = qs.head? := by rw [hq]
  have hlen : (u.pbuf q).len = min rem pbufPoolBufsizeAligned := by rw [hq]; rfl
  refine ⟨?_, ?_, hl.returned, fun b hb hbs ↦ ?_, ?_, fun handles ↦ ⟨rfl, ?_, ?_⟩, ?_, ?_, ?_, htot, ?_⟩
  · rw [hl.live, List.toFinset_cons, Finset.union_insert, ← Finset.insert_union]
    rfl
  · rw [hl.allocated]
    exact List.append_assoc _ _ _
  · rw [List.mem_cons, not_or] at hbs
    rw [hl.frame b hbs.1 hbs.2, setNext_pbuf_of_ne hb]
    exact Function.update_of_ne hbs.1 _ _
  · have hold : (s.obtain q (poolNode rem)).pbuf r = s.pbuf r := Function.update_of_ne hrq _ _
    rw [hl.frame r hrq hr, setNext_pbuf, if_pos rfl, hold]
    rfl
  · show q ∈ u.live
    rw [hl.live]
    exact Finset.mem_union_left _ (Finset.mem_insert_self _ _)
  · show (u.graph handles).Chain (u.pbuf q).next qs
    rw [hnext]
    exact hl.chain handles
  · refine List.forall_mem_cons.2 ⟨?_, hl.node⟩
    rw [htot, hnext]
    exact hq
  · refine List.forall_mem_cons.2 ⟨Nat.le_of_eq htot, fun b hb ↦ Nat.le_trans (hl.bound b hb) (Nat.sub_le _ _)⟩
  · refine List.forall_mem_cons.2 ⟨?_, hl.total⟩
    rw [htot, hlen, hnext, hl.head]
    omega
  · have hsum := hl.sum
    rw [List.map_cons, List.sum_cons, hlen]
    omega

/-- **The loop** lays out the tail, and returns the chain, or frees it if the pool runs dry. -/
theorem pbufAllocTail_laid (hmem : Fresh s .pool mem) (hr : r ∈ s.live) (hnext : (s.pbuf r).next = none)
    (hrem : rem < 0xffff) : ∃ qs u left, Laid s u r qs rem left ∧ qs <+: mem ∧
      (left = 0 ∧ pbufAllocTail p r rem mem s =
          some (some p, u.set p { u.pbuf p with ref := 1, isCustom := false }) ∨
        qs = mem ∧ pbufAllocTail p r rem mem s = (u.pbufFree p).map fun x ↦ (none, x.2)) := by
  induction mem generalizing s r rem with
  | nil =>
    refine ⟨[], s, rem, laid_nil hnext rem, List.prefix_rfl, ?_⟩
    rw [pbufAllocTail]
    by_cases hzero : rem = 0
    · rw [if_pos hzero]
      exact Or.inl ⟨hzero, rfl⟩
    · rw [if_neg hzero]
      exact Or.inr ⟨rfl, rfl⟩
  | cons q mem ih =>
    by_cases hzero : rem = 0
    · refine ⟨[], s, rem, laid_nil hnext rem, List.nil_prefix, Or.inl ⟨hzero, ?_⟩⟩
      rw [pbufAllocTail, if_pos hzero]
    · obtain ⟨hq, -⟩ := hmem.2 q List.mem_cons_self
      have hrq : r ≠ q := ne_of_mem_of_not_mem hr hq
      have hnew : ((s.obtain q (poolNode rem)).setNext r (some q)).pbuf q = poolNode rem := by
        rw [setNext_pbuf_of_ne hrq.symm]
        exact Function.update_self _ _ _
      have hround : pbufAllocTail p r rem (q :: mem) s = pbufAllocTail p q (rem - min rem pbufPoolBufsizeAligned) mem
          ((s.obtain q (poolNode rem)).setNext r (some q)) := by
        rw [pbufAllocTail, if_neg hzero]
        simp only
        rw [if_pos hrem]
        rfl
      obtain ⟨qs, u, left, hl, hpre, hcases⟩ := ih (s := (s.obtain q (poolNode rem)).setNext r (some q)) (r := q)
        (hmem.obtain (poolNode rem)) (Finset.mem_insert_self _ _) (by rw [hnew]; rfl)
        (Nat.lt_of_le_of_lt (Nat.sub_le _ _) hrem)
      have hr' : r ∉ qs := fun h ↦ (hmem.2 r (List.mem_cons_of_mem _ (hpre.subset h))).1 hr
      refine ⟨q :: qs, u, left, hl.cons hrq hr', List.cons_prefix_cons.2 ⟨rfl, hpre⟩, ?_⟩
      rw [hround]
      exact hcases.imp_right fun h ↦ ⟨congrArg _ h.1, h.2⟩

/-! ### Chains from the pool -/

/-- **A chain as `pbuf_alloc` has to return it**: its lengths add up, every payload lies in its own element of the pool,
the totals are right, and every pbuf is referenced once. -/
structure PoolChain (s : PbufHeap) (as : List PbufAddr) (length : ℕ) : Prop where
  chain : ∀ handles, (s.graph handles).Chain as.head? as
  sum : (as.map fun a ↦ (s.pbuf a).len).sum = length
  inside : ∀ a ∈ as, (sizeofStructPbuf : ℤ) ≤ (s.pbuf a).payload ∧
    (s.pbuf a).payload + (s.pbuf a).len ≤ sizeofStructPbuf + pbufPoolBufsizeAligned
  totals : ∀ a ∈ as, s.TotalAt a
  refs : ∀ a ∈ as, (s.pbuf a).ref = 1

/-- The first pbuf of a chain from the pool. -/
def headNode (s : PbufHeap) (layer : PbufLayer) (length : ℕ) (p : PbufAddr) : PbufNode :=
  ⟨none, sizeofStructPbuf + memAlignSize layer.offset, length,
    min length (pbufPoolBufsizeAligned - memAlignSize layer.offset), .pool, (s.pbuf p).isCustom, 1⟩

/-- There is room for the headers of every layer, and for more. -/
theorem memAlignSize_offset (layer : PbufLayer) : memAlignSize layer.offset ≤ 56 := by cases layer <;> decide

/-- **The chain is complete**: the first pbuf, which was taken before, and the tail. -/
theorem Laid.poolChain (hl : Laid (s.obtain p (headNode s layer length p)) u p qs
      (length - min length (pbufPoolBufsizeAligned - memAlignSize layer.offset)) 0) (hp : p ∉ qs)
    (hlength : length < 2 ^ 16) : PoolChain (u.set p { u.pbuf p with ref := 1, isCustom := false }) (p :: qs) length := by
  have hnew : (s.obtain p (headNode s layer length p)).pbuf p = headNode s layer length p := Function.update_self _ _ _
  have hhead := hl.last
  rw [hnew] at hhead
  have hself : (u.set p { u.pbuf p with ref := 1, isCustom := false }).pbuf p =
      { u.pbuf p with ref := 1, isCustom := false } := Function.update_self _ _ _
  have hother : ∀ q ∈ qs, (u.set p { u.pbuf p with ref := 1, isCustom := false }).pbuf q = u.pbuf q := fun q hq ↦
    Function.update_of_ne (ne_of_mem_of_not_mem hq hp) _ _
  have htot : ∀ o, (u.set p { u.pbuf p with ref := 1, isCustom := false }).totalOf o = u.behind 0 o := by
    rintro (_ | a)
    · rfl
    · show (Function.update u.pbuf p _ a).totLen = (u.pbuf a).totLen
      rcases eq_or_ne a p with rfl | ha
      · rw [Function.update_self]
      · rw [Function.update_of_ne ha]
  have hplen : (u.pbuf p).len = min length (pbufPoolBufsizeAligned - memAlignSize layer.offset) := by rw [hhead]; rfl
  have hpnext : (u.pbuf p).next = qs.head? := by rw [hhead]
  have hptot : (u.pbuf p).totLen = length := by rw [hhead]; rfl
  have hppay : (u.pbuf p).payload = sizeofStructPbuf + memAlignSize layer.offset := by rw [hhead]; rfl
  have hoffset := memAlignSize_offset layer
  refine ⟨fun handles ↦ ⟨rfl, ?_, ?_⟩, ?_, ?_, ?_, ?_⟩
  · show p ∈ u.live
    rw [hl.live]
    exact Finset.mem_union_left _ (Finset.mem_insert_self _ _)
  · show SharedChains.Chain _ ((u.set p _).pbuf p).next qs
    rw [hself]
    show SharedChains.Chain _ (u.pbuf p).next qs
    rw [hpnext]
    exact (hl.chain handles).frame (fun q hq ↦ (hl.chain handles).mem_live hq)
      fun q hq ↦ congrArg PbufNode.next (hother q hq)
  · have hrest : (qs.map fun a ↦ ((u.set p { u.pbuf p with ref := 1, isCustom := false }).pbuf a).len) =
        qs.map fun q ↦ (u.pbuf q).len := List.map_congr_left fun q hq ↦ by rw [hother q hq]
    have hsum := hl.sum
    rw [List.map_cons, List.sum_cons, hself, hrest, hplen]
    omega
  · refine List.forall_mem_cons.2 ⟨?_, fun q hq ↦ ?_⟩
    · rw [hself]
      show (sizeofStructPbuf : ℤ) ≤ (u.pbuf p).payload ∧ (u.pbuf p).payload + (u.pbuf p).len ≤ _
      rw [hppay, hplen]
      have hsize : pbufPoolBufsizeAligned = 592 := rfl
      omega
    · rw [hother q hq, hl.node q hq]
      show (sizeofStructPbuf : ℤ) ≤ (sizeofStructPbuf : ℤ) ∧
        (sizeofStructPbuf : ℤ) + (min (u.pbuf q).totLen pbufPoolBufsizeAligned : ℕ) ≤ _
      omega
  · refine List.forall_mem_cons.2 ⟨?_, fun q hq ↦ ?_⟩
    · rw [TotalAt, hself]
      show (u.pbuf p).totLen = (u.pbuf p).len + totalOf _ (u.pbuf p).next ∧ (u.pbuf p).totLen < 2 ^ 16
      rw [htot, hpnext, hl.head, hptot, hplen]
      omega
    · have hbound := hl.bound q hq
      rw [TotalAt, hother q hq, htot]
      exact ⟨hl.total q hq, by omega⟩
  · refine List.forall_mem_cons.2 ⟨by rw [hself], fun q hq ↦ ?_⟩
    rw [hother q hq, hl.node q hq]
    rfl

/-- **`memp_tab[MEMP_PBUF_POOL]` after a call** that found `tab` there: the elements given back to the pool, the last one
first, and those that were not taken. -/
def poolAfter (s s' : PbufHeap) (tab : List PbufAddr) : List PbufAddr :=
  (((s'.returned.drop s.returned.length).filter fun x ↦ x.2 = .pool).map Prod.fst).reverse ++
    tab.drop (s'.allocated.length - s.allocated.length)

/-- **The pool has run dry**: the pbufs that were taken are freed, and all of them are back. -/
theorem Laid.freed {n : PbufNode} (hl : Laid (s.obtain p n) u p mem rem left) (hmem : Fresh s .pool (p :: mem))
    (hn : n.ref = 1 ∧ n.home = .pool) : ∃ k s', u.pbufFree p = some (k, s') ∧ s'.live = s.live ∧
      (poolAfter s s' (p :: mem)).Perm (p :: mem) := by
  obtain ⟨hnodup, hfresh⟩ := hmem
  have hp : p ∉ mem := (List.nodup_cons.1 hnodup).1
  have hhead := hl.last
  rw [show (s.obtain p n).pbuf p = n from Function.update_self _ _ _] at hhead
  have hnode : ∀ a ∈ p :: mem, (u.pbuf a).ref = 1 ∧ (u.pbuf a).home = .pool := by
    refine List.forall_mem_cons.2 ⟨?_, fun q hq ↦ ?_⟩
    · rw [hhead]
      exact hn
    · rw [hl.node q hq]
      exact ⟨rfl, rfl⟩
  have hchain : (u.graph fun _ ↦ 0).Chain (some p) (p :: mem) := by
    refine ⟨rfl, ?_, ?_⟩
    · show p ∈ u.live
      rw [hl.live]
      exact Finset.mem_union_left _ (Finset.mem_insert_self _ _)
    · show SharedChains.Chain _ (u.pbuf p).next mem
      rw [hhead]
      exact hl.chain _
  have halone : u.alone (p :: mem) = p :: mem := List.takeWhile_eq_self_iff.2 fun a ha ↦ decide_eq_true (hnode a ha).1
  obtain ⟨s', hs', hfreed⟩ := pbufFree_chain hchain fun a ha ↦ by rw [(hnode a ha).1]; exact Nat.one_pos
  refine ⟨_, s', hs', ?_, ?_⟩
  · rw [hfreed.live, halone, hl.live]
    ext a
    rw [Finset.mem_sdiff, Finset.mem_union, List.mem_toFinset, List.mem_toFinset, List.mem_cons]
    show (a ∈ insert p s.live ∨ a ∈ mem) ∧ ¬ (a = p ∨ a ∈ mem) ↔ a ∈ s.live
    rw [Finset.mem_insert]
    constructor
    · rintro ⟨(rfl | ha) | ha, hno⟩
      · exact absurd (Or.inl rfl) hno
      · exact ha
      · exact absurd (Or.inr ha) hno
    · refine fun ha ↦ ⟨Or.inl (Or.inr ha), ?_⟩
      rintro (rfl | hmem)
      · exact (hfresh _ List.mem_cons_self).1 ha
      · exact (hfresh _ (List.mem_cons_of_mem _ hmem)).1 ha
  · have hreturned : s'.returned = s.returned ++ (p :: mem).map fun a ↦ (a, PbufHome.pool) := by
      rw [hfreed.returned, halone, hl.returned]
      exact congrArg _ (List.map_congr_left fun a ha ↦ by rw [(hnode a ha).2])
    have htaken : s'.allocated.length - s.allocated.length = (p :: mem).length := by
      rw [hfreed.allocated, hl.allocated]
      show ((s.allocated ++ [p]) ++ mem).length - s.allocated.length = _
      rw [List.length_append, List.length_append, List.length_singleton, List.length_cons]
      omega
    rw [poolAfter, hreturned, List.drop_left, htaken, List.drop_length, List.append_nil, List.filter_map, List.map_map]
    have hall : (p :: mem).filter ((fun x : PbufAddr × PbufHome ↦ decide (x.2 = .pool)) ∘ fun a ↦ (a, .pool)) = p :: mem :=
      List.filter_eq_self.2 fun _ _ ↦ rfl
    rw [hall]
    have hid : (p :: mem).map (Prod.fst ∘ fun a : PbufAddr ↦ (a, PbufHome.pool)) = p :: mem := List.map_id _
    rw [hid]
    exact List.reverse_perm _

/-- **`pbuf_alloc` from the pool.** -/
theorem Counted.pbufAlloc_of_pool {tab : List PbufAddr} (hc : Counted s handles) (hlength : length < 2 ^ 16)
    (htab : Fresh s .pool tab) : ∃ o s', s.pbufAlloc layer length .pool tab = some (o, s') ∧
      (∀ p ∈ o, ∃ as, as.head? = some p ∧ as <+: tab ∧ PoolChain s' as length ∧ s'.live = s.live ∪ as.toFinset) ∧
      (o = none → s'.live = s.live ∧ (poolAfter s s' tab).Perm tab) := by
  obtain _ | ⟨p, mem⟩ := tab
  · refine ⟨none, s, rfl, fun _ h ↦ (nomatch h), fun _ ↦ ⟨rfl, ?_⟩⟩
    simp [poolAfter]
  obtain ⟨hp, hhome⟩ := htab.2 p List.mem_cons_self
  have hcustom : (s.pbuf p).isCustom = false := hc.pool p hhome
  have hpm : p ∉ mem := (List.nodup_cons.1 htab.1).1
  have hnew : (s.obtain p (headNode s layer length p)).pbuf p = headNode s layer length p := Function.update_self _ _ _
  have hoffset := memAlignSize_offset layer
  have hsize : pbufPoolBufsizeAligned = 592 := rfl
  have hrem : length - min length (pbufPoolBufsizeAligned - memAlignSize layer.offset) < 0xffff := by omega
  obtain ⟨qs, u, left, hl, hpre, ⟨rfl, hcall⟩ | ⟨rfl, hcall⟩⟩ :=
    pbufAllocTail_laid (s := s.obtain p (headNode s layer length p)) (p := p) (htab.obtain _)
      (Finset.mem_insert_self _ _) (by rw [hnew]; rfl) hrem
  · refine ⟨_, _, hcall, ?_, fun h ↦ nomatch h⟩
    rintro _ ⟨⟩
    refine ⟨p :: qs, rfl, List.cons_prefix_cons.2 ⟨rfl, hpre⟩,
      hl.poolChain (fun h ↦ hpm (hpre.subset h)) hlength, ?_⟩
    show u.live = _
    rw [hl.live, List.toFinset_cons, Finset.union_insert, ← Finset.insert_union]
    rfl
  · have hn : (headNode s layer length p).ref = 1 ∧ (headNode s layer length p).home = .pool := by
      refine ⟨rfl, ?_⟩
      rw [PbufNode.home, headNode, hcustom]
      rfl
    obtain ⟨k, s', hs', hlive, hperm⟩ := hl.freed htab hn
    rw [hs'] at hcall
    exact ⟨none, s', hcall, fun _ h ↦ (nomatch h), fun _ ↦ ⟨hlive, hperm⟩⟩

/-! ### From the heap -/

/-- A pbuf from the heap. -/
def ramNode (layer : PbufLayer) (length : ℕ) : PbufNode :=
  ⟨none, memAlignSize (sizeofStructPbuf + layer.offset), length, length, .ram, false, 1⟩

/-- `pbuf_alloc` from the heap of `mem_malloc`: where the pbuf is, and its fields. -/
def pbufAllocRam (layer : PbufLayer) (length : ℕ) (h : MemHeap) : Option (Option (ℤ × PbufNode) × MemHeap) :=
  (h.memMalloc ((memAlignSize (sizeofStructPbuf + layer.offset) + memAlignSize length) % 2 ^ 16)).map fun r ↦
    (r.1.map fun p ↦ (p, ramNode layer length), r.2)

/-- The call returns, and the payload of a pbuf that it returns lies in its block, behind the pbuf. -/
def PayloadInside (r : Option (Option (ℤ × PbufNode) × MemHeap)) : Prop :=
  ∃ q h', r = some (q, h') ∧ ∀ x ∈ q, (sizeofStructPbuf : ℤ) ≤ x.2.payload ∧
    x.2.payload + x.2.len ≤ h'.dataSize x.1.toNat

/-- The pbuf and the headers of a layer. -/
theorem memAlignSize_header (layer : PbufLayer) : 24 ≤ memAlignSize (sizeofStructPbuf + layer.offset) ∧
    memAlignSize (sizeofStructPbuf + layer.offset) ≤ 80 ∧ memAlignSize (sizeofStructPbuf + layer.offset) % 4 = 0 := by
  cases layer <;> decide

/-- **`pbuf_alloc` from the heap.** -/
theorem payloadInside_iff {h : MemHeap} {bs : List Block} (hi : h.Inv bs) (layer : PbufLayer)
    (hlength : length < 2 ^ 16) : PayloadInside (pbufAllocRam layer length h) ↔
      memAlignSize (sizeofStructPbuf + layer.offset) + (length + 3) / 4 * 4 ≤ 2 ^ 16 ∨
        h.Full (bs.map Block.start)
          (memBlockSize ((memAlignSize (sizeofStructPbuf + layer.offset) + (length + 3) / 4 * 4) % 2 ^ 16)) := by
  have hpayload : (ramNode layer length).payload = memAlignSize (sizeofStructPbuf + layer.offset) := rfl
  have hlen : (ramNode layer length).len = length := rfl
  obtain ⟨hlow, hhigh, haligned⟩ := memAlignSize_header layer
  have hsizes := mem_sizes
  have hstruct : sizeofStructPbuf = 24 := rfl
  have hsize : (memAlignSize (sizeofStructPbuf + layer.offset) + memAlignSize length) % 2 ^ 16 =
      (memAlignSize (sizeofStructPbuf + layer.offset) + (length + 3) / 4 * 4) % 2 ^ 16 := by
    have hal : memAlignSize length = (length + 3) / 4 * 4 % 2 ^ 16 := by
      rw [memAlignSize, hsizes.2.2.2]
      rfl
    rw [hal, Nat.add_mod_mod]
  rw [pbufAllocRam, hsize, hi.full_iff]
  generalize memAlignSize (sizeofStructPbuf + layer.offset) = n at *
  rcases eq_or_ne ((n + (length + 3) / 4 * 4) % 2 ^ 16) 0 with hzero | hpos
  · rw [hzero]
    exact iff_of_true ⟨none, h, rfl, by simp⟩ (Or.inl (by omega))
  rcases hi.memMalloc_find hpos with ⟨hnone, h', hcall, -⟩ | ⟨b, h', bs', e, hfind, hcall, ha⟩
  · rw [hcall]
    exact iff_of_true ⟨none, h', rfl, by simp⟩ (Or.inr hnone)
  · obtain ⟨hle, hlt⟩ := ha.dataSize
    rw [hcall, hfind, or_iff_left (by simp), PayloadInside, Option.map_some]
    constructor
    · rintro ⟨q, h'', heq, hq⟩
      obtain ⟨rfl, rfl⟩ := Prod.mk.inj (Option.some.inj heq)
      have hroom := (hq _ rfl).2
      rw [hpayload, hlen] at hroom
      have hroom' : (n : ℤ) + (length : ℤ) ≤ (h'.dataSize (b.start + sizeofStructMem) : ℤ) := hroom
      omega
    · intro hmax
      refine ⟨_, h', rfl, fun x hx ↦ ?_⟩
      obtain rfl := Option.some.inj hx
      rw [hpayload, hlen, Int.toNat_natCast]
      rw [Nat.mod_eq_of_lt (by omega)] at hle
      have hround : n + (length + 3) / 4 * 4 ≤ 65532 := by omega
      have hblock := MemHeap.le_memBlockSize hround
      omega

end PbufHeap

open PbufHeap

/-- **When the payload of a pbuf from the heap lies in its block**, after every run of calls of the heap on live blocks:
the size of the pbuf with its headers and the aligned payload is at most 65536, or there is no block for what is left
of it. -/
theorem pbufAllocRam_iff {ls : List MemCall} {s : MemSys} {ram : ByteMem}
    (h : runLabels MemSys.liveStep ls (MemSys.init ram) = some s) : ∃ os, s.heap.WellFormed os ∧
      ∀ layer, ∀ length < 2 ^ 16, PayloadInside (pbufAllocRam layer length s.heap) ↔
        memAlignSize (sizeofStructPbuf + layer.offset) + (length + 3) / 4 * 4 ≤ 2 ^ 16 ∨
          s.heap.Full os
            (memBlockSize ((memAlignSize (sizeofStructPbuf + layer.offset) + (length + 3) / 4 * 4) % 2 ^ 16)) := by
  obtain ⟨bs, hc⟩ := MemSys.run_counted h
  exact ⟨bs.map Block.start, hc.good.inv.wellFormed, fun layer length hlength ↦
    payloadInside_iff hc.good.inv layer hlength⟩

/-- 1500 bytes behind the headers of all layers. -/
theorem pbufAllocRam_iff_init : ∃ s, runLabels MemSys.liveStep [] (MemSys.init fun _ ↦ 0) = some s ∧
    PayloadInside (pbufAllocRam .transport 1500 s.heap) := by
  have hrun : runLabels MemSys.liveStep [] (MemSys.init fun _ ↦ 0) = some (MemSys.init fun _ ↦ 0) := rfl
  obtain ⟨os, -, hiff⟩ := pbufAllocRam_iff hrun
  exact ⟨_, hrun, (hiff .transport 1500 (by decide)).2 (Or.inl (by decide))⟩

/-- **65500 bytes in a block of 44**: the size of the block is what is left of 65580. -/
theorem pbufAllocRam_wraps :
    (pbufAllocRam .transport 65500 (MemSys.init fun _ ↦ 0).heap).map
      (fun r ↦ (r.1.map fun x ↦ (x.1, x.2.payload, x.2.len), r.2.dataSize 8)) = some (some (8, 80, 65500), 44) := by
  decide

namespace PbufRun

variable {s : PbufRun} {cs : List PbufCall} {tab : List PbufAddr} {length : ℕ}

/-- **`pbuf_alloc` from the pool**, in every run in which callers give up only what they own, for every layer, every
length and any free elements: it returns a chain as it should be, of the first of them; or a null pointer, and the
pool has the elements that it had. -/
theorem pbufAlloc_pool (hrun : runLabels (guardStep Careful step) cs init = some s) (layer : PbufLayer)
    (hlength : length < 2 ^ 16) (htab : Fresh s.heap .pool tab) :
    ∃ o s', s.heap.pbufAlloc layer length .pool tab = some (o, s') ∧
      (∀ p ∈ o, ∃ as, as.head? = some p ∧ as <+: tab ∧ PoolChain s' as length ∧
        s'.live = s.heap.live ∪ as.toFinset) ∧
      (o = none → s'.live = s.heap.live ∧ (poolAfter s.heap s' tab).Perm tab) :=
  (run_counted hrun).pbufAlloc_of_pool hlength htab

/-- 1500 bytes are in the first elements of the pool, and two elements are not enough for them. -/
theorem pbufAlloc_pool_init :
    (∃ s' as, init.heap.pbufAlloc .link 1500 .pool [⟨.pool, 0⟩, ⟨.pool, 1⟩, ⟨.pool, 2⟩, ⟨.pool, 3⟩] =
        some (some ⟨.pool, 0⟩, s') ∧ as <+: [⟨.pool, 0⟩, ⟨.pool, 1⟩, ⟨.pool, 2⟩, ⟨.pool, 3⟩] ∧ PoolChain s' as 1500) ∧
      ∃ s', init.heap.pbufAlloc .link 1500 .pool [⟨.pool, 0⟩, ⟨.pool, 1⟩] = some (none, s') ∧ s'.live = ∅ := by
  have hrun : runLabels (guardStep Careful step) [] init = some init := rfl
  constructor
  · have htab : Fresh init.heap .pool [⟨.pool, 0⟩, ⟨.pool, 1⟩, ⟨.pool, 2⟩, ⟨.pool, 3⟩] := by decide
    obtain ⟨o, s', hs', hchain, -⟩ := pbufAlloc_pool hrun .link (by decide : 1500 < 2 ^ 16) htab
    have ho : (init.heap.pbufAlloc .link 1500 .pool [⟨.pool, 0⟩, ⟨.pool, 1⟩, ⟨.pool, 2⟩, ⟨.pool, 3⟩]).map Prod.fst =
      some (some ⟨.pool, 0⟩) := by decide
    rw [hs'] at ho
    obtain rfl := Option.some.inj ho
    obtain ⟨as, -, hpre, has, -⟩ := hchain _ rfl
    exact ⟨s', as, hs', hpre, has⟩
  · have htab : Fresh init.heap .pool [⟨.pool, 0⟩, ⟨.pool, 1⟩] := by decide
    obtain ⟨o, s', hs', -, hnull⟩ := pbufAlloc_pool hrun .link (by decide : 1500 < 2 ^ 16) htab
    have ho : (init.heap.pbufAlloc .link 1500 .pool [⟨.pool, 0⟩, ⟨.pool, 1⟩]).map Prod.fst = some none := by decide
    rw [hs'] at ho
    obtain rfl := Option.some.inj ho
    exact ⟨s', hs', (hnull rfl).1⟩

end PbufRun

end Lwip.Core
