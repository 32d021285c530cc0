import LwipPoc.Netif.Slip

/-!
# SLIP with little memory

`slipif_rxbyte` when the pool is empty now and then. Where it needs a piece for its chain and gets none, it
drops the byte, and asks again at the next one; the bytes behind `SLIP_MAX_SIZE` are dropped too. Neither
drops the frame: its `END` returns what is left of it.

* What is returned for a frame are bytes of that frame, in their order: a damaged frame takes nothing of
  its neighbours, and leaves the receiver as it was at the beginning.
* A frame at none of whose bytes an allocation failed (`Spared`) is returned whole, up to
  `SLIP_MAX_SIZE` bytes; of a longer one, that many bytes at least are the beginning of what is returned.

What is left of a frame at which an allocation failed, and how far behind `SLIP_MAX_SIZE` the receiver goes,
is not said here.
-/

namespace Lwip.Netif

open Lwip.Core SlipifPriv

/-- `pbuf_alloc` is called for an item, and there is no memory. -/
def AllocFails (x : BitVec 8 × Option PoolMem) (s : SlipifPriv) : Prop :=
  x.2 = none ∧ s.p = none ∧ (s.state = .escape ∨ x.1 ≠ slipEnd ∧ x.1 ≠ slipEsc)

/-- **No allocation fails** at any of the items, from a state on. -/
def Spared : List (BitVec 8 × Option PoolMem) → SlipifPriv → Prop
  | [], _ => True
  | x :: as, s => ¬AllocFails x s ∧ ∀ r, rxbyteMem x s = some r → Spared as r.1

variable {s t : SlipifPriv} {xs w : List (BitVec 8)} {c : BitVec 8} {as as' : List (BitVec 8 × Option PoolMem)}
  {o : List (List Pbuf)}

/-- With memory in the pool none fails. -/
theorem spared_of_memory (h : ∀ x ∈ as, x.2 ≠ none) : Spared as s := by
  induction as generalizing s with
  | nil => trivial
  | cons x as ih =>
    exact ⟨fun hfails ↦ h x List.mem_cons_self hfails.1, fun _ _ ↦ ih fun y hy ↦ h y (List.mem_cons_of_mem x hy)⟩

theorem Spared.append (h : Spared (as ++ as') s) (ht : feed rxbyteMem as s = some (t, o)) :
    Spared as s ∧ Spared as' t := by
  induction as generalizing s o with
  | nil =>
    cases ht
    exact ⟨trivial, h⟩
  | cons x as ih =>
    rw [feed] at ht
    obtain ⟨r, hr, hrest⟩ := Option.bind_eq_some_iff.1 ht
    obtain ⟨r', hr', heq⟩ := Option.map_eq_some_iff.1 hrest
    obtain ⟨hhere, hlater⟩ := h
    obtain rfl : r'.1 = t := congrArg Prod.fst heq
    obtain ⟨hsp, hsp'⟩ := ih (hlater r hr) hr'
    refine ⟨⟨hhere, fun u hu ↦ ?_⟩, hsp'⟩
    rwa [← Option.some.inj (hr.symm.trans hu)]

/-! ### A byte -/

/-- A byte behind the largest size is dropped. -/
theorem store_full (h : slipMaxSize < s.recved) : s.store c = s := by
  rw [SlipifPriv.store]
  split
  · rfl
  · rw [if_neg (not_le.2 h)]

/-- Without memory there is nothing to put behind the chain. -/
theorem allocate_none (s : SlipifPriv) : s.allocate none = some s := by
  rw [SlipifPriv.allocate.eq_def]
  cases s.p <;> rfl

/-- A byte is put behind what the receiver has seen; or it is dropped, for its place or for want of memory. -/
theorem SlipifPriv.Holds.receive_any (h : s.Holds xs) (hlen : xs.length ≤ slipMaxSize + 1) (mem : Option PoolMem) :
    ∃ t, s.receive c mem = some (t, none) ∧
      (xs.length ≤ slipMaxSize ∧ t.Holds (xs ++ [c]) ∨
        t.Holds xs ∧ (slipMaxSize < xs.length ∨ t = s ∧ mem = none ∧ s.p = none)) := by
  have hstore : ∀ u : SlipifPriv, u.Holds xs → u.p.isSome = true → s.allocate mem = some u →
      ∃ t, s.receive c mem = some (t, none) ∧
        (xs.length ≤ slipMaxSize ∧ t.Holds (xs ++ [c]) ∨
          t.Holds xs ∧ (slipMaxSize < xs.length ∨ t = s ∧ mem = none ∧ s.p = none)) := by
    intro u hu hp halloc
    refine ⟨u.store c, by rw [SlipifPriv.receive, halloc]; rfl, ?_⟩
    rcases le_or_gt xs.length slipMaxSize with hle | hgt
    · exact .inl ⟨hle, hu.store hle hp⟩
    · rw [store_full (hu.recved_eq ▸ hgt)]
      exact .inr ⟨hu, .inl hgt⟩
  rcases mem with - | mem
  · rcases hp : s.p with - | k
    · -- there is no place to store at
      have hkept : s.store c = s := by rw [SlipifPriv.store, hp]
      refine ⟨s, ?_, .inr ⟨h, .inr ⟨rfl, rfl, rfl⟩⟩⟩
      rw [SlipifPriv.receive, allocate_none, Option.map_some, hkept]
    · rw [hp] at hstore
      exact hstore s h (by rw [hp]; rfl) (allocate_none s)
  · obtain ⟨u, halloc, hu, hp⟩ := h.allocate hlen mem
    exact hstore u hu hp halloc

/-- The code of a byte: dropped with enough room left only where an allocation failed. -/
theorem feed_code_any (h : s.Holds xs) (hlen : xs.length ≤ slipMaxSize + 1)
    (has : as.map Prod.fst = slipifSendByte c) :
    ∃ t, feed rxbyteMem as s = some (t, []) ∧
      (xs.length ≤ slipMaxSize ∧ t.Holds (xs ++ [c]) ∨
        t.Holds xs ∧ (slipMaxSize < xs.length ∨ t = s ∧ ¬Spared as s)) := by
  obtain ⟨pre, e, mem, u, rfl, hpre, hp, hread, hfeed⟩ := feed_code h.normal has
  obtain ⟨t, ht, hkept | ⟨hlost, hwhy⟩⟩ := h.receive_any (c := c) hlen mem
  · exact ⟨t, by rw [hfeed, ht]; rfl, .inl hkept⟩
  · refine ⟨t, by rw [hfeed, ht]; rfl, .inr ⟨hlost, hwhy.imp_right ?_⟩⟩
    rintro ⟨hkept, rfl, hnone⟩
    exact ⟨hkept, fun hspared ↦ (hspared.append hpre).2.1 ⟨rfl, hp.trans hnone, hread⟩⟩

/-! ### A frame -/

/-- **The contents of a frame**, from what the receiver has seen on: bytes of it, and if no allocation fails
those that there is room for. -/
theorem feed_contents (h : s.Holds xs) (hlen : xs.length ≤ slipMaxSize + 1)
    (has : as.map Prod.fst = w.flatMap slipifSendByte) :
    ∃ t ys, feed rxbyteMem as s = some (t, []) ∧ t.Holds (xs ++ ys) ∧ (xs ++ ys).length ≤ slipMaxSize + 1 ∧
      (xs ++ ys = [] → t = s) ∧ ys.Sublist w ∧ (Spared as s → ys = w.take (slipMaxSize + 1 - xs.length)) := by
  induction w generalizing s xs as with
  | nil =>
    obtain rfl := List.map_eq_nil_iff.1 has
    refine ⟨s, [], rfl, ?_, ?_, fun _ ↦ rfl, .slnil, fun _ ↦ List.take_nil.symm⟩
    all_goals rwa [List.append_nil]
  | cons c w ih =>
    rw [List.flatMap_cons] at has
    obtain ⟨as, as', rfl, hfirst, hrest⟩ := List.map_eq_append_iff.1 has
    obtain ⟨u, hu, ⟨hle, hkept⟩ | ⟨hlost, hwhy⟩⟩ := feed_code_any h hlen hfirst
    · obtain ⟨t, ys, ht, hholds, hlen', -, hsub, hsp⟩ := ih hkept
        (by rw [List.length_append]; exact Nat.succ_le_succ hle) hrest
      rw [List.append_assoc, List.singleton_append] at hholds hlen'
      refine ⟨t, c :: ys, feed_append_some hu ht, hholds, hlen', fun hnil ↦ ?_, hsub.cons_cons c, fun hspared ↦ ?_⟩
      · exact absurd (List.append_eq_nil_iff.1 hnil).2 (List.cons_ne_nil c ys)
      · rw [hsp (hspared.append hu).2, List.length_append, List.length_singleton,
          Nat.succ_sub_succ, Nat.succ_sub hle, List.take_succ_cons]
    · obtain ⟨t, ys, ht, hholds, hlen', hsame, hsub, hsp⟩ := ih hlost hlen hrest
      refine ⟨t, ys, feed_append_some hu ht, hholds, hlen', fun hnil ↦ ?_, hsub.cons c, fun hspared ↦ ?_⟩
      · rcases hwhy with hfull | ⟨hkept, -⟩
        · rw [(List.append_eq_nil_iff.1 hnil).1] at hfull
          exact absurd hfull (Nat.not_lt_zero _)
        · exact (hsame hnil).trans hkept
      · obtain ⟨hhere, hlater⟩ := hspared.append hu
        have hfull := hwhy.resolve_right fun hdropped ↦ hdropped.2 hhere
        have hroom : slipMaxSize + 1 - xs.length = 0 := Nat.sub_eq_zero_of_le hfull
        rw [hsp hlater, hroom, List.take_zero, List.take_zero]

/-- **A frame**, from an idle receiver on: it is idle again, and has returned bytes of the frame if it has
any. -/
theorem feed_frame {p : List Pbuf} (has : as.map Prod.fst = slipifOutput p) :
    ∃ (r : Option (List Pbuf)) (ys : List (BitVec 8)), feed rxbyteMem as init = some (init, r.toList) ∧
      r.map pbufBytes = (if ys = [] then none else some ys) ∧ (∀ t ∈ r, Totals t) ∧ ys.Sublist (pbufBytes p) ∧
      (Spared as init → ys = (pbufBytes p).take (slipMaxSize + 1)) := by
  obtain ⟨mem, as, mem', rfl, hcoded⟩ := slipifOutput_frames has
  have hidle : ∀ mem, rxbyteMem (slipEnd, mem) init = some (init, none) := fun _ ↦ rfl
  obtain ⟨t, ys, ht, hholds, hlen, hsame, hsub, hsp⟩ := feed_contents holds_init (Nat.zero_le _) hcoded
  rw [List.nil_append] at hholds hlen hsame
  have hspared : Spared ((slipEnd, mem) :: (as ++ [(slipEnd, mem')])) init →
      ys = (pbufBytes p).take (slipMaxSize + 1) := by
    rintro ⟨-, hlater⟩
    exact hsp ((hlater _ (hidle mem)).append ht).1
  rcases Decidable.em (ys = []) with rfl | hne
  · obtain rfl := hsame rfl
    exact ⟨none, [], feed_cons_some (hidle mem) (feed_append_some ht (feed_cons_some (hidle mem') rfl)),
      rfl, fun t ht ↦ absurd ht (Option.not_mem_none t), hsub, hspared⟩
  · obtain ⟨r, hr, hbytes, htotals⟩ := rxbyte_end hholds hlen hne mem'
    refine ⟨some r, ys, feed_cons_some (hidle mem) (feed_append_some ht (feed_cons_some hr rfl)), ?_, ?_, hsub, hspared⟩
    · rw [if_neg hne, Option.map_some, hbytes]
    · rintro t ⟨⟩
      exact htotals

/-- **What may be returned** for a packet: bytes of it in their order, with their totals right; when no
allocation failed as many as `SLIP_MAX_SIZE` of them, and none is missing before the last. -/
structure Returned (p : List Pbuf) (spared : Prop) (r : Option (List Pbuf)) : Prop where
  bytes : ∀ t ∈ r, pbufBytes t ≠ [] ∧ (pbufBytes t).Sublist (pbufBytes p)
  totals : ∀ t ∈ r, Totals t
  whole : spared → pbufBytes p ≠ [] →
    ∃ t ∈ r, pbufBytes t <+: pbufBytes p ∧ min (pbufBytes p).length slipMaxSize ≤ (pbufBytes t).length

theorem feed_returned {p : List Pbuf} (has : as.map Prod.fst = slipifOutput p) :
    ∃ r, feed rxbyteMem as init = some (init, Option.toList r) ∧ Returned p (Spared as init) r := by
  obtain ⟨r, ys, hfeed, hr, htotals, hsub, hsp⟩ := feed_frame has
  refine ⟨r, hfeed, ⟨?_, htotals, fun hspared hne ↦ ?_⟩⟩
  · rintro t ⟨⟩
    obtain ⟨hne, hys⟩ := Option.ite_none_left_eq_some.1 hr.symm
    obtain rfl := Option.some.inj hys
    exact ⟨hne, hsub⟩
  · obtain rfl := hsp hspared
    have hcut : (pbufBytes p).take (slipMaxSize + 1) ≠ [] := by
      intro hnil
      exact (List.take_eq_nil_iff.1 hnil).elim (Nat.succ_ne_zero _) hne
    rw [if_neg hcut] at hr
    obtain ⟨t, rfl, hbytes⟩ := Option.map_eq_some_iff.1 hr
    refine ⟨t, rfl, hbytes ▸ List.take_prefix _ _, ?_⟩
    rw [hbytes, List.length_take]
    omega

/-- **Frames with memory or without.** The bytes of packets are fed to an idle receiver, and the pool has
memory or not, at each of them: no assertion fails, the receiver is idle again, and it has returned at most
one packet for each frame, in their order, with bytes of that frame alone; if no allocation failed at the
frame, all of it up to `SLIP_MAX_SIZE` bytes. -/
theorem slip_memory (frames : List (List Pbuf × List (BitVec 8 × Option PoolMem)))
    (hsent : ∀ f ∈ frames, f.2.map Prod.fst = slipifOutput f.1) :
    ∃ returned, feed rxbyteMem (frames.flatMap Prod.snd) init = some (init, returned.reduceOption) ∧
      List.Forall₂ (fun f r ↦ Returned f.1 (Spared f.2 init) r) frames returned :=
  feeds_losing fun f hf ↦ feed_returned (hsent f hf)

/-- A packet for whose first byte there is no memory, and one that is received whole. -/
theorem slip_memory_two :
    ∃ r t, feed rxbyteMem
        ([(0xC0, none), (0x45, none), (0x46, some fun _ _ ↦ 0), (0xC0, none)] ++
          [0xC0, 0x47, 0xC0].map fun c ↦ (c, some fun _ _ ↦ 0)) init = some (init, [r, some t].reduceOption) ∧
      pbufBytes t = [0x47] := by
  obtain ⟨returned, hfeed, hall⟩ := slip_memory
    [([⟨[0x45, 0x46], 2⟩], [(0xC0, none), (0x45, none), (0x46, some fun _ _ ↦ 0), (0xC0, none)]),
      ([⟨[0x47], 1⟩], [0xC0, 0x47, 0xC0].map fun c ↦ (c, some fun _ _ ↦ 0))]
    (List.forall_mem_cons.2 ⟨rfl, List.forall_mem_singleton.2 rfl⟩)
  obtain ⟨r, rs, -, htail, rfl⟩ := List.forall₂_cons_left_iff.1 hall
  obtain ⟨r', rs, hr', hnil, rfl⟩ := List.forall₂_cons_left_iff.1 htail
  obtain rfl := List.forall₂_nil_left_iff.1 hnil
  have hspared : Spared ([0xC0, 0x47, 0xC0].map fun c ↦ (c, some fun _ _ ↦ 0)) init :=
    spared_of_memory (List.forall_mem_map.2 fun _ _ ↦ Option.some_ne_none _)
  obtain ⟨t, rfl, hprefix, hlen⟩ := hr'.whole hspared (List.cons_ne_nil _ _)
  exact ⟨r, t, hfeed, hprefix.eq_of_length_le hlen⟩

set_option maxRecDepth 4000 in
/-- A packet is returned without the byte for which there was no memory; and one of more than `SLIP_MAX_SIZE`
bytes is returned, but not with all of them. -/
theorem slipifRxbyte_damages :
    slipifOutput [⟨[0x45, 0x46], 2⟩] = [0xC0, 0x45, 0x46, 0xC0] ∧
      (feed rxbyteMem [(0xC0, none), (0x45, none), (0x46, some fun _ _ ↦ 0), (0xC0, none)] init).map
          (Prod.map id (List.map pbufBytes)) = some (init, [[0x46]]) ∧
      ∃ t, feed rxbyteMem ((slipifOutput [⟨List.replicate 1502 0, 1502⟩]).map fun c ↦ (c, some fun _ _ ↦ 0)) init =
          some (init, [t]) ∧ pbufBytes t ≠ List.replicate 1502 0 := by
  refine ⟨rfl, by decide, ?_⟩
  have hsent : ((slipifOutput [⟨List.replicate 1502 0, 1502⟩]).map fun c ↦
      (c, (some fun _ _ ↦ 0 : Option PoolMem))).map Prod.fst = slipifOutput [⟨List.replicate 1502 0, 1502⟩] :=
    (List.map_map ..).trans (List.map_id _)
  obtain ⟨r, ys, hfeed, hr, -, -, hsp⟩ := feed_frame hsent
  have hbytes : pbufBytes [⟨List.replicate 1502 0, 1502⟩] = List.replicate 1502 0 := pbufBytes_single
  obtain rfl := hsp (spared_of_memory (List.forall_mem_map.2 fun _ _ ↦ Option.some_ne_none _))
  rw [hbytes, List.take_replicate, if_neg (by simp [slipMaxSize])] at hr
  obtain ⟨t, rfl, ht⟩ := Option.map_eq_some_iff.1 hr
  refine ⟨t, hfeed, fun hall ↦ ?_⟩
  have hlen := congrArg List.length (ht.symm.trans hall)
  rw [List.length_replicate, List.length_replicate] at hlen
  exact absurd hlen (by decide)

end Lwip.Netif
