import LwipPoc.Core.PbufTotals

/-!
# What `pbuf_free` and `pbuf_dechain` return

`pbuf_free` gives back the pbufs at the head of the chain that nothing else points to (`alone`), and returns their
number. It **counts them in a `u8_t`**, so the number is right below 256. `pbuf_dechain` tells by the number whether
the tail is still there, and hands out a pbuf that was freed when the number is a multiple of 256.

The reference counts may be any here, and the pbufs behind the first one that stays may be anything.
-/

namespace Lwip.Core

namespace PbufHeap

variable {s s' : PbufHeap} {handles : PbufAddr → ℕ} {a p q : PbufAddr} {as bs : List PbufAddr} {n count fuel : ℕ}

/-- **The pbufs at the head of a chain that nothing else points to.** -/
def alone (s : PbufHeap) (as : List PbufAddr) : List PbufAddr := as.takeWhile fun a ↦ decide ((s.pbuf a).ref = 1)

theorem alone_cons_of_eq (h : (s.pbuf a).ref = 1) : s.alone (a :: as) = a :: s.alone as :=
  List.takeWhile_cons_of_pos (decide_eq_true h)

theorem alone_cons_of_ne (h : (s.pbuf a).ref ≠ 1) : s.alone (a :: as) = [] :=
  List.takeWhile_cons_of_neg (by simpa using h)

theorem alone_congr (h : ∀ a ∈ as, (s'.pbuf a).ref = (s.pbuf a).ref) : s'.alone as = s.alone as := by
  induction as with
  | nil => rfl
  | cons a as ih =>
    have ha := h a List.mem_cons_self
    have hrest := ih fun b hb ↦ h b (List.mem_cons_of_mem _ hb)
    by_cases href : (s.pbuf a).ref = 1
    · rw [alone_cons_of_eq href, alone_cons_of_eq (by rw [ha]; exact href), hrest]
    · rw [alone_cons_of_ne href, alone_cons_of_ne (by rw [ha]; exact href)]

theorem alone_subset (s : PbufHeap) (as : List PbufAddr) : s.alone as ⊆ as := (List.takeWhile_prefix _).subset

/-- **The pbufs at the head were given back**, and nothing else was changed but reference counts. -/
structure Freed (s s' : PbufHeap) (as : List PbufAddr) : Prop where
  live : s'.live = s.live \ (s.alone as).toFinset
  returned : s'.returned = s.returned ++ (s.alone as).map fun a ↦ (a, (s.pbuf a).home)
  allocated : s'.allocated = s.allocated
  pbuf : ∀ a, s'.pbuf a = { s.pbuf a with ref := (s'.pbuf a).ref }

theorem setRef_home (s : PbufHeap) (a : PbufAddr) (r : ℕ) (b : PbufAddr) :
    ((s.setRef a r).pbuf b).home = (s.pbuf b).home := by
  rw [setRef_pbuf]
  rfl

/-- **The loop of `pbuf_free`** along a chain. -/
theorem pbufFreeLoop_chain {o : Option PbufAddr} (hchain : (s.graph handles).Chain o as)
    (href : ∀ a ∈ as, 0 < (s.pbuf a).ref) (hfuel : as.length ≤ fuel) (hcount : count < 2 ^ 8) :
    ∃ s', pbufFreeLoop fuel count o s = some ((count + (s.alone as).length) % 2 ^ 8, s') ∧ Freed s s' as := by
  induction as generalizing s o count fuel with
  | nil =>
    obtain rfl := hchain
    refine ⟨s, ?_, ⟨?_, ?_, rfl, fun _ ↦ rfl⟩⟩
    · have hnil : (count + (s.alone []).length) % 2 ^ 8 = count := Nat.mod_eq_of_lt hcount
      rw [hnil]
      cases fuel <;> rfl
    · simp [alone]
    · simp [alone]
  | cons a as ih =>
    obtain ⟨fuel, rfl⟩ := Nat.exists_eq_add_of_lt (Nat.lt_of_lt_of_le (Nat.succ_pos _) hfuel)
    rw [Nat.zero_add] at hfuel ⊢
    have hnodup := List.nodup_cons.1 hchain.nodup
    obtain ⟨rfl, hlive, hrest⟩ := hchain
    have hlive' : a ∈ s.live := hlive
    have hpos := href a List.mem_cons_self
    rw [PbufHeap.pbufFreeLoop, if_pos ⟨hlive', hpos⟩]
    by_cases hlast : (s.pbuf a).ref = 1
    · -- the pbuf is given back, and the loop goes on behind it
      obtain ⟨u, hu⟩ : ∃ u, u = (s.setRef a ((s.pbuf a).ref - 1)).giveBack a := ⟨_, rfl⟩
      have hpbuf : ∀ b ∈ as, u.pbuf b = s.pbuf b := fun b hb ↦ by
        rw [hu]
        exact setRef_pbuf_of_ne (ne_of_mem_of_not_mem hb hnodup.1)
      have hulive : u.live = s.live.erase a := by rw [hu]; rfl
      have hchain' : (u.graph handles).Chain (s.pbuf a).next as := by
        refine hrest.frame (fun b hb ↦ ?_) fun b hb ↦ congrArg PbufNode.next (hpbuf b hb)
        show b ∈ u.live
        rw [hulive]
        exact Finset.mem_erase.2 ⟨ne_of_mem_of_not_mem hb hnodup.1, hrest.mem_live hb⟩
      have hcount' : (count + 1) % 2 ^ 8 < 2 ^ 8 := Nat.mod_lt _ (Nat.two_pow_pos 8)
      obtain ⟨s', hs', hfreed⟩ := ih hchain' (fun b hb ↦ by rw [hpbuf b hb]; exact href b (List.mem_cons_of_mem _ hb))
        (Nat.le_of_succ_le_succ hfuel) hcount'
      have hzero : (s.pbuf a).ref - 1 = 0 := by omega
      simp only [if_pos hzero, ← hu]
      have halone : u.alone as = s.alone as := alone_congr fun b hb ↦ by rw [hpbuf b hb]
      rw [halone] at hs'
      refine ⟨s', ?_, ?_⟩
      · have hsum : ((count + 1) % 2 ^ 8 + (s.alone as).length) % 2 ^ 8 =
            (count + (s.alone (a :: as)).length) % 2 ^ 8 := by
          rw [alone_cons_of_eq hlast, List.length_cons]
          omega
        rw [hs', hsum]
      · refine ⟨?_, ?_, hfreed.allocated.trans (by rw [hu]; rfl), fun b ↦ ?_⟩
        · rw [hfreed.live, halone, hulive, alone_cons_of_eq hlast, List.toFinset_cons, Finset.sdiff_insert,
            Finset.erase_sdiff_comm]
        · have hmap : ((s.alone as).map fun b ↦ (b, (u.pbuf b).home)) =
              (s.alone as).map fun b ↦ (b, (s.pbuf b).home) :=
            List.map_congr_left fun b hb ↦ by rw [hpbuf b (s.alone_subset as hb)]
          have hreturned : u.returned = s.returned ++ [(a, (s.pbuf a).home)] := by
            rw [hu, giveBack, setRef_home]
            rfl
          rw [hfreed.returned, halone, hmap, hreturned, alone_cons_of_eq hlast, List.map_cons, List.append_assoc]
          rfl
        · have hub : u.pbuf b = { s.pbuf b with ref := (u.pbuf b).ref } := by
            rw [hu]
            exact (freesOnly_set s a _).pbuf b
          rw [hfreed.pbuf b, hub]
    · have hzero : (s.pbuf a).ref - 1 ≠ 0 := by omega
      simp only [if_neg hzero]
      refine ⟨s.setRef a ((s.pbuf a).ref - 1), ?_, ?_, ?_, rfl, (freesOnly_set s a _).pbuf⟩
      · rw [alone_cons_of_ne hlast, List.length_nil, Nat.add_zero, Nat.mod_eq_of_lt hcount]
      · rw [alone_cons_of_ne hlast, List.toFinset_nil, Finset.sdiff_empty]
        rfl
      · rw [alone_cons_of_ne hlast, List.map_nil, List.append_nil]
        rfl

/-- **`pbuf_free`** returns the lower byte of the number of pbufs that it gives back. -/
theorem pbufFree_chain (hchain : (s.graph handles).Chain (some p) as) (href : ∀ a ∈ as, 0 < (s.pbuf a).ref) :
    ∃ s', s.pbufFree p = some ((s.alone as).length % 2 ^ 8, s') ∧ Freed s s' as := by
  obtain ⟨s', hs', hfreed⟩ := pbufFreeLoop_chain hchain href (Nat.le_succ_of_le hchain.length_le) (Nat.two_pow_pos 8)
  rw [Nat.zero_add] at hs'
  exact ⟨s', hs', hfreed⟩

/-- The number of pbufs that were given back. -/
theorem Freed.card (hfreed : Freed s s' as) (hchain : (s.graph handles).Chain (some p) as) :
    (s.live \ s'.live).card = (s.alone as).length := by
  have hsub : (s.alone as).toFinset ⊆ s.live := fun a ha ↦ hchain.mem_live (s.alone_subset as (List.mem_toFinset.1 ha))
  rw [hfreed.live, Finset.sdiff_sdiff_eq_self hsub]
  exact List.toFinset_card_of_nodup (hchain.nodup.sublist (List.takeWhile_sublist _))

/-- The first pbuf of a chain stays if and only if none is given back. -/
theorem Freed.head_mem_iff (hfreed : Freed s s' (q :: as)) (hchain : (s.graph handles).Chain (some q) (q :: as)) :
    q ∈ s'.live ↔ (s.alone (q :: as)).length = 0 := by
  rw [hfreed.live, Finset.mem_sdiff, List.mem_toFinset, List.length_eq_zero_iff]
  by_cases href : (s.pbuf q).ref = 1
  · rw [alone_cons_of_eq href]
    simp
  · rw [alone_cons_of_ne href]
    exact iff_of_true ⟨hchain.2.1, List.not_mem_nil⟩ rfl

theorem dechained_pbuf (hne : a ≠ p) : ((s.dechained p q).pbuf a).ref = (s.pbuf a).ref ∧
    ((s.dechained p q).pbuf a).next = (s.pbuf a).next := by
  rw [dechained, setTotLen_pbuf, setNext_pbuf, setTotLen_pbuf]
  exact ⟨rfl, if_neg hne⟩

/-- **`pbuf_dechain`** of a pbuf with a tail frees the tail, and returns it if the count is zero. -/
theorem pbufDechain_chain (hchain : (s.graph handles).Chain (some p) (p :: q :: as))
    (href : ∀ a ∈ q :: as, 0 < (s.pbuf a).ref) (htotal : (s.pbuf p).totLen = (s.pbuf p).len + (s.pbuf q).totLen) :
    ∃ s', s.pbufDechain p = some (if 0 < (s.alone (q :: as)).length % 2 ^ 8 then none else some q, s') ∧
      (q ∈ s'.live ↔ (s.alone (q :: as)).length = 0) := by
  have hnodup := List.nodup_cons.1 hchain.nodup
  obtain ⟨-, hp, hnext, hq, hrest⟩ := hchain
  have hp' : p ∈ s.live := hp
  have hq' : q ∈ s.live := hq
  have hnext' : (s.pbuf p).next = some q := hnext
  have hne : ∀ a ∈ q :: as, a ≠ p := fun a ha ↦ ne_of_mem_of_not_mem ha hnodup.1
  have htail : (s.graph handles).Chain (some q) (q :: as) := ⟨rfl, hq, hrest⟩
  have hchain' : ((s.dechained p q).graph handles).Chain (some q) (q :: as) :=
    htail.frame (fun a ha ↦ htail.mem_live ha) fun a ha ↦ (dechained_pbuf (hne a ha)).2
  obtain ⟨s', hs', hfreed⟩ := pbufFree_chain hchain' fun a ha ↦ by
    rw [(dechained_pbuf (hne a ha)).1]
    exact href a ha
  have halone : (s.dechained p q).alone (q :: as) = s.alone (q :: as) :=
    alone_congr fun a ha ↦ (dechained_pbuf (hne a ha)).1
  have hlen : (s'.pbuf p).totLen = (s'.pbuf p).len := by
    rw [hfreed.pbuf p]
    simp [dechained, setTotLen, setNext, set]
  have hhead := hfreed.head_mem_iff hchain'
  rw [halone] at hs' hhead
  refine ⟨s', ?_, hhead⟩
  rw [PbufHeap.pbufDechain, if_pos hp', hnext']
  simp only
  rw [if_pos ⟨hq', by omega⟩]
  show (((s.dechained p q).pbufFree q).bind _) = _
  rw [hs', Option.bind_some]
  simp only
  rw [if_pos hlen]

/-- **When the two return what they are for**, for a chain and any reference counts: the number of pbufs that were given
back, if it is below 256; and the tail if it is still there, unless the number is a positive multiple of 256. -/
theorem freed_count_iff (hchain : (s.graph handles).Chain (some p) (p :: as))
    (href : ∀ a ∈ p :: as, 0 < (s.pbuf a).ref) :
    (∃ n s', s.pbufFree p = some (n, s') ∧
      (n = (s.live \ s'.live).card ↔ (s.alone (p :: as)).length < 2 ^ 8)) ∧
    ((s.pbuf p).totLen = (s.pbuf p).len + s.totalOf (s.pbuf p).next → ∃ o s', s.pbufDechain p = some (o, s') ∧
      (o = (s.pbuf p).next.filter (· ∈ s'.live) ↔
        ((s.alone as).length % 2 ^ 8 = 0 → (s.alone as).length = 0))) := by
  refine ⟨?_, fun htotal ↦ ?_⟩
  · obtain ⟨s', hs', hfreed⟩ := pbufFree_chain hchain href
    refine ⟨_, s', hs', ?_⟩
    rw [hfreed.card hchain]
    omega
  · cases as with
    | nil =>
      have hnext : (s.pbuf p).next = none := hchain.2.2
      have hp : p ∈ s.live := hchain.2.1
      rw [hnext] at htotal
      have hlen : (s.pbuf p).totLen = (s.pbuf p).len := htotal
      refine ⟨none, s, ?_, ?_⟩
      · rw [PbufHeap.pbufDechain, if_pos hp, hnext]
        exact if_pos hlen
      · rw [hnext]
        exact iff_of_true rfl fun _ ↦ rfl
    | cons q as =>
      have hnext : (s.pbuf p).next = some q := hchain.2.2.1
      rw [hnext] at htotal
      obtain ⟨s', hs', hlive⟩ := pbufDechain_chain hchain (fun a ha ↦ href a (List.mem_cons_of_mem _ ha)) htotal
      refine ⟨_, s', hs', ?_⟩
      rw [hnext, Option.filter_some]
      simp only [hlive, decide_eq_true_eq]
      by_cases hzero : (s.alone (q :: as)).length = 0
      · rw [hzero]
        exact iff_of_true rfl fun _ ↦ rfl
      · rw [if_neg hzero]
        by_cases hmod : (s.alone (q :: as)).length % 2 ^ 8 = 0
        · rw [hmod, if_neg (Nat.lt_irrefl 0)]
          exact iff_of_false (by simp) fun h ↦ hzero (h rfl)
        · rw [if_pos (Nat.pos_of_ne_zero hmod)]
          exact iff_of_true rfl fun h ↦ absurd h hmod

/-! ### Long chains -/

/-- So many pbufs of one byte in a chain, each of them referenced once. -/
def lineup (n : ℕ) : PbufHeap where
  live := (Finset.range n).image (PbufAddr.mk .heap)
  pbuf a := ⟨if a.index + 1 < n then some ⟨.heap, a.index + 1⟩ else none, sizeofStructPbuf, n - a.index, 1, .ram, false, 1⟩
  allocated := []
  returned := []

theorem lineup_chain {i k : ℕ} (hn : i + k + 1 = n) : ((lineup n).graph handles).Chain (some ⟨.heap, i⟩)
    ((List.range' i (k + 1)).map (PbufAddr.mk .heap)) := by
  have hlive : ∀ {i}, i < n → (⟨.heap, i⟩ : PbufAddr) ∈ (lineup n).live := fun hi ↦
    Finset.mem_image_of_mem _ (Finset.mem_range.2 hi)
  induction k generalizing i with
  | zero =>
    refine ⟨rfl, hlive (by omega), ?_⟩
    show (if i + 1 < n then some (PbufAddr.mk .heap (i + 1)) else none) = none
    rw [if_neg (by omega)]
  | succ k ih =>
    rw [List.range'_succ, List.map_cons]
    refine ⟨rfl, hlive (by omega), ?_⟩
    have hnext : ((lineup n).graph handles).next ⟨.heap, i⟩ = some ⟨.heap, i + 1⟩ := if_pos (by omega : i + 1 < n)
    rw [hnext]
    exact ih (by omega)

theorem lineup_alone (n : ℕ) (as : List PbufAddr) : (lineup n).alone as = as := by
  induction as with
  | nil => rfl
  | cons a as ih => rw [alone_cons_of_eq rfl, ih]

/-- Two pbufs are freed, and two are counted. -/
theorem freed_count_iff_two : ∃ n s', (lineup 2).pbufFree ⟨.heap, 0⟩ = some (n, s') ∧ n = ((lineup 2).live \ s'.live).card := by
  have hchain : ((lineup 2).graph fun _ ↦ 0).Chain (some ⟨.heap, 0⟩) [⟨.heap, 0⟩, ⟨.heap, 1⟩] :=
    lineup_chain (k := 1) rfl
  obtain ⟨⟨n, s', hs', hcount⟩, -⟩ := freed_count_iff hchain fun _ _ ↦ Nat.one_pos
  exact ⟨n, s', hs', hcount.2 (by rw [lineup_alone]; decide)⟩

/-- **256 pbufs are counted as none**: `pbuf_free` of 256 pbufs returns zero, and `pbuf_dechain` of 257 hands out the
second one, which was freed. -/
theorem pbufFree_count_wraps :
    (∃ s', (lineup 256).pbufFree ⟨.heap, 0⟩ = some (0, s') ∧ ((lineup 256).live \ s'.live).card = 256) ∧
      ∃ s', (lineup 257).pbufDechain ⟨.heap, 0⟩ = some (some ⟨.heap, 1⟩, s') ∧ (⟨.heap, 1⟩ : PbufAddr) ∉ s'.live := by
  constructor
  · have hchain : ((lineup 256).graph fun _ ↦ 0).Chain (some ⟨.heap, 0⟩) _ := lineup_chain (k := 255) rfl
    obtain ⟨s', hs', hfreed⟩ := pbufFree_chain hchain fun _ _ ↦ Nat.one_pos
    have hcard := hfreed.card hchain
    rw [lineup_alone, List.length_map, List.length_range'] at hs' hcard
    exact ⟨s', hs', hcard⟩
  · have hchain : ((lineup 257).graph fun _ ↦ 0).Chain (some ⟨.heap, 0⟩)
        (⟨.heap, 0⟩ :: ⟨.heap, 1⟩ :: (List.range' 2 255).map (PbufAddr.mk .heap)) := lineup_chain (k := 256) rfl
    obtain ⟨s', hs', hlive⟩ := pbufDechain_chain hchain (fun _ _ ↦ Nat.one_pos) rfl
    rw [lineup_alone, List.length_cons, List.length_map, List.length_range'] at hs' hlive
    exact ⟨s', hs', fun h ↦ absurd (hlive.1 h) (by decide)⟩

end PbufHeap

end Lwip.Core
