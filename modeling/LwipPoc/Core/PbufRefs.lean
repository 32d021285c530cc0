import LwipPoc.Core.PbufHeap

/-!
# Reference counts of pbufs

The pbufs and the handles that callers own are **shared chains**, and every `ref` is the number of
pointers to its pbuf (`Counted`). Each function of the module turns handles into links and back as the
operations on shared chains do. So in every run in which callers give up only handles that they own, and
in which no chain is concatenated to itself, a pbuf is given back when its last pointer goes, to the
memory that it came from, and once; and `pbuf_free` always finds the pbufs that it frees (`refs_exact`).

A chain that is concatenated to itself is a cycle, and **never freed** (`cycle_leaks`).
-/

namespace Lwip.Core

open SharedChains (give take linksTo)

namespace PbufHeap

variable {s s' u : PbufHeap} {handles : PbufAddr → ℕ} {a b p q t : PbufAddr} {n : PbufNode}
  {mem : List PbufAddr}

/-- The pbufs as shared chains. -/
def graph (s : PbufHeap) (handles : PbufAddr → ℕ) : SharedChains PbufAddr :=
  ⟨s.live, fun a ↦ (s.pbuf a).next, handles⟩

/-- **The reference counts are right**: the pointers are in order, every `ref` is their number, the
fields say where a pbuf came from, and what was handed out is in use or was given back. -/
structure Counted (s : PbufHeap) (handles : PbufAddr → ℕ) : Prop where
  ok : (s.graph handles).Ok
  ref : ∀ a ∈ s.live, (s.pbuf a).ref = (s.graph handles).count a
  home : ∀ a ∈ s.live, (s.pbuf a).home = a.home
  /-- No pbuf of the pool was ever a custom one. -/
  pool : ∀ a, a.home = .pool → (s.pbuf a).isCustom = false
  balance : ∀ a, s.allocated.count a = (s.returned.map Prod.fst).count a + if a ∈ s.live then 1 else 0
  returned : ∀ x ∈ s.returned, x.2 = x.1.home

/-- Only lengths and payloads differ. -/
structure SameLinks (s s' : PbufHeap) : Prop where
  live : s'.live = s.live
  allocated : s'.allocated = s.allocated
  returned : s'.returned = s.returned
  next : ∀ a, (s'.pbuf a).next = (s.pbuf a).next
  ref : ∀ a, (s'.pbuf a).ref = (s.pbuf a).ref
  type : ∀ a, (s'.pbuf a).type = (s.pbuf a).type
  isCustom : ∀ a, (s'.pbuf a).isCustom = (s.pbuf a).isCustom

theorem SameLinks.refl (s : PbufHeap) : SameLinks s s :=
  ⟨rfl, rfl, rfl, fun _ ↦ rfl, fun _ ↦ rfl, fun _ ↦ rfl, fun _ ↦ rfl⟩

theorem SameLinks.trans (h : SameLinks s s') (h' : SameLinks s' u) : SameLinks s u :=
  ⟨h'.live.trans h.live, h'.allocated.trans h.allocated, h'.returned.trans h.returned,
    fun a ↦ (h'.next a).trans (h.next a), fun a ↦ (h'.ref a).trans (h.ref a),
    fun a ↦ (h'.type a).trans (h.type a), fun a ↦ (h'.isCustom a).trans (h.isCustom a)⟩

theorem sameLinks_set (hnext : n.next = (s.pbuf a).next) (href : n.ref = (s.pbuf a).ref)
    (htype : n.type = (s.pbuf a).type) (hcustom : n.isCustom = (s.pbuf a).isCustom) :
    SameLinks s (s.set a n) := by
  refine ⟨rfl, rfl, rfl, ?_, ?_, ?_, ?_⟩ <;> intro b <;> rcases eq_or_ne b a with rfl | hb <;>
    simp [set, *]

theorem sameLinks_setTotLen (s : PbufHeap) (a : PbufAddr) (n : ℕ) : SameLinks s (s.setTotLen a n) :=
  sameLinks_set rfl rfl rfl rfl

theorem SameLinks.home (h : SameLinks s s') (a : PbufAddr) : (s'.pbuf a).home = (s.pbuf a).home := by
  rw [PbufNode.home, PbufNode.home, h.type, h.isCustom]

theorem SameLinks.graph (h : SameLinks s s') : s'.graph handles = s.graph handles := by
  rw [PbufHeap.graph, PbufHeap.graph, h.live, funext h.next]

theorem Counted.congr (hc : Counted s handles) (h : SameLinks s s') : Counted s' handles := by
  refine ⟨h.graph ▸ hc.ok, fun a ha ↦ ?_, fun a ha ↦ ?_, fun a ha ↦ ?_, fun a ↦ ?_, ?_⟩
  · rw [h.graph, h.ref]
    exact hc.ref a (h.live ▸ ha)
  · rw [h.home]
    exact hc.home a (h.live ▸ ha)
  · rw [h.isCustom]
    exact hc.pool a ha
  · rw [h.allocated, h.returned, h.live]
    exact hc.balance a
  · rw [h.returned]
    exact hc.returned

/-! ### Handles and links -/

/-- A pbuf is taken from its memory, and the caller gets a handle on it. -/
theorem Counted.obtain (hc : Counted s handles) (ha : a ∉ s.live) (hnext : n.next = none)
    (href : n.ref = 1) (hhome : n.home = a.home) (hpool : a.home = .pool → n.isCustom = false) :
    Counted (s.obtain a n) (give handles (some a)) := by
  have hgraph : (s.obtain a n).graph (give handles (some a)) = (s.graph handles).alloc a := by
    simp only [graph, PbufHeap.obtain, SharedChains.alloc, SharedChains.mk.injEq, true_and, and_true]
    funext b
    rcases eq_or_ne b a with rfl | hb
    · rw [Function.update_self, Function.update_self, hnext]
    · rw [Function.update_of_ne hb, Function.update_of_ne hb]
  refine ⟨hgraph ▸ hc.ok.alloc ha, fun b hb ↦ ?_, fun b hb ↦ ?_, fun b hb ↦ ?_, fun b ↦ ?_, hc.returned⟩
  · rw [hgraph, hc.ok.count_alloc ha]
    show (Function.update s.pbuf a n b).ref = _
    rcases eq_or_ne b a with rfl | hne
    · rw [Function.update_self, if_pos rfl, href]
    · rw [Function.update_of_ne hne, if_neg hne]
      exact hc.ref b ((Finset.mem_insert.1 hb).resolve_left hne)
  · show (Function.update s.pbuf a n b).home = _
    rcases eq_or_ne b a with rfl | hne
    · rw [Function.update_self, hhome]
    · rw [Function.update_of_ne hne]
      exact hc.home b ((Finset.mem_insert.1 hb).resolve_left hne)
  · show (Function.update s.pbuf a n b).isCustom = _
    rcases eq_or_ne b a with rfl | hne
    · rw [Function.update_self, hpool hb]
    · rw [Function.update_of_ne hne]
      exact hc.pool b hb
  · show (s.allocated ++ [a]).count b =
      (s.returned.map Prod.fst).count b + if b ∈ insert a s.live then 1 else 0
    rw [List.count_append, hc.balance b, List.count_singleton]
    rcases eq_or_ne b a with rfl | hne
    · simp [ha]
    · simp [hne, hne.symm]

/-- Changes of links and handles that are those of the shared chains, and keep the counts. -/
theorem Counted.relink {handles' : PbufAddr → ℕ} {o : Option PbufAddr} (hc : Counted s handles)
    (hok : ((s.setNext a o).graph handles').Ok)
    (hcount : ∀ x, ((s.setNext a o).graph handles').count x =
      (s.graph handles).count x) : Counted (s.setNext a o) handles' := by
  have hsame : ∀ b, ((s.setNext a o).pbuf b).ref = (s.pbuf b).ref ∧
      ((s.setNext a o).pbuf b).home = (s.pbuf b).home ∧
      ((s.setNext a o).pbuf b).isCustom = (s.pbuf b).isCustom := by
    intro b
    rcases eq_or_ne b a with rfl | hb <;> simp [setNext, set, PbufNode.home, *]
  refine ⟨hok, fun b hb ↦ ?_, fun b hb ↦ ?_, fun b hb ↦ ?_, hc.balance, hc.returned⟩
  · rw [(hsame b).1, hcount]
    exact hc.ref b hb
  · rw [(hsame b).2.1]
    exact hc.home b hb
  · rw [(hsame b).2.2]
    exact hc.pool b hb

theorem graph_set_next (s : PbufHeap) (handles : PbufAddr → ℕ) (a : PbufAddr) (o : Option PbufAddr) :
    (s.setNext a o).graph handles =
      ⟨s.live, Function.update (fun b ↦ (s.pbuf b).next) a o, handles⟩ := by
  simp only [graph, setNext, set, SharedChains.mk.injEq, true_and, and_true]
  funext b
  rcases eq_or_ne b a with rfl | hb
  · rw [Function.update_self, Function.update_self]
  · rw [Function.update_of_ne hb, Function.update_of_ne hb]

/-- A handle becomes a link. -/
theorem Counted.link (hc : Counted s handles) (ha : a ∈ s.live) (hnext : (s.pbuf a).next = none)
    (ht : 0 < handles t) {as : List PbufAddr} (hchain : (s.graph handles).Chain (some t) as)
    (hno : a ∉ as) : Counted (s.setNext a (some t)) (take handles t) := by
  have hgraph := graph_set_next s (take handles t) a (some t)
  refine hc.relink (hgraph ▸ hc.ok.link ha hnext ht hchain hno) fun x ↦ ?_
  rw [hgraph]
  exact SharedChains.count_link (G := s.graph handles) ha hnext ht x

/-- A link becomes a handle. -/
theorem Counted.cut (hc : Counted s handles) (ha : a ∈ s.live) :
    Counted (s.setNext a none) (give handles (s.pbuf a).next) := by
  have hgraph := graph_set_next s (give handles (s.pbuf a).next) a none
  refine hc.relink (hgraph ▸ hc.ok.cut ha) fun x ↦ ?_
  rw [hgraph]
  exact SharedChains.count_cut (G := s.graph handles) ha x

theorem graph_set_ref (s : PbufHeap) (handles : PbufAddr → ℕ) (a : PbufAddr) (r : ℕ) :
    (s.setRef a r).graph handles = s.graph handles := by
  simp only [graph, setRef, set, SharedChains.mk.injEq, true_and, and_true]
  funext b
  rcases eq_or_ne b a with rfl | hb
  · rw [Function.update_self]
  · rw [Function.update_of_ne hb]

/-- Changes of handles and of one count. -/
theorem Counted.recount {handles' : PbufAddr → ℕ} {r : ℕ} (hc : Counted s handles)
    (hok : (s.graph handles').Ok) (hr : r = (s.graph handles').count a)
    (hcount : ∀ x, x ≠ a → (s.graph handles').count x = (s.graph handles).count x) :
    Counted (s.setRef a r) handles' := by
  have hgraph := graph_set_ref s handles' a r
  have hsame : ∀ b, ((s.setRef a r).pbuf b).home = (s.pbuf b).home ∧
      ((s.setRef a r).pbuf b).isCustom = (s.pbuf b).isCustom := by
    intro b
    rcases eq_or_ne b a with rfl | hb <;> simp [setRef, set, PbufNode.home, *]
  refine ⟨hgraph ▸ hok, fun b hb ↦ ?_, fun b hb ↦ ?_, fun b hb ↦ ?_, hc.balance, hc.returned⟩
  · rw [hgraph]
    show (Function.update s.pbuf a _ b).ref = _
    rcases eq_or_ne b a with rfl | hne
    · rw [Function.update_self]
      exact hr
    · rw [Function.update_of_ne hne, hcount b hne]
      exact hc.ref b hb
  · rw [(hsame b).1]
    exact hc.home b hb
  · rw [(hsame b).2]
    exact hc.pool b hb

/-- `pbuf_ref`. -/
theorem Counted.pbufRef (hc : Counted s handles) (ha : a ∈ s.live) (hsmall : (s.pbuf a).ref < 65535) :
    ∃ s', s.pbufRef (some a) = some s' ∧ Counted s' (give handles (some a)) := by
  have hcount := fun x ↦ SharedChains.count_grab (G := s.graph handles) (a := a) x
  refine ⟨_, if_pos ha, hc.recount (hc.ok.grab ha) ?_ fun x hx ↦ ?_⟩
  · have hca := hcount a
    rw [if_pos rfl] at hca
    show _ = ((s.graph handles).grab a).count a
    rw [hca, ← hc.ref a ha]
    exact Nat.mod_eq_of_lt (by omega)
  · have hcx := hcount x
    rw [if_neg hx.symm] at hcx
    exact hcx

/-- A handle that is not the last pointer is given up. -/
theorem Counted.drop (hc : Counted s handles) (ha : a ∈ s.live) (hpos : 0 < handles a)
    (href : (s.pbuf a).ref ≠ 1) :
    Counted (s.setRef a ((s.pbuf a).ref - 1)) (take handles a) := by
  have hcount := fun x ↦ SharedChains.count_drop (G := s.graph handles) hpos x
  have hra := hc.ref a ha
  refine hc.recount (hc.ok.drop hpos (hra ▸ href)) ?_ fun x hx ↦ ?_
  · have hca := hcount a
    rw [if_pos rfl] at hca
    show _ = ((s.graph handles).drop a).count a
    omega
  · have hcx := hcount x
    rw [if_neg hx.symm] at hcx
    exact hcx

/-- The last pointer is given up. -/
theorem Counted.reap (hc : Counted s handles) (ha : a ∈ s.live) (hpos : 0 < handles a)
    (href : (s.pbuf a).ref = 1) :
    Counted ((s.setRef a ((s.pbuf a).ref - 1)).giveBack a)
      (give (take handles a) (s.pbuf a).next) := by
  have hcount := fun x ↦ SharedChains.count_reap (G := s.graph handles) ha hpos x
  have hra := hc.ref a ha
  have hgraph : ((s.setRef a ((s.pbuf a).ref - 1)).giveBack a).graph
      (give (take handles a) (s.pbuf a).next) = (s.graph handles).reap a := by
    have hset := graph_set_ref s handles a ((s.pbuf a).ref - 1)
    simp only [graph, SharedChains.mk.injEq, and_true] at hset
    simp only [graph, giveBack, SharedChains.reap, SharedChains.mk.injEq, and_true]
    exact ⟨rfl, hset.2⟩
  have hsame : ∀ b, b ≠ a →
      ((s.setRef a ((s.pbuf a).ref - 1)).giveBack a).pbuf b = s.pbuf b :=
    fun b hb ↦ Function.update_of_ne hb _ _
  have hhome : ((s.setRef a ((s.pbuf a).ref - 1)).pbuf a).home = a.home := by
    rw [← hc.home a ha]
    simp [setRef, set, PbufNode.home]
  refine ⟨hgraph ▸ hc.ok.reap hpos (hra ▸ href), fun b hb ↦ ?_, fun b hb ↦ ?_, fun b hb ↦ ?_,
    fun b ↦ ?_, fun x hx ↦ ?_⟩
  · obtain ⟨hne, hb⟩ := Finset.mem_erase.1 hb
    have hcb := hcount b
    rw [if_neg hne.symm] at hcb
    rw [hgraph, hsame b hne, hc.ref b hb]
    exact hcb.symm
  · obtain ⟨hne, hb⟩ := Finset.mem_erase.1 hb
    rw [hsame b hne]
    exact hc.home b hb
  · rcases eq_or_ne b a with rfl | hne
    · simp only [giveBack, setRef, set, Function.update_self]
      exact hc.pool b hb
    · rw [hsame b hne]
      exact hc.pool b hb
  · show s.allocated.count b = ((s.returned ++ [(a, _)]).map Prod.fst).count b +
      if b ∈ s.live.erase a then 1 else 0
    rw [hc.balance b, List.map_append, List.count_append, List.map_singleton, List.count_singleton]
    rcases eq_or_ne b a with rfl | hne
    · simp [ha]
    · simp [hne, hne.symm]
  · rcases List.mem_append.1 hx with hx | hx
    · exact hc.returned x hx
    · rw [List.mem_singleton.1 hx]
      exact hhome

/-! ### Freeing -/

/-- Some pbufs were given back, and otherwise only counts differ. -/
structure FreesOnly (s s' : PbufHeap) : Prop where
  live : s'.live ⊆ s.live
  pbuf : ∀ a, s'.pbuf a = { s.pbuf a with ref := (s'.pbuf a).ref }

theorem FreesOnly.refl (s : PbufHeap) : FreesOnly s s := ⟨subset_rfl, fun _ ↦ rfl⟩

theorem FreesOnly.trans (h : FreesOnly s s') (h' : FreesOnly s' u) : FreesOnly s u := by
  refine ⟨h'.live.trans h.live, fun a ↦ ?_⟩
  rw [h'.pbuf a, h.pbuf a]

theorem freesOnly_set (s : PbufHeap) (a : PbufAddr) (r : ℕ) :
    FreesOnly s (s.setRef a r) := by
  refine ⟨subset_rfl, fun b ↦ ?_⟩
  rcases eq_or_ne b a with rfl | hb
  · simp [setRef, set]
  · simp [setRef, set, hb]

/-- **The loop of `pbuf_free`** gives up one handle, and finds all the pbufs that it frees. -/
theorem Counted.pbufFreeLoop {o : Option PbufAddr} {fuel : ℕ} (count : ℕ) (hc : Counted s (give handles o))
    (hfuel : s.live.card < fuel) :
    ∃ n s', pbufFreeLoop fuel count o s = some (n, s') ∧ Counted s' handles ∧ FreesOnly s s' := by
  induction fuel generalizing o s count with
  | zero => exact absurd hfuel (Nat.not_lt_zero _)
  | succ fuel ih =>
    cases o with
    | none =>
      have hgive : give handles (none : Option PbufAddr) = handles := funext fun x ↦ rfl
      exact ⟨count, s, rfl, hgive ▸ hc, FreesOnly.refl s⟩
    | some a =>
      have hpos : 0 < give handles (some a) a := by simp [give]
      have htake : take (give handles (some a)) a = handles := by
        funext x
        simp [take, give]
      have ha : a ∈ s.live := by
        by_contra hno
        have hzero : give handles (some a) a = 0 := (hc.ok.handles_of_not_live hno).1
        omega
      have href : 0 < (s.pbuf a).ref := by
        rw [hc.ref a ha]
        exact (hc.ok.held a).1 ha
      rw [PbufHeap.pbufFreeLoop, if_pos ⟨ha, href⟩]
      by_cases hlast : (s.pbuf a).ref - 1 = 0
      · have hreap := hc.reap ha hpos (by omega)
        rw [htake] at hreap
        obtain ⟨n, s', hs', hc', hframe⟩ := ih ((count + 1) % 2 ^ 8) hreap (by
          show (s.live.erase a).card < fuel
          rw [Finset.card_erase_of_mem ha]
          have := Finset.card_pos.2 ⟨a, ha⟩
          omega)
        refine ⟨n, s', ?_, hc', FreesOnly.trans ⟨Finset.erase_subset _ _, ?_⟩ hframe⟩
        · simp only [if_pos hlast]
          exact hs'
        · exact (freesOnly_set s a _).pbuf
      · have hdrop := hc.drop ha hpos (by omega)
        rw [htake] at hdrop
        exact ⟨count, _, by simp only [if_neg hlast], hdrop, freesOnly_set s a _⟩

/-- **`pbuf_free`**, called by the owner of a handle. -/
theorem Counted.pbufFree (hc : Counted s handles) (hp : 0 < handles p) :
    ∃ n s', s.pbufFree p = some (n, s') ∧ Counted s' (take handles p) ∧ FreesOnly s s' := by
  have hgive : give (take handles p) (some p) = handles := by
    funext x
    simp only [give, take, Option.some.injEq]
    split_ifs with hx
    · rw [hx] at hp
      omega
    · rfl
  have hc' : Counted s (give (take handles p) (some p)) := by rwa [hgive]
  exact hc'.pbufFreeLoop 0 (Nat.lt_succ_self _)

theorem setNext_pbuf_of_ne {o : Option PbufAddr} (h : b ≠ a) : (s.setNext a o).pbuf b = s.pbuf b :=
  Function.update_of_ne h _ _

theorem setNext_pbuf (s : PbufHeap) (a : PbufAddr) (o : Option PbufAddr) (b : PbufAddr) :
    (s.setNext a o).pbuf b = { s.pbuf b with next := if b = a then o else (s.pbuf b).next } := by
  rcases eq_or_ne b a with rfl | hb
  · simp [setNext, set]
  · rw [setNext_pbuf_of_ne hb, if_neg hb]

theorem setRef_pbuf_of_ne {r : ℕ} (h : b ≠ a) : (s.setRef a r).pbuf b = s.pbuf b :=
  Function.update_of_ne h _ _

theorem setNext_setRef {o : Option PbufAddr} {r : ℕ} (h : a ≠ b) :
    (s.setNext a o).setRef b r = (s.setRef b r).setNext a o := by
  simp only [setNext, setRef, set, Function.update_of_ne h, Function.update_of_ne h.symm]
  rw [Function.update_comm h]

theorem setNext_giveBack {o : Option PbufAddr} (h : a ≠ b) :
    (s.setNext a o).giveBack b = (s.giveBack b).setNext a o := by
  simp only [giveBack, setNext, set, Function.update_of_ne h.symm]

/-- Freeing does not look at the link of a pbuf that is not reached. -/
theorem pbufFreeLoop_setNext {o r : Option PbufAddr} {fuel count : ℕ} {as : List PbufAddr}
    (hchain : (s.graph handles).Chain o as) (hno : q ∉ as) :
    pbufFreeLoop fuel count o (s.setNext q r) =
      (pbufFreeLoop fuel count o s).map fun x ↦ (x.1, x.2.setNext q r) := by
  induction fuel generalizing o s count as with
  | zero => cases o <;> rfl
  | succ fuel ih =>
    cases o with
    | none => rfl
    | some a =>
      obtain _ | ⟨b, as⟩ := as
      · cases hchain
      have hnodup := List.nodup_cons.1 hchain.nodup
      obtain ⟨hb, hlive, hrest⟩ := hchain
      obtain rfl := Option.some.inj hb
      obtain ⟨hne, hno⟩ := not_or.1 (List.mem_cons.not.1 hno)
      rw [pbufFreeLoop, pbufFreeLoop, setNext_pbuf_of_ne (Ne.symm hne)]
      show (if a ∈ s.live ∧ 0 < (s.pbuf a).ref then _ else none) = _
      by_cases hok : a ∈ s.live ∧ 0 < (s.pbuf a).ref
      · rw [if_pos hok, if_pos hok]
        by_cases hlast : (s.pbuf a).ref - 1 = 0
        · simp only [if_pos hlast]
          rw [setNext_setRef hne, setNext_giveBack hne]
          refine ih (SharedChains.Chain.frame hrest (fun c hcas ↦ ?_) fun c hcas ↦ ?_) hno
          · exact Finset.mem_erase.2 ⟨ne_of_mem_of_not_mem hcas hnodup.1, hrest.mem_live hcas⟩
          · exact congrArg PbufNode.next (setRef_pbuf_of_ne (ne_of_mem_of_not_mem hcas hnodup.1))
        · simp only [if_neg hlast]
          rw [setNext_setRef hne]
          rfl
      · rw [if_neg hok, if_neg hok]
        rfl

/-! ### Chains -/

/-- The pbufs of a chain. -/
def chainOf (s : PbufHeap) : ℕ → Option PbufAddr → List PbufAddr
  | _, none => []
  | 0, some _ => []
  | fuel + 1, some a => a :: chainOf s fuel (s.pbuf a).next

theorem chainOf_eq {o : Option PbufAddr} {fuel : ℕ} {as : List PbufAddr}
    (h : (s.graph handles).Chain o as) (hfuel : as.length ≤ fuel) : s.chainOf fuel o = as := by
  induction fuel generalizing o as with
  | zero =>
    obtain rfl := List.length_eq_zero_iff.1 (Nat.le_zero.1 hfuel)
    obtain rfl := h
    rfl
  | succ fuel ih =>
    obtain _ | ⟨a, as⟩ := as
    · obtain rfl := h
      rfl
    · obtain ⟨rfl, -, h⟩ := h
      show a :: s.chainOf fuel ((s.graph handles).next a) = _
      rw [ih h (Nat.le_of_succ_le_succ hfuel)]

/-- The chain from a pbuf on. -/
def chain (s : PbufHeap) (a : PbufAddr) : List PbufAddr := s.chainOf s.steps (some a)

theorem Counted.chain (hc : Counted s handles) (ha : a ∈ s.live) :
    (s.graph handles).Chain (some a) (s.chain a) := by
  obtain ⟨as, has⟩ := hc.ok.ends a ha
  have hlen : as.length ≤ s.live.card := has.length_le
  have heq : s.chain a = as := chainOf_eq has (Nat.le_succ_of_le hlen)
  rwa [heq]

/-- **The walk of `pbuf_cat`** goes along the chain to its last pbuf, changes totals, and sets a link. -/
theorem pbufCatWalk_spec {as : List PbufAddr} {fuel : ℕ} (h : pbufCatWalk t fuel p s = some s')
    (hchain : (s.graph handles).Chain (some p) as) :
    ∃ u, ∃ l ∈ as, SameLinks s u ∧ l ∈ u.live ∧ (u.pbuf l).next = none ∧
      s' = u.setNext l (some t) := by
  induction fuel generalizing s p as with
  | zero => cases h
  | succ fuel ih =>
    obtain _ | ⟨b, as⟩ := as
    · cases hchain
    obtain ⟨hb, hlive, hrest⟩ := hchain
    obtain rfl := Option.some.inj hb
    have hlive' : p ∈ s.live := hlive
    rw [pbufCatWalk, if_pos hlive'] at h
    cases hnext : (s.pbuf p).next with
    | none =>
      rw [hnext] at h
      simp only at h
      split_ifs at h with htot
      refine ⟨s.setTotLen p (((s.pbuf p).totLen + (s.pbuf t).totLen) % 2 ^ 16), p,
        List.mem_cons_self, sameLinks_setTotLen .., hlive', ?_, (Option.some.inj h).symm⟩
      simp [setTotLen, set, hnext]
    | some q =>
      rw [hnext] at h
      simp only at h
      have hsame := sameLinks_setTotLen s p (((s.pbuf p).totLen + (s.pbuf t).totLen) % 2 ^ 16)
      have hrest' : ((s.setTotLen p (((s.pbuf p).totLen + (s.pbuf t).totLen) % 2 ^ 16)).graph handles).Chain
          (some q) as := by
        rw [hsame.graph, ← hnext]
        exact hrest
      obtain ⟨u, l, hl, hu, hrest⟩ := ih h hrest'
      exact ⟨u, l, List.mem_cons_of_mem _ hl, hsame.trans hu, hrest⟩

/-- **`pbuf_cat`** turns the caller's handle on the tail into a link, if the chains have no pbuf in
common. -/
theorem Counted.pbufCat {h : PbufAddr} (hc : Counted s handles) (hh : h ∈ s.live)
    (hapart : ∀ a ∈ s.chain h, a ∉ s.chain t) (ht : 0 < handles t) (hcat : s.pbufCat h t = some s') :
    Counted s' (take handles t) := by
  rw [PbufHeap.pbufCat] at hcat
  split_ifs at hcat with htlive
  obtain ⟨u, l, hl, hsame, hlive, hnext, rfl⟩ := pbufCatWalk_spec hcat (hc.chain hh)
  have hchain : (u.graph handles).Chain (some t) (s.chain t) := by
    rw [hsame.graph]
    exact hc.chain htlive
  exact (hc.congr hsame).link hlive hnext ht hchain (hapart l hl)

/-- **`pbuf_chain`** makes another link. -/
theorem Counted.pbufChain {h : PbufAddr} (hc : Counted s handles) (hh : h ∈ s.live)
    (hapart : ∀ a ∈ s.chain h, a ∉ s.chain t) (ht : t ∈ s.live) (hsmall : (s.pbuf t).ref < 65535)
    (hchain : s.pbufChain h t = some s') : Counted s' handles := by
  obtain ⟨v, hcat, href⟩ := Option.bind_eq_some_iff.1 hchain
  rw [PbufHeap.pbufCat, if_pos ht] at hcat
  obtain ⟨u, l, hl, hsame, hlive, hnext, rfl⟩ := pbufCatWalk_spec hcat (hc.chain hh)
  have htmem : t ∈ s.chain t := List.mem_cons_self
  have hlt : t ≠ l := fun heq ↦ hapart l hl (heq ▸ htmem)
  -- as if the reference were taken before the link is set
  obtain ⟨w, hw, hcw⟩ := (hc.congr hsame).pbufRef (hsame.live ▸ ht) (hsame.ref t ▸ hsmall)
  rw [PbufHeap.pbufRef, if_pos (hsame.live ▸ ht)] at hw
  obtain rfl := Option.some.inj hw
  have hs' : s' = (u.setRef t (((u.pbuf t).ref + 1) % 2 ^ 16)).setNext l (some t) := by
    have htlive : t ∈ (u.setNext l (some t)).live := hsame.live ▸ ht
    rw [PbufHeap.pbufRef, if_pos htlive, setNext_pbuf_of_ne hlt, setNext_setRef hlt.symm] at href
    exact (Option.some.inj href).symm
  have hrest : ((u.setRef t (((u.pbuf t).ref + 1) % 2 ^ 16)).graph (give handles (some t))).Chain (some t)
      (s.chain t) := by
    refine (hc.chain ht).frame (fun a ha ↦ ?_) fun a ha ↦ ?_
    · show a ∈ u.live
      rw [hsame.live]
      exact (hc.chain ht).mem_live ha
    · refine Eq.trans ?_ (hsame.next a)
      rcases eq_or_ne a t with rfl | hat
      · simp [graph, setRef, set]
      · exact congrArg PbufNode.next (setRef_pbuf_of_ne hat)
  have hnext' : ((u.setRef t (((u.pbuf t).ref + 1) % 2 ^ 16)).pbuf l).next = none := by
    rw [setRef_pbuf_of_ne hlt.symm]
    exact hnext
  have hlink := hcw.link hlive hnext' (by simp [give]) hrest (hapart l hl)
  have htake : take (give handles (some t)) t = handles := by
    funext x
    simp [take, give]
  rw [htake] at hlink
  rwa [hs']

/-- The walk of `pbuf_realloc` only changes totals. -/
theorem pbufReallocWalk_spec {grow fuel rem rem' : ℕ} {as : List PbufAddr}
    (h : pbufReallocWalk grow fuel rem p s = some ((q, rem'), s'))
    (hchain : (s.graph handles).Chain (some p) as) : SameLinks s s' ∧ q ∈ s'.live := by
  induction fuel generalizing s p rem as with
  | zero => cases h
  | succ fuel ih =>
    obtain _ | ⟨b, as⟩ := as
    · cases hchain
    obtain ⟨hb, hlive, hrest⟩ := hchain
    obtain rfl := Option.some.inj hb
    have hlive' : p ∈ s.live := hlive
    rw [pbufReallocWalk, if_pos hlive'] at h
    by_cases hkeep : (s.pbuf p).len < rem
    · rw [if_pos hkeep] at h
      have hsame := sameLinks_setTotLen s p (((s.pbuf p).totLen + grow) % 2 ^ 16)
      cases hnext : (s.pbuf p).next with
      | none =>
        rw [hnext] at h
        cases h
      | some q' =>
        rw [hnext] at h
        have hrest' : ((s.setTotLen p (((s.pbuf p).totLen + grow) % 2 ^ 16)).graph handles).Chain
            (some q') as := by
          rw [hsame.graph, ← hnext]
          exact hrest
        obtain ⟨hs', hq⟩ := ih h hrest'
        exact ⟨hsame.trans hs', hq⟩
    · rw [if_neg hkeep] at h
      obtain ⟨hq, rfl⟩ := Prod.mk.inj (Option.some.inj h)
      obtain ⟨rfl, -⟩ := Prod.mk.inj hq
      exact ⟨SameLinks.refl s, hlive'⟩

/-- **To free the rest of a chain and then cut it off** is to cut it off and then free it. -/
theorem Counted.freeRest (hc : Counted s handles) (hq : q ∈ s.live) (h : s.freeRest q = some s') :
    Counted s' handles ∧ FreesOnly (s.setNext q none) s' := by
  have hcut := hc.cut hq
  obtain ⟨as, has⟩ := hc.ok.chain_next hq
  have has' : (s.graph handles).Chain (some q) (q :: as) := ⟨rfl, hq, has⟩
  have hno : q ∉ as := (List.nodup_cons.1 has'.nodup).1
  rw [PbufHeap.freeRest] at h
  cases hnext : (s.pbuf q).next with
  | none =>
    rw [hnext] at h hcut
    rw [← Option.some.inj h]
    exact ⟨hcut, FreesOnly.refl _⟩
  | some t =>
    rw [hnext] at h hcut
    obtain ⟨⟨n, v⟩, hfree, rfl⟩ := Option.map_eq_some_iff.1 h
    obtain ⟨n', u, hu, hcu, hframe⟩ := hcut.pbufFreeLoop 0 (Nat.lt_succ_self _)
    have hrest : (s.graph handles).Chain (some t) as := by
      rw [← hnext]
      exact has
    have hfree' : PbufHeap.pbufFreeLoop ((s.setNext q none).live.card + 1) 0 (some t) s = some (n, v) :=
      hfree
    rw [pbufFreeLoop_setNext hrest hno, hfree'] at hu
    obtain ⟨-, rfl⟩ := Prod.mk.inj (Option.some.inj hu)
    exact ⟨hcu, hframe⟩

/-- **What `pbuf_realloc` does**: nothing, or it walks to the new last pbuf and frees the others. -/
theorem pbufRealloc_cases {newLen : ℕ} {trims : Bool} (h : s.pbufRealloc p newLen trims = some s') :
    p ∈ s.live ∧ ((s.pbuf p).totLen ≤ newLen ∧ s' = s ∨ newLen < (s.pbuf p).totLen ∧ ∃ q rem u,
      pbufReallocWalk ((newLen + 2 ^ 16 - (s.pbuf p).totLen) % 2 ^ 16) s.steps newLen p s =
        some ((q, rem), u) ∧
      (u.set q { u.pbuf q with len := rem, totLen := rem }).freeRest q = some s') := by
  rw [PbufHeap.pbufRealloc] at h
  by_cases hp : p ∈ s.live
  swap
  · rw [if_neg hp] at h
    cases h
  rw [if_pos hp] at h
  by_cases hlen : (s.pbuf p).totLen ≤ newLen
  · rw [if_pos hlen] at h
    exact ⟨hp, Or.inl ⟨hlen, (Option.some.inj h).symm⟩⟩
  rw [if_neg hlen] at h
  split at h
  · cases h
  · next q rem u hwalk =>
    by_cases htrim : (u.pbuf q).type = .ram ∧ rem ≠ (u.pbuf q).len ∧ trims = false
    · rw [if_pos htrim] at h
      cases h
    rw [if_neg htrim] at h
    exact ⟨hp, Or.inr ⟨Nat.lt_of_not_le hlen, q, rem, u, hwalk, h⟩⟩

/-- The new last pbuf is in use, and the counts are right. -/
theorem Counted.shortened {grow fuel rem rem' : ℕ} (hc : Counted s handles) (hp : p ∈ s.live)
    (hwalk : pbufReallocWalk grow fuel rem p s = some ((q, rem'), u)) :
    Counted (u.set q { u.pbuf q with len := rem', totLen := rem' }) handles ∧ q ∈ u.live := by
  obtain ⟨hsame, hq⟩ := pbufReallocWalk_spec hwalk (hc.chain hp)
  exact ⟨(hc.congr hsame).congr (sameLinks_set rfl rfl rfl rfl), hq⟩

/-- **`pbuf_realloc`**. -/
theorem Counted.pbufRealloc {newLen : ℕ} {trims : Bool} (hc : Counted s handles)
    (h : s.pbufRealloc p newLen trims = some s') : Counted s' handles := by
  obtain ⟨hp, ⟨-, rfl⟩ | ⟨-, q, rem, u, hwalk, hfree⟩⟩ := pbufRealloc_cases h
  · exact hc
  · obtain ⟨hcu, hq⟩ := hc.shortened hp hwalk
    exact (hcu.freeRest hq hfree).1

/-- `pbuf_header`. -/
theorem pbufHeader_sameLinks {inc : ℤ} {r : ℕ} (h : s.pbufHeader p inc = some (r, s')) :
    SameLinks s s' := by
  rw [pbufHeader] at h
  by_cases hp : p ∈ s.live
  swap
  · rw [if_neg hp] at h
    cases h
  rw [if_pos hp] at h
  by_cases hzero : inc = 0
  · rw [if_pos hzero] at h
    obtain ⟨-, rfl⟩ := Prod.mk.inj (Option.some.inj h)
    exact SameLinks.refl s
  rw [if_neg hzero] at h
  by_cases hlong : inc < 0 ∧ ((s.pbuf p).len : ℤ) < -inc
  · rw [if_pos hlong] at h
    cases h
  rw [if_neg hlong] at h
  simp only at h
  split at h <;> split at h <;> obtain ⟨-, rfl⟩ := Prod.mk.inj (Option.some.inj h)
  all_goals first
    | exact SameLinks.refl s
    | exact sameLinks_set rfl rfl rfl rfl

/-- The pbuf that `pbuf_dechain` separates, before the rest is freed. -/
def dechained (s : PbufHeap) (p q : PbufAddr) : PbufHeap :=
  ((s.setTotLen q ((s.pbuf p).totLen - (s.pbuf p).len)).setNext p none).setTotLen p
    ((s.setTotLen q ((s.pbuf p).totLen - (s.pbuf p).len)).pbuf p).len

/-- **What `pbuf_dechain` does**: nothing, or it separates the pbuf and gives up the link. -/
theorem pbufDechain_cases {o : Option PbufAddr} (h : s.pbufDechain p = some (o, s')) :
    p ∈ s.live ∧ ((s.pbuf p).next = none ∧ s' = s ∨ ∃ q n, (s.pbuf p).next = some q ∧
      (s.pbuf q).totLen + (s.pbuf p).len = (s.pbuf p).totLen ∧
      (s.dechained p q).pbufFree q = some (n, s')) := by
  rw [PbufHeap.pbufDechain] at h
  by_cases hp : p ∈ s.live
  swap
  · rw [if_neg hp] at h
    cases h
  rw [if_pos hp] at h
  split at h
  · next hnext =>
    split_ifs at h
    obtain ⟨-, rfl⟩ := Prod.mk.inj (Option.some.inj h)
    exact ⟨hp, Or.inl ⟨hnext, rfl⟩⟩
  · next q hnext =>
    by_cases hq : q ∈ s.live ∧ (s.pbuf q).totLen + (s.pbuf p).len = (s.pbuf p).totLen
    swap
    · rw [if_neg hq] at h
      cases h
    rw [if_pos hq] at h
    obtain ⟨⟨n, v⟩, hv, hend⟩ := Option.bind_eq_some_iff.1 h
    simp only at hend
    split_ifs at hend <;>
    · obtain ⟨-, rfl⟩ := Prod.mk.inj (Option.some.inj hend)
      exact ⟨hp, Or.inr ⟨q, n, hnext, hq.2, hv⟩⟩

/-- The rest is held by a handle. -/
theorem Counted.dechained (hc : Counted s handles) (hp : p ∈ s.live) (hnext : (s.pbuf p).next = some q) :
    Counted (s.dechained p q) (give handles (some q)) := by
  have hsame := sameLinks_setTotLen s q ((s.pbuf p).totLen - (s.pbuf p).len)
  have hcut := (hc.congr hsame).cut (a := p) hp
  rw [hsame.next, hnext] at hcut
  exact hcut.congr (sameLinks_setTotLen ..)

/-- **`pbuf_dechain`**. -/
theorem Counted.pbufDechain {o : Option PbufAddr} (hc : Counted s handles)
    (h : s.pbufDechain p = some (o, s')) : Counted s' handles := by
  obtain ⟨hp, ⟨-, rfl⟩ | ⟨q, n, hnext, -, hfree⟩⟩ := pbufDechain_cases h
  · exact hc
  · obtain ⟨n', u, hu, hcu, -⟩ := (hc.dechained hp hnext).pbufFreeLoop 0 (Nat.lt_succ_self _)
    obtain ⟨-, rfl⟩ := Prod.mk.inj (Option.some.inj (hfree.symm.trans hu))
    exact hcu

/-! ### Allocation -/

/-- What the allocator returns: places that are not in use, in the right memory. -/
def Fresh (s : PbufHeap) (home : PbufHome) (mem : List PbufAddr) : Prop :=
  mem.Nodup ∧ ∀ a ∈ mem, a ∉ s.live ∧ a.home = home

instance (s : PbufHeap) (home : PbufHome) (mem : List PbufAddr) : Decidable (Fresh s home mem) :=
  inferInstanceAs (Decidable (_ ∧ _))

theorem give_take_self (handles : PbufAddr → ℕ) (a : PbufAddr) :
    take (give handles (some a)) a = handles := by
  funext x
  simp [take, give]

theorem Fresh.obtain {home : PbufHome} (h : Fresh s home (b :: mem)) (n : PbufNode) :
    Fresh (s.obtain b n) home mem := by
  obtain ⟨hnodup, hmem⟩ := h
  obtain ⟨hb, hnodup⟩ := List.nodup_cons.1 hnodup
  refine ⟨hnodup, fun a ha ↦ ?_⟩
  obtain ⟨hlive, hhome⟩ := hmem a (List.mem_cons_of_mem _ ha)
  refine ⟨fun hmem ↦ ?_, hhome⟩
  rcases Finset.mem_insert.1 hmem with rfl | hmem
  · exact hb ha
  · exact hlive hmem

/-- A new pbuf behind the last one of a chain: it gets a handle, which becomes a link. -/
theorem Counted.grow {r : PbufAddr} (hc : Counted s handles) (hr : r ∈ s.live ∧ (s.pbuf r).next = none)
    (hq : q ∉ s.live) (hnext : n.next = none) (href : n.ref = 1) (hhome : n.home = q.home)
    (hcustom : n.isCustom = false) : Counted ((s.obtain q n).setNext r (some q)) handles := by
  have hrq : r ≠ q := ne_of_mem_of_not_mem hr.1 hq
  have hold : (s.obtain q n).pbuf r = s.pbuf r := Function.update_of_ne hrq _ _
  have hnew : (s.obtain q n).pbuf q = n := Function.update_self _ _ _
  have hcn := hc.obtain hq hnext href hhome fun _ ↦ hcustom
  have hchain : ((s.obtain q n).graph (give handles (some q))).Chain (some q) [q] := by
    refine ⟨rfl, Finset.mem_insert_self _ _, ?_⟩
    show ((s.obtain q n).pbuf q).next = none
    rw [hnew, hnext]
  have hlink := hcn.link (a := r) (Finset.mem_insert_of_mem hr.1) (by rw [hold]; exact hr.2)
    (by simp [give]) hchain fun hmem ↦ hrq (List.mem_singleton.1 hmem)
  rwa [give_take_self] at hlink

/-- The owner of a handle on a pbuf keeps it in use. -/
theorem Counted.live_of_give (hc : Counted s (give handles (some p))) : p ∈ s.live :=
  (hc.ok.held p).2 (Nat.lt_of_lt_of_le (by simp [graph, give]) (Nat.le_add_right _ _))

/-- A pbuf of a chain from the pool. -/
def poolNode (rem : ℕ) : PbufNode :=
  ⟨none, sizeofStructPbuf, rem, min rem pbufPoolBufsizeAligned, .pool, false, 1⟩

/-- One round of the loop that allocates the tail of a chain. -/
theorem pbufAllocTail_cons {r : PbufAddr} {rem : ℕ} {x : Option PbufAddr × PbufHeap} (hrem : rem ≠ 0)
    (h : pbufAllocTail p r rem (q :: mem) s = some x) : rem < 0xffff ∧
      pbufAllocTail p q (rem - min rem pbufPoolBufsizeAligned) mem
        ((s.obtain q (poolNode rem)).setNext r (some q)) = some x := by
  rw [pbufAllocTail, if_neg hrem] at h
  simp only at h
  split_ifs at h with hbound
  exact ⟨hbound, h⟩

/-- The first pbuf of the chain stays as it is, but for its link. -/
theorem grow_pbuf {r : PbufAddr} (hpq : p ≠ q) :
    (((s.obtain q n).setNext r (some q)).pbuf p).ref = (s.pbuf p).ref := by
  rw [setNext_pbuf]
  simp [PbufHeap.obtain, hpq]

/-- **The tail of a chain from the pool.** -/
theorem Counted.pbufAllocTail {r : PbufAddr} {rem : ℕ} {o : Option PbufAddr} {mem : List PbufAddr}
    (hc : Counted s (give handles (some p))) (hp : p.home = .pool ∧ (s.pbuf p).ref = 1)
    (hr : r ∈ s.live ∧ (s.pbuf r).next = none) (hmem : Fresh s .pool mem)
    (h : pbufAllocTail p r rem mem s = some (o, s')) : Counted s' (give handles o) := by
  induction mem generalizing s r rem with
  | nil =>
    rw [PbufHeap.pbufAllocTail] at h
    split_ifs at h
    · obtain ⟨rfl, rfl⟩ := Prod.mk.inj (Option.some.inj h)
      exact hc.congr (sameLinks_set rfl hp.2.symm rfl (hc.pool p hp.1).symm)
    · obtain ⟨⟨n, u⟩, hfree, heq⟩ := Option.map_eq_some_iff.1 h
      obtain ⟨rfl, rfl⟩ := Prod.mk.inj heq
      obtain ⟨n', u', hfree', hcu, -⟩ := hc.pbufFree (p := p) (by simp [give])
      obtain ⟨-, rfl⟩ := Prod.mk.inj (Option.some.inj (hfree.symm.trans hfree'))
      rwa [give_take_self] at hcu
  | cons q mem ih =>
    by_cases hrem : rem = 0
    · rw [PbufHeap.pbufAllocTail, if_pos hrem] at h
      obtain ⟨rfl, rfl⟩ := Prod.mk.inj (Option.some.inj h)
      exact hc.congr (sameLinks_set rfl hp.2.symm rfl (hc.pool p hp.1).symm)
    · obtain ⟨hq, hhome⟩ := hmem.2 q List.mem_cons_self
      have hpq : p ≠ q := ne_of_mem_of_not_mem hc.live_of_give hq
      have hrq : r ≠ q := ne_of_mem_of_not_mem hr.1 hq
      obtain ⟨-, hcall⟩ := pbufAllocTail_cons hrem h
      refine ih (hc.grow (n := poolNode rem) hr hq rfl rfl hhome.symm rfl) ⟨hp.1, (grow_pbuf hpq).trans hp.2⟩
        ⟨Finset.mem_insert_self _ _, ?_⟩ (hmem.obtain (poolNode rem)) hcall
      rw [setNext_pbuf_of_ne hrq.symm]
      simp [PbufHeap.obtain, poolNode]

/-- **`pbuf_alloc`** gives a handle on the chain that it returns. -/
theorem Counted.pbufAlloc {layer : PbufLayer} {length : ℕ} {type : PbufType} {o : Option PbufAddr}
    (hc : Counted s handles) (hmem : Fresh s type.home mem)
    (h : s.pbufAlloc layer length type mem = some (o, s')) : Counted s' (give handles o) := by
  obtain _ | ⟨p, mem⟩ := mem
  · obtain ⟨rfl, rfl⟩ := Prod.mk.inj (Option.some.inj h)
    exact hc
  rw [PbufHeap.pbufAlloc.eq_def] at h
  obtain ⟨hp, hhome⟩ := hmem.2 p List.mem_cons_self
  cases type with
  | pool =>
    simp only at h
    generalize hn : PbufNode.mk none (sizeofStructPbuf + memAlignSize layer.offset : ℤ) length
      (min length (pbufPoolBufsizeAligned - memAlignSize layer.offset)) .pool (s.pbuf p).isCustom 1 = n at h
    have hcustom : n.isCustom = false := by
      rw [← hn]
      exact hc.pool p hhome
    have hnew : (s.obtain p n).pbuf p = n := Function.update_self _ _ _
    have hcn := hc.obtain hp (n := n) (by rw [← hn]) (by rw [← hn]) ?_ fun _ ↦ hcustom
    · refine hcn.pbufAllocTail ⟨hhome, ?_⟩ ⟨Finset.mem_insert_self _ _, ?_⟩ (hmem.obtain n) h <;>
        rw [hnew, ← hn]
    · rw [hhome, PbufNode.home, hcustom, ← hn]
      rfl
  | ram | rom | ref =>
    obtain ⟨rfl, rfl⟩ := Prod.mk.inj (Option.some.inj h)
    exact hc.obtain hp rfl rfl hhome.symm fun _ ↦ rfl

/-- `pbuf_alloced_custom`. -/
theorem Counted.pbufAllocedCustom {layer : PbufLayer} {length : ℕ} {type : PbufType} {payload : Option ℤ}
    {payloadLen : ℕ} (hc : Counted s handles) (hp : p ∉ s.live) (hhome : p.home = .custom) :
    Counted (s.pbufAllocedCustom layer length type p payload payloadLen).2
      (give handles (s.pbufAllocedCustom layer length type p payload payloadLen).1) := by
  rw [PbufHeap.pbufAllocedCustom]
  split_ifs
  · exact hc
  · refine hc.obtain hp rfl rfl hhome.symm fun hpool ↦ ?_
    rw [hhome] at hpool
    cases hpool

/-- **`pbuf_coalesce`** gives up the handle on its argument if it returns another pbuf. -/
theorem Counted.pbufCoalesce {layer : PbufLayer} {r : PbufAddr} (hc : Counted s handles)
    (hp : 0 < handles p) (hmem : Fresh s .heap mem) (h : s.pbufCoalesce p layer mem = some (r, s')) :
    Counted s' (take (give handles (some r)) p) := by
  have hram : Fresh s PbufType.ram.home mem := hmem
  rw [PbufHeap.pbufCoalesce] at h
  split_ifs at h with hlive hnext
  · obtain ⟨rfl, rfl⟩ := Prod.mk.inj (Option.some.inj h)
    rwa [give_take_self]
  · split at h
    · cases h
    · next u halloc =>
      obtain ⟨rfl, rfl⟩ := Prod.mk.inj (Option.some.inj h)
      rw [give_take_self]
      exact hc.pbufAlloc hram halloc
    · next q u halloc =>
      obtain ⟨cs, -, h⟩ := Option.bind_eq_some_iff.1 h
      obtain ⟨⟨n, v⟩, hfree, heq⟩ := Option.map_eq_some_iff.1 h
      obtain ⟨rfl, rfl⟩ := Prod.mk.inj heq
      obtain ⟨n', v', hfree', hcv, -⟩ := (hc.pbufAlloc hram halloc).pbufFree (p := p)
        (Nat.lt_of_lt_of_le hp (Nat.le_add_right _ _))
      obtain ⟨-, rfl⟩ := Prod.mk.inj (Option.some.inj (hfree.symm.trans hfree'))
      exact hcv

end PbufHeap

/-! ### Runs -/

namespace PbufRun

open PbufHeap (Fresh Counted)

/-- **Proper use**: the allocators return places that are not in use; functions are called with pbufs
that are in use; callers give up handles that they own; and no count exceeds 65535. -/
def Proper : PbufCall → PbufRun → Prop
  | .alloc _ length type mem, s => length < 2 ^ 16 ∧ Fresh s.heap type.home mem
  | .allocedCustom _ length _ p _ _, s => length < 2 ^ 16 ∧ Fresh s.heap .custom [p]
  | .realloc p newLen _, s => p ∈ s.heap.live ∧ newLen < 2 ^ 16
  | .header p inc, s => p ∈ s.heap.live ∧ -2 ^ 15 ≤ inc ∧ inc < 2 ^ 15
  | .cat h t, s => h ∈ s.heap.live ∧ 0 < s.handles t
  | .chain h t, s => h ∈ s.heap.live ∧ t ∈ s.heap.live ∧ (s.heap.pbuf t).ref < 65535
  | .dechain p, s => p ∈ s.heap.live
  | .copy pTo pFrom, s => pTo ∈ s.heap.live ∧ pFrom ∈ s.heap.live
  | .copyPartial buf _ _, s => buf ∈ s.heap.live
  | .take buf _, s => buf ∈ s.heap.live
  | .coalesce p _ mem, s => 0 < s.handles p ∧ Fresh s.heap .heap mem
  | .ref p, s => p ∈ s.heap.live ∧ (s.heap.pbuf p).ref < 65535
  | .free p, s => 0 < s.handles p

instance (c : PbufCall) (s : PbufRun) : Decidable (Proper c s) := by
  cases c <;> unfold Proper <;> infer_instance

/-- Chains that are concatenated have no pbuf in common. -/
def Apart : PbufCall → PbufRun → Prop
  | .cat h t, s | .chain h t, s => ∀ a ∈ s.heap.chain h, a ∉ s.heap.chain t
  | _, _ => True

instance (c : PbufCall) (s : PbufRun) : Decidable (Apart c s) := by
  cases c <;> unfold Apart <;> infer_instance

variable {s s' : PbufRun} {c : PbufCall}

/-- **One call** keeps the counts right. -/
theorem counted_step (hc : Counted s.heap s.handles) (hproper : Proper c s) (hapart : Apart c s)
    (h : step c s = some s') : Counted s'.heap s'.handles := by
  cases c with
  | alloc layer length type mem =>
    obtain ⟨⟨o, u⟩, hcall, rfl⟩ := Option.map_eq_some_iff.1 h
    exact hc.pbufAlloc hproper.2 hcall
  | allocedCustom layer length type p payload payloadLen =>
    obtain rfl := Option.some.inj h
    obtain ⟨hp, hhome⟩ := hproper.2.2 p (List.mem_singleton_self p)
    exact hc.pbufAllocedCustom hp hhome
  | realloc p newLen trims =>
    obtain ⟨u, hcall, rfl⟩ := Option.map_eq_some_iff.1 h
    exact hc.pbufRealloc hcall
  | header p inc =>
    obtain ⟨⟨r, u⟩, hcall, rfl⟩ := Option.map_eq_some_iff.1 h
    exact hc.congr (PbufHeap.pbufHeader_sameLinks hcall)
  | cat h' t =>
    obtain ⟨u, hcall, rfl⟩ := Option.map_eq_some_iff.1 h
    exact hc.pbufCat hproper.1 hapart hproper.2 hcall
  | chain h' t =>
    obtain ⟨u, hcall, rfl⟩ := Option.map_eq_some_iff.1 h
    exact hc.pbufChain hproper.1 hapart hproper.2.1 hproper.2.2 hcall
  | dechain p =>
    obtain ⟨⟨o, u⟩, hcall, rfl⟩ := Option.map_eq_some_iff.1 h
    exact hc.pbufDechain hcall
  | copy pTo pFrom =>
    obtain ⟨cs, -, rfl⟩ := Option.map_eq_some_iff.1 h
    exact hc
  | copyPartial buf len offset =>
    obtain ⟨cs, -, rfl⟩ := Option.map_eq_some_iff.1 h
    exact hc
  | take buf len =>
    obtain ⟨cs, -, rfl⟩ := Option.map_eq_some_iff.1 h
    exact hc
  | coalesce p layer mem =>
    obtain ⟨⟨q, u⟩, hcall, rfl⟩ := Option.map_eq_some_iff.1 h
    exact hc.pbufCoalesce hproper.1 hproper.2 hcall
  | ref p =>
    obtain ⟨u, hcall, rfl⟩ := Option.map_eq_some_iff.1 h
    obtain ⟨u', hcall', hcu⟩ := hc.pbufRef hproper.1 hproper.2
    rwa [← Option.some.inj (hcall.symm.trans hcall')] at hcu
  | free p =>
    obtain ⟨⟨n, u⟩, hcall, rfl⟩ := Option.map_eq_some_iff.1 h
    obtain ⟨n', u', hcall', hcu, -⟩ := hc.pbufFree hproper
    obtain ⟨-, rfl⟩ := Prod.mk.inj (Option.some.inj (hcall.symm.trans hcall'))
    exact hcu

theorem counted_init : Counted init.heap init.handles := by
  have hcount : ∀ a, (init.heap.graph init.handles).count a = 0 := fun a ↦ rfl
  refine ⟨⟨fun a ↦ ?_, nofun⟩, nofun, nofun, fun _ _ ↦ rfl, fun _ ↦ rfl, nofun⟩
  rw [hcount]
  exact ⟨nofun, nofun⟩

/-- Proper use, without concatenating a chain to itself. -/
abbrev Careful (c : PbufCall) (s : PbufRun) : Prop := Proper c s ∧ Apart c s

theorem run_counted {cs : List PbufCall} (hrun : runLabels (guardStep Careful step) cs init = some s) :
    Counted s.heap s.handles := by
  refine runLabels_invariant (I := fun s : PbufRun ↦ Counted s.heap s.handles) counted_init
    (fun c u v hc hstep ↦ ?_) hrun
  obtain ⟨⟨hproper, hapart⟩, hcall⟩ := guardStep_eq_some.1 hstep
  exact counted_step hc hproper hapart hcall

/-- The number of pointers to a pbuf: handles of callers, and pbufs whose `next` points to it. -/
def pointers (s : PbufRun) (a : PbufAddr) : ℕ :=
  s.handles a + (s.heap.live.filter fun b ↦ (s.heap.pbuf b).next = some a).card

/-- **Reference counting is exact**, in every run in which callers give up only what they own and no
chain is concatenated to itself. A pbuf is in use as long as there are pointers to it, and its `ref` is
their number; it was given back as often as it was handed out, but for the time that it is in use, and to
where it came from. `pbuf_free` succeeds for every owner of a handle; and without handles all pbufs have
been given back. -/
theorem refs_exact (cs : List PbufCall) (s : PbufRun)
    (hrun : runLabels (guardStep Careful step) cs init = some s) :
    (∀ a, a ∈ s.heap.live ↔ 0 < s.pointers a) ∧
    (∀ a ∈ s.heap.live, (s.heap.pbuf a).ref = s.pointers a) ∧
    (∀ a, s.heap.allocated.count a =
      (s.heap.returned.map Prod.fst).count a + if a ∈ s.heap.live then 1 else 0) ∧
    (∀ x ∈ s.heap.returned, x.2 = x.1.home) ∧
    (∀ a, 0 < s.handles a → ∃ s', step (.free a) s = some s') ∧
    ((∀ a, s.handles a = 0) → s.heap.live = ∅ ∧
      ∀ a, s.heap.allocated.count a = (s.heap.returned.map Prod.fst).count a) := by
  have hc := run_counted hrun
  refine ⟨hc.ok.held, hc.ref, hc.balance, hc.returned, fun a ha ↦ ?_, fun hno ↦ ?_⟩
  · obtain ⟨n, u, hfree, -⟩ := hc.pbufFree ha
    exact ⟨⟨u, take s.handles a⟩, by rw [step, hfree, Option.map_some]⟩
  · have hempty : s.heap.live = ∅ := hc.ok.live_eq_empty hno
    refine ⟨hempty, fun a ↦ ?_⟩
    have hbalance := hc.balance a
    rwa [hempty, if_neg (Finset.notMem_empty a), Nat.add_zero] at hbalance

/-- A pbuf in the heap. -/
def exampleAddr (i : ℕ) : PbufAddr := ⟨.heap, i⟩

/-- Two pbufs share the third as their tail; then one of them is freed. -/
def exampleCalls : List PbufCall :=
  [.alloc .raw 10 .ram [exampleAddr 0], .alloc .raw 20 .ram [exampleAddr 1],
    .alloc .raw 30 .ram [exampleAddr 2], .chain (exampleAddr 0) (exampleAddr 2),
    .chain (exampleAddr 1) (exampleAddr 2), .free (exampleAddr 0)]

/-- The tail is left with a handle and a link, and the count of two is right. -/
theorem refs_exact_shared :
    ∃ s, runLabels (guardStep Careful step) exampleCalls init = some s ∧
      (s.heap.pbuf (exampleAddr 2)).ref = 2 ∧ s.heap.returned = [(exampleAddr 0, .heap)] ∧
      ∀ a ∈ s.heap.live, (s.heap.pbuf a).ref = s.pointers a := by
  refine exists_run_of_observe (fun s ↦ ((s.heap.pbuf (exampleAddr 2)).ref, s.heap.returned))
    (2, [(exampleAddr 0, .heap)]) (by decide) fun s hrun hobs ↦ ?_
  obtain ⟨href, hreturned⟩ := Prod.mk.inj hobs
  exact ⟨href, hreturned, (refs_exact exampleCalls s hrun).2.1⟩

/-- **A cycle leaks**: a pbuf that is chained to itself, by the owner of a handle who then frees it, is
never given back, though nobody owns a handle any more. -/
theorem cycle_leaks :
    ∃ s, runLabels (guardStep Proper step) [.alloc .raw 10 .ram [exampleAddr 0],
        .chain (exampleAddr 0) (exampleAddr 0), .free (exampleAddr 0)] init = some s ∧
      (∀ a, s.handles a = 0) ∧ exampleAddr 0 ∈ s.heap.live ∧ s.heap.allocated = [exampleAddr 0] ∧
      s.heap.returned = [] := by
  refine ⟨_, rfl, fun a ↦ ?_, ?_⟩
  · show take (give (fun _ ↦ 0) (some (exampleAddr 0))) (exampleAddr 0) a = 0
    rw [PbufHeap.give_take_self]
  · decide

end PbufRun

end Lwip.Core
