import LwipPoc.Core.PbufRefs

/-!
# Total lengths of pbufs

Every pbuf stores the length of its chain from itself on. The functions of the module change these
**totals** only along the chain that they are given; a pbuf that links to the middle of this chain from
outside keeps its own, which is then wrong (`total_stale`). So the totals are right in every run in which
no pbuf that a call leaves alone links to one whose total it changes (`totals_right`).

A pbuf whose total is its own length need not be the last one: the others may be empty.
-/

namespace Lwip.Core

open SharedChains (give take)

namespace PbufHeap

variable {s s' u s₀ : PbufHeap} {handles : PbufAddr → ℕ} {a b p q r t : PbufAddr} {n : PbufNode}
  {o : Option PbufAddr} {mem as : List PbufAddr}

/-- `p ? p->tot_len : 0`. -/
def totalOf (s : PbufHeap) : Option PbufAddr → ℕ
  | none => 0
  | some a => (s.pbuf a).totLen

/-- The total of a pbuf is right. -/
def TotalAt (s : PbufHeap) (a : PbufAddr) : Prop :=
  (s.pbuf a).totLen = (s.pbuf a).len + s.totalOf (s.pbuf a).next ∧ (s.pbuf a).totLen < 2 ^ 16

/-- **The totals are right.** -/
def Totals (s : PbufHeap) : Prop := ∀ a ∈ s.live, s.TotalAt a

theorem totalOf_congr (h : ∀ a ∈ o, (s'.pbuf a).totLen = (s.pbuf a).totLen) : s'.totalOf o = s.totalOf o := by
  cases o with
  | none => rfl
  | some a => exact h a rfl

/-- A total depends on the pbuf and the total behind it. -/
theorem TotalAt.congr (h : s.TotalAt a) (hlen : (s'.pbuf a).len = (s.pbuf a).len)
    (hnext : (s'.pbuf a).next = (s.pbuf a).next) (htot : (s'.pbuf a).totLen = (s.pbuf a).totLen)
    (hrest : s'.totalOf (s.pbuf a).next = s.totalOf (s.pbuf a).next) : s'.TotalAt a := by
  rw [TotalAt, hlen, hnext, htot, hrest]
  exact h

theorem Totals.congr (h : Totals s) (hlive : s'.live ⊆ s.live) (hpbuf : ∀ a, (s'.pbuf a).len = (s.pbuf a).len ∧
    (s'.pbuf a).next = (s.pbuf a).next ∧ (s'.pbuf a).totLen = (s.pbuf a).totLen) : Totals s' :=
  fun a ha ↦ (h a (hlive ha)).congr (hpbuf a).1 (hpbuf a).2.1 (hpbuf a).2.2
    (totalOf_congr fun b _ ↦ (hpbuf b).2.2)

theorem FreesOnly.lengths (h : FreesOnly s s') (a : PbufAddr) : (s'.pbuf a).len = (s.pbuf a).len ∧
    (s'.pbuf a).next = (s.pbuf a).next ∧ (s'.pbuf a).totLen = (s.pbuf a).totLen := by
  rw [h.pbuf a]
  exact ⟨rfl, rfl, rfl⟩

theorem Totals.frees (h : Totals s) (hframe : FreesOnly s s') : Totals s' :=
  h.congr hframe.live hframe.lengths

/-- A pbuf that is free for use is not linked to. -/
theorem Counted.not_linked (hc : Counted s handles) (ha : a ∉ s.live) (hb : b ∈ s.live) :
    (s.pbuf b).next ≠ some a := fun hnext ↦ ha (hc.ok.next_live hb hnext)

theorem setTotLen_pbuf (s : PbufHeap) (a : PbufAddr) (n : ℕ) (b : PbufAddr) :
    (s.setTotLen a n).pbuf b = { s.pbuf b with totLen := if b = a then n else (s.pbuf b).totLen } := by
  rcases eq_or_ne b a with rfl | hb
  · simp [setTotLen, set]
  · simp [setTotLen, set, hb]

theorem setRef_pbuf (s : PbufHeap) (a : PbufAddr) (n : ℕ) (b : PbufAddr) :
    (s.setRef a n).pbuf b = { s.pbuf b with ref := if b = a then n else (s.pbuf b).ref } := by
  rcases eq_or_ne b a with rfl | hb
  · simp [setRef, set]
  · simp [setRef, set, hb]

/-! ### Allocation -/

/-- A new pbuf at the end of its own chain. -/
theorem Totals.obtain (h : Totals s) (hc : Counted s handles) (ha : a ∉ s.live) (hnext : n.next = none)
    (htot : n.totLen = n.len) (hsmall : n.len < 2 ^ 16) : Totals (s.obtain a n) := by
  intro b hb
  rcases eq_or_ne b a with rfl | hne
  · rw [TotalAt]
    simp only [PbufHeap.obtain, Function.update_self, hnext, htot]
    exact ⟨rfl, hsmall⟩
  · have hb' : b ∈ s.live := (Finset.mem_insert.1 hb).resolve_left hne
    have hpbuf : (s.obtain a n).pbuf b = s.pbuf b := Function.update_of_ne hne _ _
    refine (h b hb').congr (by rw [hpbuf]) (by rw [hpbuf]) (by rw [hpbuf]) (totalOf_congr fun c hcb ↦ ?_)
    have hca : c ≠ a := by
      rintro rfl
      exact hc.not_linked ha hb' hcb
    exact congrArg PbufNode.totLen (Function.update_of_ne hca _ _)

/-- **While a chain from the pool is built** behind `r`, with `rem` bytes still to come: the old pbufs
are as before, and all totals are right but that of `r`, which counts these bytes already. -/
structure Building (s₀ s : PbufHeap) (p r : PbufAddr) (rem : ℕ) : Prop where
  old : ∀ a ∈ s₀.live, a ∈ s.live ∧ s.pbuf a = s₀.pbuf a
  fresh : p ∉ s₀.live ∧ r ∉ s₀.live
  last : r ∈ s.live ∧ (s.pbuf r).next = none
  totals : ∀ a ∈ s.live, a ≠ r → s.TotalAt a
  total : (s.pbuf r).totLen = (s.pbuf r).len + rem ∧ (s.pbuf r).totLen < 2 ^ 16

/-- The next pbuf is obtained and linked. -/
theorem Building.next {rem len : ℕ} (h : Building s₀ s p r rem) (hc : Counted s handles) (hq : q ∉ s.live)
    (hn : n.next = none ∧ n.totLen = rem ∧ n.len = len) (hlen : len ≤ rem) :
    Building s₀ ((s.obtain q n).setNext r (some q)) p q (rem - len) := by
  have hrq : r ≠ q := ne_of_mem_of_not_mem h.last.1 hq
  have hpbuf : ∀ b, b ≠ q → b ≠ r → ((s.obtain q n).setNext r (some q)).pbuf b = s.pbuf b :=
    fun b hbq hbr ↦ (setNext_pbuf_of_ne hbr).trans (Function.update_of_ne hbq _ _)
  have hnew : ((s.obtain q n).setNext r (some q)).pbuf q = n :=
    (setNext_pbuf_of_ne hrq.symm).trans (Function.update_self _ _ _)
  have hr : ((s.obtain q n).setNext r (some q)).pbuf r = { s.pbuf r with next := some q } := by
    rw [setNext_pbuf, if_pos rfl]
    simp [PbufHeap.obtain, hrq]
  have htot : ∀ b, b ≠ q → (((s.obtain q n).setNext r (some q)).pbuf b).totLen = (s.pbuf b).totLen := by
    intro b hbq
    rcases eq_or_ne b r with rfl | hbr
    · rw [hr]
    · rw [hpbuf b hbq hbr]
  have hremlt : rem < 2 ^ 16 := by
    have := h.total
    omega
  refine ⟨fun b hb ↦ ?_, ⟨h.fresh.1, fun hmem ↦ hq (h.old q hmem).1⟩,
    ⟨Finset.mem_insert_self _ _, ?_⟩, fun b hb hbq ↦ ?_, ?_⟩
  · obtain ⟨hbs, heq⟩ := h.old b hb
    refine ⟨Finset.mem_insert_of_mem hbs, ?_⟩
    rw [hpbuf b (ne_of_mem_of_not_mem hbs hq) (ne_of_mem_of_not_mem hb h.fresh.2), heq]
  · rw [hnew, hn.1]
  · have hbs : b ∈ s.live := (Finset.mem_insert.1 hb).resolve_left hbq
    rcases eq_or_ne b r with rfl | hbr
    · rw [TotalAt, hr]
      show _ = _ + (((s.obtain q n).setNext b (some q)).pbuf q).totLen ∧ _
      rw [hnew, hn.2.1]
      exact h.total
    · have hb' := hpbuf b hbq hbr
      refine (h.totals b hbs hbr).congr (by rw [hb']) (by rw [hb']) (by rw [hb'])
        (totalOf_congr fun c hcb ↦ htot c ?_)
      rintro rfl
      exact hc.not_linked hq hbs hcb
  · rw [hnew, hn.2.1, hn.2.2]
    omega

/-- No bytes are left: that was the last pbuf. -/
theorem Building.done {rem : ℕ} (h : Building s₀ s p r rem) (hrem : rem = 0)
    (hn : n.len = (s.pbuf p).len ∧ n.next = (s.pbuf p).next ∧ n.totLen = (s.pbuf p).totLen) :
    Totals (s.set p n) := by
  have htotals : Totals s := by
    intro a ha
    rcases eq_or_ne a r with rfl | har
    · have htotal := h.total
      rw [hrem] at htotal
      rw [TotalAt, h.last.2]
      exact htotal
    · exact h.totals a ha har
  refine htotals.congr subset_rfl fun a ↦ ?_
  rcases eq_or_ne a p with rfl | hap
  · simp only [set, Function.update_self]
    exact hn
  · simp [set, hap]

/-- **What an allocation leaves**: if it succeeds, all totals are right; if not, the pbufs from before. -/
theorem Building.pbufAllocTail {rem : ℕ} (h : Building s₀ s p r rem) (hc₀ : Counted s₀ handles)
    (hc : Counted s (give handles (some p))) (hp : p.home = .pool ∧ (s.pbuf p).ref = 1)
    (hmem : Fresh s .pool mem) (hcall : pbufAllocTail p r rem mem s = some (o, s')) : Totals s' := by
  induction mem generalizing s r rem with
  | nil =>
    rw [PbufHeap.pbufAllocTail] at hcall
    split_ifs at hcall with hrem
    · obtain ⟨-, rfl⟩ := Prod.mk.inj (Option.some.inj hcall)
      exact h.done hrem ⟨rfl, rfl, rfl⟩
    · obtain ⟨⟨k, v⟩, hfree, heq⟩ := Option.map_eq_some_iff.1 hcall
      obtain ⟨-, rfl⟩ := Prod.mk.inj heq
      obtain ⟨k', v', hfree', hcv, hframe⟩ := hc.pbufFree (p := p) (by simp [give])
      obtain ⟨-, rfl⟩ := Prod.mk.inj (Option.some.inj (hfree.symm.trans hfree'))
      rw [give_take_self] at hcv
      -- of the new pbufs, none is left
      have hold : ∀ a ∈ v.live, a ∈ s₀.live := by
        intro a ha
        by_contra hno
        refine hcv.ok.not_live (S := fun a ↦ a ∉ s₀.live) (fun b hb ↦ (hc₀.ok.handles_of_not_live hb).1)
          (fun b hb c hcs hbc hbs ↦ hcs ?_) hno ha
        have hnext : (v.pbuf b).next = some c := hbc
        rw [(hframe.lengths b).2.1, (h.old b hbs).2] at hnext
        exact hc₀.ok.next_live hbs hnext
      intro a ha
      have hs₀ := hold a ha
      have htotal := h.totals a (h.old a hs₀).1 (ne_of_mem_of_not_mem hs₀ h.fresh.2)
      exact htotal.congr (hframe.lengths a).1 (hframe.lengths a).2.1 (hframe.lengths a).2.2
        (totalOf_congr fun b _ ↦ (hframe.lengths b).2.2)
  | cons q mem ih =>
    by_cases hrem : rem = 0
    · rw [PbufHeap.pbufAllocTail, if_pos hrem] at hcall
      obtain ⟨-, rfl⟩ := Prod.mk.inj (Option.some.inj hcall)
      exact h.done hrem ⟨rfl, rfl, rfl⟩
    · obtain ⟨hq, hhome⟩ := hmem.2 q List.mem_cons_self
      have hpq : p ≠ q := ne_of_mem_of_not_mem hc.live_of_give hq
      obtain ⟨-, hcall⟩ := pbufAllocTail_cons hrem hcall
      have hnext := h.next hc hq (n := poolNode rem) ⟨rfl, rfl, rfl⟩ (Nat.min_le_left _ _)
      exact ih hnext (hc.grow (n := poolNode rem) h.last hq rfl rfl hhome.symm rfl) ⟨hp.1, (grow_pbuf hpq).trans hp.2⟩
        (hmem.obtain (poolNode rem)) hcall

/-- **`pbuf_alloc`**: the lengths of the chain add up to the one that was asked for. -/
theorem Totals.pbufAlloc {layer : PbufLayer} {length : ℕ} {type : PbufType} (h : Totals s)
    (hc : Counted s handles) (hlength : length < 2 ^ 16) (hmem : Fresh s type.home mem)
    (hcall : s.pbufAlloc layer length type mem = some (o, s')) : Totals s' := by
  obtain _ | ⟨p, mem⟩ := mem
  · obtain ⟨-, rfl⟩ := Prod.mk.inj (Option.some.inj hcall)
    exact h
  rw [PbufHeap.pbufAlloc.eq_def] at hcall
  obtain ⟨hp, hhome⟩ := hmem.2 p List.mem_cons_self
  cases type with
  | pool =>
    simp only at hcall
    generalize hlen : min length (pbufPoolBufsizeAligned - memAlignSize layer.offset) = len at hcall
    generalize hn : PbufNode.mk none (sizeofStructPbuf + memAlignSize layer.offset : ℤ) length len .pool
      (s.pbuf p).isCustom 1 = n at hcall
    have hcustom : n.isCustom = false := by
      rw [← hn]
      exact hc.pool p hhome
    have hnew : (s.obtain p n).pbuf p = n := Function.update_self _ _ _
    have hold : ∀ a ∈ s.live, (s.obtain p n).pbuf a = s.pbuf a := fun a ha ↦
      Function.update_of_ne (ne_of_mem_of_not_mem ha hp) _ _
    have hcn := hc.obtain hp (n := n) (by rw [← hn]) (by rw [← hn]) ?_ fun _ ↦ hcustom
    · have hbuilding : Building s (s.obtain p n) p p (length - len) := by
        refine ⟨fun a ha ↦ ⟨Finset.mem_insert_of_mem ha, hold a ha⟩, ⟨hp, hp⟩,
          ⟨Finset.mem_insert_self _ _, by rw [hnew, ← hn]⟩, fun a ha hap ↦ ?_, ?_⟩
        · have has : a ∈ s.live := (Finset.mem_insert.1 ha).resolve_left hap
          have ha' := hold a has
          refine (h a has).congr (by rw [ha']) (by rw [ha']) (by rw [ha']) (totalOf_congr fun b hb ↦ ?_)
          rw [hold b (hc.ok.next_live has hb)]
        · rw [hnew, ← hn]
          have hle : len ≤ length := hlen ▸ Nat.min_le_left _ _
          show length = len + (length - len) ∧ length < 2 ^ 16
          omega
      exact hbuilding.pbufAllocTail hc hcn ⟨hhome, by rw [hnew, ← hn]⟩ (hmem.obtain n) hcall
    · rw [hhome, PbufNode.home, hcustom, ← hn]
      rfl
  | ram | rom | ref =>
    obtain ⟨-, rfl⟩ := Prod.mk.inj (Option.some.inj hcall)
    exact h.obtain hc hp rfl rfl hlength

/-! ### Lengths -/

/-- **Lengths change only where nothing else looks**: pbufs that keep their fields and do not link to
changed ones keep their totals. -/
theorem TotalAt.frame (h : s.TotalAt a) (ha : s'.pbuf a = s.pbuf a)
    (hnext : ∀ b, (s.pbuf a).next = some b → (s'.pbuf b).totLen = (s.pbuf b).totLen) : s'.TotalAt a :=
  h.congr (by rw [ha]) (by rw [ha]) (by rw [ha]) (totalOf_congr hnext)

/-- A pbuf does not link to itself. -/
theorem Counted.next_ne (hc : Counted s handles) (ha : a ∈ s.live) : (s.pbuf a).next ≠ some a := by
  intro hnext
  obtain ⟨as, has⟩ := hc.ok.chain_next ha
  have hchain : (s.graph handles).Chain (some a) (a :: as) := ⟨rfl, ha, has⟩
  obtain _ | ⟨b, as⟩ := as
  · have hnone : (s.pbuf a).next = none := has
    rw [hnext] at hnone
    cases hnone
  · obtain ⟨hb, -⟩ := has
    have hb' : (s.pbuf a).next = some b := hb
    rw [hnext] at hb'
    obtain rfl := Option.some.inj hb'
    exact (List.nodup_cons.1 hchain.nodup).1 List.mem_cons_self

/-- **`pbuf_header`**, if it fails or no pbuf links to this one. -/
theorem Totals.pbufHeader {inc : ℤ} {k : ℕ} (h : Totals s) (hc : Counted s handles)
    (hfits : ((s.pbuf p).totLen : ℤ) + inc < 2 ^ 16)
    (halone : k = 0 → inc ≠ 0 → ∀ b ∈ s.live, (s.pbuf b).next ≠ some p)
    (hcall : s.pbufHeader p inc = some (k, s')) : Totals s' := by
  rw [PbufHeap.pbufHeader] at hcall
  by_cases hp : p ∈ s.live
  swap
  · rw [if_neg hp] at hcall
    cases hcall
  rw [if_pos hp] at hcall
  by_cases hzero : inc = 0
  · rw [if_pos hzero] at hcall
    obtain ⟨-, rfl⟩ := Prod.mk.inj (Option.some.inj hcall)
    exact h
  rw [if_neg hzero] at hcall
  by_cases hlong : inc < 0 ∧ ((s.pbuf p).len : ℤ) < -inc
  · rw [if_pos hlong] at hcall
    cases hcall
  rw [if_neg hlong] at hcall
  have hmoved : (∀ b ∈ s.live, (s.pbuf b).next ≠ some p) → Totals (s.set p { s.pbuf p with
      payload := (s.pbuf p).payload - inc
      len := (((s.pbuf p).len + inc) % 2 ^ 16).toNat
      totLen := (((s.pbuf p).totLen + inc) % 2 ^ 16).toNat }) := by
    intro halone a ha
    have hother : ∀ b, b ≠ p → ∀ n, (s.set p n).pbuf b = s.pbuf b := fun b hb n ↦ Function.update_of_ne hb _ _
    rcases eq_or_ne a p with rfl | hap
    · have htotal := h a hp
      have hrest : ∀ n, (s.set a n).totalOf (s.pbuf a).next = s.totalOf (s.pbuf a).next := fun n ↦
        totalOf_congr fun b hb ↦ by
          rw [hother b (by
            rintro rfl
            exact hc.next_ne hp hb)]
      rw [TotalAt] at htotal ⊢
      simp only [set, Function.update_self]
      have hrest' := hrest { s.pbuf a with
        payload := (s.pbuf a).payload - inc
        len := (((s.pbuf a).len + inc) % 2 ^ 16).toNat
        totLen := (((s.pbuf a).totLen + inc) % 2 ^ 16).toNat }
      rw [set] at hrest'
      rw [hrest']
      have hpos : 0 ≤ ((s.pbuf a).len : ℤ) + inc := by
        by_contra hneg
        exact hlong ⟨by omega, by omega⟩
      rw [Int.emod_eq_of_lt hpos (by omega), Int.emod_eq_of_lt (by omega) hfits]
      omega
    · refine (h a ha).frame (hother a hap _) fun b hb ↦ ?_
      rw [hother b]
      rintro rfl
      exact halone a ha hb
  simp only at hcall
  split at hcall <;> split at hcall <;> obtain ⟨rfl, rfl⟩ := Prod.mk.inj (Option.some.inj hcall)
  all_goals first
    | exact h
    | exact hmoved (halone rfl hzero)

/-! ### Concatenation -/

/-- The totals along a chain get smaller. -/
theorem totLen_le_of_chain (hchain : (s.graph handles).Chain (some p) as) (h : Totals s) (ha : a ∈ as) :
    (s.pbuf a).totLen ≤ (s.pbuf p).totLen := by
  induction as generalizing p with
  | nil => cases ha
  | cons b as ih =>
    obtain ⟨hb, hlive, hrest⟩ := hchain
    obtain rfl := Option.some.inj hb
    rcases List.mem_cons.1 ha with rfl | ha
    · exact Nat.le_refl _
    · have htotal := (h p hlive).1
      have hrest' : (s.graph handles).Chain (s.pbuf p).next as := hrest
      cases hnext : (s.pbuf p).next with
      | none =>
        rw [hnext] at hrest'
        cases as with
        | nil => cases ha
        | cons => exact absurd hrest'.1 (by simp)
      | some c =>
        rw [hnext] at hrest' htotal
        have hle := ih hrest' ha
        have htotal' : (s.pbuf p).totLen = (s.pbuf p).len + (s.pbuf c).totLen := htotal
        omega

/-- **What the walk of `pbuf_cat` does** to the chain that it walks along. -/
theorem pbufCatWalk_pbuf {fuel : ℕ} (h : pbufCatWalk t fuel p s = some s')
    (hchain : (s.graph handles).Chain (some p) as) (ht : t ∉ as) :
    s'.live = s.live ∧ (∀ b, b ∉ as → s'.pbuf b = s.pbuf b) ∧
    ∀ b ∈ as, (s'.pbuf b).len = (s.pbuf b).len ∧
      (s'.pbuf b).totLen = ((s.pbuf b).totLen + (s.pbuf t).totLen) % 2 ^ 16 ∧
      (s'.pbuf b).next = ((s.pbuf b).next.or (some t)) ∧
      ((s.pbuf b).next = none → (s.pbuf b).totLen = (s.pbuf b).len) := by
  induction fuel generalizing s p as with
  | zero => cases h
  | succ fuel ih =>
    obtain _ | ⟨b, as⟩ := as
    · cases hchain
    have hp : p ∉ as := by
      obtain rfl := Option.some.inj hchain.1
      exact (List.nodup_cons.1 hchain.nodup).1
    obtain ⟨hb, hlive, hrest⟩ := hchain
    obtain rfl := Option.some.inj hb
    have hlive' : p ∈ s.live := hlive
    obtain ⟨htp, ht⟩ := not_or.1 (List.mem_cons.not.1 ht)
    generalize htotal : ((s.pbuf p).totLen + (s.pbuf t).totLen) % 2 ^ 16 = total at h
    have hpbuf := setTotLen_pbuf s p total
    rw [pbufCatWalk, if_pos hlive', htotal] at h
    have hrest' : (s.graph handles).Chain (s.pbuf p).next as := hrest
    cases hnext : (s.pbuf p).next with
    | none =>
      rw [hnext] at h hrest'
      simp only at h
      split_ifs at h with hlast
      obtain rfl := Option.some.inj h
      have has : as = [] := by
        cases as with
        | nil => rfl
        | cons => exact absurd hrest'.1 (by simp)
      subst has
      refine ⟨rfl, fun b hb ↦ ?_, fun b hb ↦ ?_⟩
      · have hbp : b ≠ p := fun heq ↦ hb (heq ▸ List.mem_singleton_self _)
        rw [setNext_pbuf_of_ne hbp, hpbuf, if_neg hbp]
      · obtain rfl := List.mem_singleton.1 hb
        rw [setNext_pbuf, hpbuf, if_pos rfl, if_pos rfl, hnext]
        exact ⟨rfl, htotal.symm, rfl, fun _ ↦ hlast⟩
    | some q =>
      rw [hnext] at h hrest'
      simp only at h
      have hsame := sameLinks_setTotLen s p total
      obtain ⟨hl, hout, hin⟩ := ih h (hsame.graph ▸ hrest') ht
      refine ⟨hl, fun b hb ↦ ?_, fun b hb ↦ ?_⟩
      · obtain ⟨hbp, hb⟩ := not_or.1 (List.mem_cons.not.1 hb)
        rw [hout b hb, hpbuf, if_neg hbp]
      · rcases List.mem_cons.1 hb with rfl | hb
        · rw [hout b hp, hpbuf, if_pos rfl, hnext]
          exact ⟨rfl, htotal.symm, rfl, fun hno ↦ absurd hno (by simp)⟩
        · have hbp : b ≠ p := ne_of_mem_of_not_mem hb hp
          have hbs := hpbuf b
          rw [if_neg hbp] at hbs
          have hts := hpbuf t
          rw [if_neg htp] at hts
          have hb' := hin b hb
          rwa [hbs, hts] at hb'

/-- **`pbuf_cat`**, if the second chain is empty or no other pbuf links into the first. -/
theorem Totals.pbufCat {h : PbufAddr} (htotals : Totals s) (hc : Counted s handles) (hh : h ∈ s.live)
    (hapart : ∀ a ∈ s.chain h, a ∉ s.chain t) (hfits : (s.pbuf h).totLen + (s.pbuf t).totLen < 2 ^ 16)
    (halone : (s.pbuf t).totLen ≠ 0 → ∀ a ∈ s.chain h, ∀ b ∈ s.live, (s.pbuf b).next = some a →
      b ∈ s.chain h) (hcat : s.pbufCat h t = some s') : Totals s' := by
  rw [PbufHeap.pbufCat] at hcat
  split_ifs at hcat with ht
  have hchain := hc.chain hh
  have htmem : t ∉ s.chain h := fun hmem ↦ hapart t hmem List.mem_cons_self
  obtain ⟨hlive, hout, hin⟩ := pbufCatWalk_pbuf hcat hchain htmem
  have htot : ∀ b ∈ s.chain h, (s'.pbuf b).totLen = (s.pbuf b).totLen + (s.pbuf t).totLen := by
    intro b hb
    have hle := totLen_le_of_chain hchain htotals hb
    rw [(hin b hb).2.1]
    exact Nat.mod_eq_of_lt (by omega)
  intro b hb
  rw [hlive] at hb
  by_cases hbh : b ∈ s.chain h
  · obtain ⟨hlen, -, hnext, hlast⟩ := hin b hbh
    have htotal := (htotals b hb).1
    have hle := totLen_le_of_chain hchain htotals hbh
    rw [TotalAt, hlen, hnext, htot b hbh]
    refine ⟨?_, by omega⟩
    cases hb' : (s.pbuf b).next with
    | none =>
      rw [hb', totalOf, Nat.add_zero] at htotal
      show _ = (s.pbuf b).len + (s'.pbuf t).totLen
      rw [hout t htmem, htotal]
    | some c =>
      have hch : c ∈ s.chain h := hchain.next_mem hbh hb'
      rw [hb'] at htotal
      show _ = (s.pbuf b).len + (s'.pbuf c).totLen
      have htotal' : (s.pbuf b).totLen = (s.pbuf b).len + (s.pbuf c).totLen := htotal
      rw [htot c hch, htotal', Nat.add_assoc]
  · refine (htotals b hb).frame (hout b hbh) fun c hcb ↦ ?_
    by_cases hch : c ∈ s.chain h
    · have hzero : (s.pbuf t).totLen = 0 := by
        by_contra hne
        exact hbh (halone hne c hch b hb hcb)
      rw [htot c hch, hzero, Nat.add_zero]
    · rw [hout c hch]

/-- **`pbuf_dechain`**, if the rest is empty or no pbuf links to this one. -/
theorem Totals.pbufDechain (h : Totals s) (hc : Counted s handles)
    (halone : ∀ q, (s.pbuf p).next = some q → (s.pbuf q).totLen ≠ 0 → ∀ b ∈ s.live,
      (s.pbuf b).next ≠ some p) (hcall : s.pbufDechain p = some (o, s')) : Totals s' := by
  obtain ⟨hp, ⟨-, rfl⟩ | ⟨q, n, hnext, htot, hfree⟩⟩ := pbufDechain_cases hcall
  · exact h
  obtain ⟨n', u, hu, -, hframe⟩ := (hc.dechained hp hnext).pbufFreeLoop 0 (Nat.lt_succ_self _)
  obtain ⟨-, rfl⟩ := Prod.mk.inj (Option.some.inj (hfree.symm.trans hu))
  have hpq : p ≠ q := fun heq ↦ hc.next_ne hp (heq ▸ hnext)
  have hother : ∀ b, b ≠ p → (s.dechained p q).pbuf b = s.pbuf b := by
    intro b hb
    rw [dechained, setTotLen_pbuf, if_neg hb, setNext_pbuf, if_neg hb, setTotLen_pbuf]
    split_ifs with hbq
    · rw [hbq, ← htot, Nat.add_sub_cancel]
    · rfl
  have hself : (s.dechained p q).pbuf p = { s.pbuf p with next := none, totLen := (s.pbuf p).len } := by
    rw [dechained, setTotLen_pbuf, if_pos rfl, setNext_pbuf, if_pos rfl, setTotLen_pbuf, if_neg hpq]
  have hsep : Totals (s.dechained p q) := by
    intro b hb
    have hb' : b ∈ s.live := hb
    rcases eq_or_ne b p with rfl | hbp
    · rw [TotalAt, hself]
      have hle : (s.pbuf b).len ≤ (s.pbuf b).totLen := by omega
      exact ⟨rfl, Nat.lt_of_le_of_lt hle (h b hp).2⟩
    · refine (h b hb').frame (hother b hbp) fun c hcb ↦ ?_
      rcases eq_or_ne c p with rfl | hcp
      · have hzero : (s.pbuf q).totLen = 0 := by
          by_contra hne
          exact halone q hnext hne b hb' hcb
        rw [hself]
        show (s.pbuf c).len = _
        omega
      · rw [hother c hcp]
  exact hsep.frees hframe

/-! ### Shortening -/

/-- The pbufs that `pbuf_realloc` keeps. -/
def reallocKept (s : PbufHeap) : ℕ → ℕ → PbufAddr → List PbufAddr
  | 0, _, _ => []
  | fuel + 1, rem, q =>
    q :: if (s.pbuf q).len < rem then
      match (s.pbuf q).next with
      | none => []
      | some q' => reallocKept s fuel (rem - (s.pbuf q).len) q'
    else []

theorem reallocKept_congr {fuel rem : ℕ} (h : ∀ a, (s'.pbuf a).len = (s.pbuf a).len ∧
    (s'.pbuf a).next = (s.pbuf a).next) : s'.reallocKept fuel rem p = s.reallocKept fuel rem p := by
  induction fuel generalizing rem p with
  | zero => rfl
  | succ fuel ih =>
    rw [reallocKept, reallocKept, (h p).1, (h p).2]
    cases (s.pbuf p).next with
    | none => rfl
    | some q => simp only [ih]

/-- The new last pbuf gets its length, and is cut off. -/
def shortened (u : PbufHeap) (q : PbufAddr) (rem : ℕ) : PbufHeap :=
  (u.set q { u.pbuf q with len := rem, totLen := rem }).setNext q none

theorem shortened_pbuf (u : PbufHeap) (q : PbufAddr) (rem : ℕ) (b : PbufAddr) :
    (u.shortened q rem).pbuf b =
      if b = q then { u.pbuf q with next := none, len := rem, totLen := rem } else u.pbuf b := by
  rw [shortened, setNext_pbuf]
  split_ifs with hb
  · simp [set, hb]
  · simp [set, hb]

/-- **The walk of `pbuf_realloc`** makes the totals of the pbufs that remain right. -/
theorem reallocWalk_totals {grow fuel rem rem' : ℕ}
    (h : pbufReallocWalk grow fuel rem p s = some ((q, rem'), u))
    (hchain : (s.graph handles).Chain (some p) as) (htotals : ∀ a ∈ as, s.TotalAt a)
    (hrem : rem < (s.pbuf p).totLen) (hgrow : ((s.pbuf p).totLen + grow) % 2 ^ 16 = rem) :
    s.reallocKept fuel rem p ⊆ as ∧ (∀ b, b ∉ s.reallocKept fuel rem p →
      (u.shortened q rem').pbuf b = s.pbuf b) ∧ ((u.shortened q rem').pbuf p).totLen = rem ∧
    ∀ a ∈ s.reallocKept fuel rem p, (u.shortened q rem').TotalAt a := by
  induction fuel generalizing s p rem as with
  | zero => cases h
  | succ fuel ih =>
    obtain _ | ⟨b, as⟩ := as
    · cases hchain
    have hnodup := hchain.nodup
    obtain ⟨hb, hlive, hrest⟩ := hchain
    obtain rfl := Option.some.inj hb
    have hp : p ∉ as := (List.nodup_cons.1 hnodup).1
    have hlive' : p ∈ s.live := hlive
    have htotal := htotals p List.mem_cons_self
    rw [pbufReallocWalk, if_pos hlive'] at h
    rw [reallocKept]
    by_cases hkeep : (s.pbuf p).len < rem
    · rw [if_pos hkeep] at h ⊢
      have hrest' : (s.graph handles).Chain (s.pbuf p).next as := hrest
      cases hnext : (s.pbuf p).next with
      | none =>
        rw [hnext] at h
        cases h
      | some q' =>
        rw [hnext] at h hrest'
        rw [TotalAt, hnext] at htotal
        simp only at h
        have htotal' : (s.pbuf p).totLen = (s.pbuf p).len + (s.pbuf q').totLen := htotal.1
        generalize hs₁ : s.setTotLen p (((s.pbuf p).totLen + grow) % 2 ^ 16) = s₁ at h
        have hsame : SameLinks s s₁ := hs₁ ▸ sameLinks_setTotLen ..
        have hpbuf : ∀ b, s₁.pbuf b = { s.pbuf b with totLen := if b = p then rem else (s.pbuf b).totLen } := by
          intro b
          rw [← hs₁, setTotLen_pbuf, hgrow]
        have hother : ∀ b, b ≠ p → s₁.pbuf b = s.pbuf b := fun b hb ↦ by rw [hpbuf, if_neg hb]
        have hq' : q' ≠ p := fun heq ↦ by
          refine hp (heq ▸ ?_)
          cases as with
          | nil => cases hrest'
          | cons c as =>
            obtain rfl := Option.some.inj hrest'.1
            exact List.mem_cons_self
        have hkept : s₁.reallocKept fuel (rem - (s.pbuf p).len) q' =
            s.reallocKept fuel (rem - (s.pbuf p).len) q' := by
          refine reallocKept_congr fun a ↦ ?_
          rw [hpbuf]
          exact ⟨rfl, rfl⟩
        -- behind this pbuf nothing has changed yet
        have hbehind : ∀ a ∈ as, s₁.TotalAt a := fun a ha ↦ by
          refine (htotals a (List.mem_cons_of_mem _ ha)).frame (hother a (ne_of_mem_of_not_mem ha hp))
            fun c hc ↦ congrArg PbufNode.totLen (hother c (ne_of_mem_of_not_mem ?_ hp))
          exact hrest'.next_mem ha hc
        obtain ⟨hsub, hout, htot, hin⟩ := ih h (hsame.graph ▸ hrest') hbehind
          (by rw [hother q' hq']; omega) (by rw [hother q' hq']; omega)
        rw [hkept] at hsub hout hin
        have hpk : p ∉ s.reallocKept fuel (rem - (s.pbuf p).len) q' := fun hmem ↦ hp (hsub hmem)
        have hself := hout p hpk
        rw [hpbuf, if_pos rfl] at hself
        refine ⟨fun b hb ↦ ?_, fun b hb ↦ ?_, ?_, fun a ha ↦ ?_⟩
        · rcases List.mem_cons.1 hb with rfl | hb
          · exact List.mem_cons_self
          · exact List.mem_cons_of_mem _ (hsub hb)
        · obtain ⟨hbp, hb⟩ := not_or.1 (List.mem_cons.not.1 hb)
          rw [hout b hb, hother b hbp]
        · rw [hself]
        · rcases List.mem_cons.1 ha with rfl | ha
          · rw [TotalAt, hself, hnext]
            show rem = (s.pbuf a).len + ((u.shortened q rem').pbuf q').totLen ∧ rem < 2 ^ 16
            rw [htot]
            exact ⟨by omega, hrem.trans htotal.2⟩
          · exact hin a ha
    · rw [if_neg hkeep] at h ⊢
      obtain ⟨hq, rfl⟩ := Prod.mk.inj (Option.some.inj h)
      obtain ⟨rfl, rfl⟩ := Prod.mk.inj hq
      have hpbuf := shortened_pbuf s p rem
      refine ⟨fun b hb ↦ ?_, fun b hb ↦ ?_, ?_, fun a ha ↦ ?_⟩
      · rw [List.mem_singleton.1 hb]
        exact List.mem_cons_self
      · rw [hpbuf, if_neg fun heq ↦ hb (List.mem_singleton.2 heq)]
      · rw [hpbuf, if_pos rfl]
      · rw [List.mem_singleton.1 ha, TotalAt, hpbuf, if_pos rfl]
        exact ⟨rfl, hrem.trans htotal.2⟩

/-- **`pbuf_realloc`**, if no other pbuf links to those that it keeps. -/
theorem Totals.pbufRealloc {newLen : ℕ} {trims : Bool} (h : Totals s) (hc : Counted s handles)
    (hlen : newLen < 2 ^ 16)
    (halone : newLen < (s.pbuf p).totLen → ∀ a ∈ s.reallocKept s.steps newLen p, ∀ b ∈ s.live,
      (s.pbuf b).next = some a → b ∈ s.reallocKept s.steps newLen p)
    (hcall : s.pbufRealloc p newLen trims = some s') : Totals s' := by
  obtain ⟨hp, ⟨-, rfl⟩ | ⟨hshort, q, rem, u, hwalk, hfree⟩⟩ := pbufRealloc_cases hcall
  · exact h
  obtain ⟨hcu, hq⟩ := hc.shortened hp hwalk
  have hframe : FreesOnly (u.shortened q rem) s' := (hcu.freeRest hq hfree).2
  have hchain := hc.chain hp
  obtain ⟨hsame, -⟩ := pbufReallocWalk_spec hwalk hchain
  have hsmall := (h p hp).2
  obtain ⟨-, hout, -, hin⟩ := reallocWalk_totals hwalk hchain (fun a ha ↦ h a (hchain.mem_live ha)) hshort
    (by omega)
  have hshortened : Totals (u.shortened q rem) := by
    intro b hb
    have hb' : b ∈ s.live := by
      rw [← hsame.live]
      exact hb
    by_cases hbk : b ∈ s.reallocKept s.steps newLen p
    · exact hin b hbk
    · refine (h b hb').frame (hout b hbk) fun c hcb ↦ ?_
      rw [hout c fun hck ↦ hbk (halone hshort c hck b hb' hcb)]
  exact hshortened.frees hframe

/-- **`pbuf_coalesce`**. -/
theorem Totals.pbufCoalesce {layer : PbufLayer} (h : Totals s) (hc : Counted s handles)
    (hp : 0 < handles p) (hmem : Fresh s .heap mem) (hcall : s.pbufCoalesce p layer mem = some (q, s')) :
    Totals s' := by
  have hram : Fresh s PbufType.ram.home mem := hmem
  rw [PbufHeap.pbufCoalesce] at hcall
  split_ifs at hcall with hlive hnext
  · obtain ⟨-, rfl⟩ := Prod.mk.inj (Option.some.inj hcall)
    exact h
  · have hsmall := (h p hlive).2
    split at hcall
    · cases hcall
    · next u halloc =>
      obtain ⟨-, rfl⟩ := Prod.mk.inj (Option.some.inj hcall)
      exact h.pbufAlloc hc hsmall hram halloc
    · next q u halloc =>
      obtain ⟨cs, -, hcall⟩ := Option.bind_eq_some_iff.1 hcall
      obtain ⟨⟨n, v⟩, hfree, heq⟩ := Option.map_eq_some_iff.1 hcall
      obtain ⟨-, rfl⟩ := Prod.mk.inj heq
      obtain ⟨n', v', hfree', -, hframe⟩ := (hc.pbufAlloc hram halloc).pbufFree (p := p)
        (Nat.lt_of_lt_of_le hp (Nat.le_add_right _ _))
      obtain ⟨-, rfl⟩ := Prod.mk.inj (Option.some.inj (hfree.symm.trans hfree'))
      exact (h.pbufAlloc hc hsmall hram halloc).frees hframe

end PbufHeap

/-! ### Runs -/

namespace PbufRun

open PbufHeap (Counted)

/-- The pbufs whose total a call changes. -/
def changes : PbufCall → PbufHeap → List PbufAddr
  | .realloc p newLen _, s =>
    if newLen < (s.pbuf p).totLen then s.reallocKept s.steps newLen p else []
  | .header p inc, s => if inc ≠ 0 ∧ ((s.pbufHeader p inc).map Prod.fst) = some 0 then [p] else []
  | .cat h t, s | .chain h t, s => if (s.pbuf t).totLen ≠ 0 then s.chain h else []
  | .dechain p, s => if s.totalOf (s.pbuf p).next ≠ 0 then [p] else []
  | _, _ => []

/-- **No other pbuf links to one whose total the call changes**. -/
def Unshared (c : PbufCall) (s : PbufRun) : Prop :=
  ∀ a ∈ changes c s.heap, ∀ b ∈ s.heap.live, (s.heap.pbuf b).next = some a → b ∈ changes c s.heap

instance (c : PbufCall) (s : PbufRun) : Decidable (Unshared c s) := by
  unfold Unshared
  infer_instance

/-- The call makes no packet longer than 65535 bytes. -/
def Fits : PbufCall → PbufRun → Prop
  | .header p inc, s => ((s.heap.pbuf p).totLen : ℤ) + inc < 2 ^ 16
  | .cat h t, s | .chain h t, s => (s.heap.pbuf h).totLen + (s.heap.pbuf t).totLen < 2 ^ 16
  | _, _ => True

instance : (c : PbufCall) → (s : PbufRun) → Decidable (Fits c s)
  | .header p inc, s => inferInstanceAs (Decidable (((s.heap.pbuf p).totLen : ℤ) + inc < 2 ^ 16))
  | .cat h t, s | .chain h t, s =>
    inferInstanceAs (Decidable ((s.heap.pbuf h).totLen + (s.heap.pbuf t).totLen < 2 ^ 16))
  | .alloc .., _ | .allocedCustom .., _ | .realloc .., _ | .dechain .., _ | .copy .., _ | .copyPartial .., _
  | .take .., _ | .coalesce .., _ | .ref .., _ | .free .., _ => inferInstanceAs (Decidable True)

/-- Careful use, with the heads of chains that nobody else shares. -/
abbrev Considerate (c : PbufCall) (s : PbufRun) : Prop := Careful c s ∧ Unshared c s ∧ Fits c s

variable {s s' : PbufRun} {c : PbufCall}

/-- **One call** keeps the totals right. -/
theorem totals_step (h : PbufHeap.Totals s.heap) (hc : Counted s.heap s.handles) (hproper : Proper c s)
    (hapart : Apart c s) (hunshared : Unshared c s) (hfits : Fits c s) (hstep : step c s = some s') :
    PbufHeap.Totals s'.heap := by
  cases c with
  | alloc layer length type mem =>
    obtain ⟨⟨o, u⟩, hcall, rfl⟩ := Option.map_eq_some_iff.1 hstep
    exact h.pbufAlloc hc hproper.1 hproper.2 hcall
  | allocedCustom layer length type p payload payloadLen =>
    obtain rfl := Option.some.inj hstep
    show PbufHeap.Totals (s.heap.pbufAllocedCustom layer length type p payload payloadLen).2
    rw [PbufHeap.pbufAllocedCustom]
    split_ifs
    · exact h
    · exact h.obtain hc (hproper.2.2 p (List.mem_singleton_self p)).1 rfl rfl hproper.1
  | realloc p newLen trims =>
    obtain ⟨u, hcall, rfl⟩ := Option.map_eq_some_iff.1 hstep
    refine h.pbufRealloc hc hproper.2 (fun hshort ↦ ?_) hcall
    rw [Unshared, changes, if_pos hshort] at hunshared
    exact hunshared
  | header p inc =>
    obtain ⟨⟨k, u⟩, hcall, rfl⟩ := Option.map_eq_some_iff.1 hstep
    refine h.pbufHeader hc hfits (fun hk hinc b hb hbp ↦ ?_) hcall
    rw [Unshared, changes, if_pos ⟨hinc, by rw [hcall, hk]; rfl⟩] at hunshared
    have hself := List.mem_singleton.1 (hunshared p (List.mem_singleton_self p) b hb hbp)
    exact hc.next_ne hb (hself ▸ hbp)
  | cat h' t =>
    obtain ⟨u, hcall, rfl⟩ := Option.map_eq_some_iff.1 hstep
    refine h.pbufCat hc hproper.1 hapart hfits (fun hne ↦ ?_) hcall
    rw [Unshared, changes, if_pos hne] at hunshared
    exact hunshared
  | chain h' t =>
    obtain ⟨u, hcall, rfl⟩ := Option.map_eq_some_iff.1 hstep
    obtain ⟨v, hcat, href⟩ := Option.bind_eq_some_iff.1 hcall
    have hv : PbufHeap.Totals v := by
      refine h.pbufCat hc hproper.1 hapart hfits (fun hne ↦ ?_) hcat
      rw [Unshared, changes, if_pos hne] at hunshared
      exact hunshared
    rw [PbufHeap.pbufRef] at href
    split_ifs at href
    obtain rfl := Option.some.inj href
    refine hv.congr subset_rfl fun a ↦ ?_
    rw [PbufHeap.setRef_pbuf]
    exact ⟨rfl, rfl, rfl⟩
  | dechain p =>
    obtain ⟨⟨o, u⟩, hcall, rfl⟩ := Option.map_eq_some_iff.1 hstep
    refine h.pbufDechain hc (fun q hnext hne b hb hbp ↦ ?_) hcall
    have hne' : s.heap.totalOf (s.heap.pbuf p).next ≠ 0 := by
      rw [hnext]
      exact hne
    rw [Unshared, changes, if_pos hne'] at hunshared
    have hself := List.mem_singleton.1 (hunshared p (List.mem_singleton_self p) b hb hbp)
    exact hc.next_ne hb (hself ▸ hbp)
  | copy pTo pFrom =>
    obtain ⟨cs, -, rfl⟩ := Option.map_eq_some_iff.1 hstep
    exact h
  | copyPartial buf len offset =>
    obtain ⟨cs, -, rfl⟩ := Option.map_eq_some_iff.1 hstep
    exact h
  | take buf len =>
    obtain ⟨cs, -, rfl⟩ := Option.map_eq_some_iff.1 hstep
    exact h
  | coalesce p layer mem =>
    obtain ⟨⟨q, u⟩, hcall, rfl⟩ := Option.map_eq_some_iff.1 hstep
    exact h.pbufCoalesce hc hproper.1 hproper.2 hcall
  | ref p =>
    obtain ⟨u, hcall, rfl⟩ := Option.map_eq_some_iff.1 hstep
    rw [PbufHeap.pbufRef] at hcall
    split_ifs at hcall
    obtain rfl := Option.some.inj hcall
    refine h.congr subset_rfl fun a ↦ ?_
    rw [PbufHeap.setRef_pbuf]
    exact ⟨rfl, rfl, rfl⟩
  | free p =>
    obtain ⟨⟨n, u⟩, hcall, rfl⟩ := Option.map_eq_some_iff.1 hstep
    obtain ⟨n', u', hcall', -, hframe⟩ := hc.pbufFree hproper
    obtain ⟨-, rfl⟩ := Prod.mk.inj (Option.some.inj (hcall.symm.trans hcall'))
    exact h.frees hframe

theorem run_totals {cs : List PbufCall} (hrun : runLabels (guardStep Considerate step) cs init = some s) :
    Counted s.heap s.handles ∧ PbufHeap.Totals s.heap := by
  refine runLabels_invariant (I := fun s : PbufRun ↦ Counted s.heap s.handles ∧ PbufHeap.Totals s.heap)
    ⟨counted_init, nofun⟩ (fun c u v ⟨hc, ht⟩ hstep ↦ ?_) hrun
  obtain ⟨⟨⟨hproper, hapart⟩, hunshared, hfits⟩, hcall⟩ := guardStep_eq_some.1 hstep
  exact ⟨counted_step hc hproper hapart hcall, totals_step ht hc hproper hapart hunshared hfits hcall⟩

/-- The total of a pbuf is the sum of the lengths from it on. -/
theorem totalOf_eq_sum {o : Option PbufAddr} {as : List PbufAddr}
    (hchain : (s.heap.graph s.handles).Chain o as) (h : PbufHeap.Totals s.heap) :
    s.heap.totalOf o = (as.map fun a ↦ (s.heap.pbuf a).len).sum := by
  induction as generalizing o with
  | nil =>
    obtain rfl := hchain
    rfl
  | cons a as ih =>
    obtain ⟨rfl, hlive, hrest⟩ := hchain
    have hrest' : (s.heap.graph s.handles).Chain (s.heap.pbuf a).next as := hrest
    rw [List.map_cons, List.sum_cons, ← ih hrest']
    exact (h a hlive).1

/-- **The totals are right** in every run in which, besides careful use, no call changes the total of a
pbuf that is linked to from outside, and no packet gets longer than 65535 bytes. A total is its pbuf's own
length exactly when all the pbufs behind are empty. -/
theorem totals_right (cs : List PbufCall) (s : PbufRun)
    (hrun : runLabels (guardStep Considerate step) cs init = some s) :
    ∀ a ∈ s.heap.live,
      (s.heap.pbuf a).totLen = (s.heap.pbuf a).len + s.heap.totalOf (s.heap.pbuf a).next ∧
      (s.heap.pbuf a).totLen < 2 ^ 16 ∧
      ((s.heap.pbuf a).totLen = (s.heap.pbuf a).len ↔
        ∀ b ∈ s.heap.chainOf s.heap.steps (s.heap.pbuf a).next, (s.heap.pbuf b).len = 0) := by
  obtain ⟨hc, h⟩ := run_totals hrun
  intro a ha
  obtain ⟨htotal, hsmall⟩ := h a ha
  refine ⟨htotal, hsmall, ?_⟩
  obtain ⟨as, has⟩ := hc.ok.chain_next ha
  have hlen : as.length ≤ s.heap.steps := Nat.le_succ_of_le has.length_le
  have hsum : s.heap.totalOf (s.heap.pbuf a).next = (as.map fun b ↦ (s.heap.pbuf b).len).sum :=
    totalOf_eq_sum has h
  have hrest : s.heap.chainOf s.heap.steps (s.heap.pbuf a).next = as := PbufHeap.chainOf_eq has hlen
  rw [hrest, htotal, Nat.add_eq_left, hsum, List.sum_eq_zero_iff_forall_eq_nat]
  simp

/-- A pbuf from the pool that needs three buffers is shortened to one and a half. -/
def exampleShorten : List PbufCall :=
  [.alloc .raw 1500 .pool [⟨.pool, 0⟩, ⟨.pool, 1⟩, ⟨.pool, 2⟩], .realloc ⟨.pool, 0⟩ 900 true,
    .header ⟨.pool, 0⟩ (-40)]

/-- The totals of the two pbufs that are left are right. -/
theorem totals_right_shorten :
    ∃ s, runLabels (guardStep Considerate step) exampleShorten init = some s ∧
      (s.heap.pbuf ⟨.pool, 0⟩).totLen = 860 ∧ (s.heap.pbuf ⟨.pool, 1⟩).totLen = 308 ∧
      ∀ a ∈ s.heap.live,
        (s.heap.pbuf a).totLen = (s.heap.pbuf a).len + s.heap.totalOf (s.heap.pbuf a).next := by
  refine exists_run_of_observe
    (fun s ↦ ((s.heap.pbuf ⟨.pool, 0⟩).totLen, (s.heap.pbuf ⟨.pool, 1⟩).totLen)) (860, 308)
    (by decide) fun s hrun hobs ↦ ?_
  obtain ⟨hfirst, hsecond⟩ := Prod.mk.inj hobs
  exact ⟨hfirst, hsecond, fun a ha ↦ (totals_right exampleShorten s hrun a ha).1⟩

/-- **A stale total, and an empty tail**: the owner of a tail hides five bytes of it, and the total of the
pbuf that links to it is wrong; and a pbuf to which an empty one is concatenated is not the last one, but
its total is its length. -/
theorem total_stale :
    (∃ s, runLabels (guardStep (fun c s ↦ Careful c s ∧ Fits c s) step)
        [.alloc .raw 10 .ram [exampleAddr 0], .alloc .raw 20 .ram [exampleAddr 1],
          .chain (exampleAddr 0) (exampleAddr 1), .header (exampleAddr 1) (-5)] init = some s ∧
      exampleAddr 0 ∈ s.heap.live ∧ (s.heap.pbuf (exampleAddr 0)).totLen = 30 ∧
      (s.heap.pbuf (exampleAddr 0)).len + s.heap.totalOf (s.heap.pbuf (exampleAddr 0)).next = 25) ∧
    ∃ s, runLabels (guardStep (fun c s ↦ Careful c s ∧ Fits c s) step)
        [.alloc .raw 10 .ram [exampleAddr 0], .alloc .raw 0 .ram [exampleAddr 1],
          .cat (exampleAddr 0) (exampleAddr 1)] init = some s ∧
      (s.heap.pbuf (exampleAddr 0)).totLen = (s.heap.pbuf (exampleAddr 0)).len ∧
      (s.heap.pbuf (exampleAddr 0)).next = some (exampleAddr 1) :=
  ⟨⟨_, rfl, by decide⟩, ⟨_, rfl, by decide⟩⟩

end PbufRun

end Lwip.Core
