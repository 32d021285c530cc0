import LwipPoc.Core.Mem.Runs

/-!
# The counter of used memory

`lwip_stats.mem.used` is added to by `mem_malloc` and taken from by `mem_free` and `mem_trim`, by an amount that each
branch works out for itself. `used_of_run`: after every run of calls on live blocks the counter is **the size of the
used blocks**, headers included, as the headers show it.

The callers here may do more than those of `Runs`: a block may be trimmed to any size. A size above that of the block
is refused or makes an assertion fail, and the largest sizes are rounded up to zero.
-/

namespace Lwip.Core

open Block (usedSize)

namespace MemHeap

variable {h h' : MemHeap} {bs : List Block} {b : Block} {mem size : ℕ}

/-! ### What each function does to the counter -/

theorem plugForward_stats (h : MemHeap) (mem : ℕ) : (h.plugForward mem).stats = h.stats := by
  rw [plugForward]
  dsimp only
  split_ifs <;> rfl

theorem plugBackward_stats (h : MemHeap) (mem : ℕ) : (h.plugBackward mem).stats = h.stats := by
  rw [plugBackward]
  dsimp only
  split_ifs <;> rfl

/-- `plug_holes` has no counter. -/
theorem plugHoles_stats (hplug : h.plugHoles mem = some h') : h'.stats = h.stats := by
  rw [plugHoles] at hplug
  split_ifs at hplug
  rw [← Option.some.inj hplug, plugBackward_stats, plugForward_stats]

/-- `mem_free` takes the size of the block from the counter. -/
theorem Inv.memFree_used (hi : h.Inv bs) (hb : b ∈ bs) (hu : b.used = true)
    (hcall : MemHeap.memFree (some ((b.start + sizeofStructMem : ℕ) : ℤ)) h = some h') (hbound : h.stats.used < 2 ^ 16)
    (hle : b.stop - b.start ≤ h.stats.used) : h'.stats.used = h.stats.used - (b.stop - b.start) := by
  have hat := hi.shape.blockAt hb
  have hroom := hat.room
  obtain ⟨hcheck, hoffset⟩ := hat.data_offset (hi.shape.stop_le hb)
  simp only [MemHeap.memFree] at hcall
  rw [if_pos hcheck] at hcall
  simp only [hoffset] at hcall
  rw [if_neg (by rw [hat.used, hu]; decide), ite_lfree] at hcall
  have hnext : ((h.setUsed b.start 0).header b.start).next = b.stop := by
    rw [header_setUsed_self, ← hat.next]
  rw [plugHoles_stats hcall]
  show (h.stats.used + 2 ^ 16 - (((h.setUsed b.start 0).header b.start).next + 2 ^ 16 - b.start) % 2 ^ 16) % 2 ^ 16 = _
  rw [hnext]
  omega

/-! ### The counter and the blocks -/

theorem Inv.usedSize_le (hi : h.Inv bs) : usedSize bs ≤ memSizeAligned := by
  have := hi.shape.tiles.usedSize_le
  omega

theorem Inv.usedSize_allocated {bs' : List Block} {e : ℕ} (hi : h.Inv bs) (hb : b ∈ bs) (hfree : b.used = false)
    (ha : AllocatedTo h h' bs bs' b size e) (hused : h.stats.used = usedSize bs) :
    h'.stats.used = usedSize bs' ∧ h.stats.used ≤ h'.stats.used := by
  have hnew : (⟨b.start, e, true⟩ : Block) ∉ bs := fun hmem ↦ by
    have heq := hi.shape.tiles.eq_of_start hmem hb rfl
    rw [← heq] at hfree
    cases hfree
  have hinsert := Block.usedSize_insert hi.shape.tiles.nodup ha.inv.shape.tiles.nodup hnew rfl ha.used
  have hle := ha.inv.usedSize_le
  have hsizes := mem_sizes
  have hcounted := ha.counted (by simp only at hinsert; omega)
  simp only at hinsert
  omega

theorem Inv.usedSize_trimmed {bs' : List Block} {newsize e : ℕ} (hi : h.Inv bs) (hb : b ∈ bs) (hu : b.used = true)
    (ht : TrimmedTo h h' bs bs' b newsize e) (hused : h.stats.used = usedSize bs) :
    h'.stats.used = usedSize bs' ∧ h'.stats.used ≤ h.stats.used := by
  have hreplace := Block.usedSize_replace (y := ⟨b.start, e, true⟩) hi.shape.tiles.nodup ht.inv.shape.tiles.nodup hb hu
    rfl (fun hmem ↦ hi.shape.tiles.eq_of_start hmem hb rfl) ht.used
  have hle := hi.usedSize_le
  have hsizes := mem_sizes
  have hstop := ht.stop_le
  have hroom := ht.room
  simp only at hreplace
  have hcounted := ht.counted (by omega) (by omega)
  omega

theorem Inv.usedSize_freed {bs' : List Block} (hi : h.Inv bs) (hb : b ∈ bs) (hu : b.used = true) (hi' : h'.Inv bs')
    (hmem : ∀ z, z.used = true → (z ∈ bs' ↔ z ∈ bs ∧ z ≠ b))
    (hcall : MemHeap.memFree (some ((b.start + sizeofStructMem : ℕ) : ℤ)) h = some h') (hused : h.stats.used = usedSize bs) :
    h'.stats.used = usedSize bs' ∧ h'.stats.used ≤ h.stats.used := by
  have hnot : b ∉ bs' := fun hb' ↦ ((hmem b hu).1 hb').2 rfl
  have hinsert : usedSize bs = usedSize bs' + (b.stop - b.start) := by
    refine Block.usedSize_insert hi'.shape.tiles.nodup hi.shape.tiles.nodup hnot hu fun z hz ↦ ?_
    rw [hmem z hz]
    constructor
    · exact fun hz' ↦ (eq_or_ne z b).symm.imp_left fun hne ↦ ⟨hz', hne⟩
    · rintro (⟨hz', -⟩ | rfl)
      · exact hz'
      · exact hb
  have hle := hi.usedSize_le
  have hsizes := mem_sizes
  have hcounted := hi.memFree_used hb hu hcall (by omega) (by omega)
  omega

end MemHeap

namespace MemSys

variable {s s' : MemSys} {bs : List Block} {c : MemCall} {ls : List MemCall} {p size newsize : ℕ}

/-! ### Runs of calls on live blocks -/

/-- **A call on a live block**, of `mem_trim` with any size. -/
def OnLive (s : MemSys) : MemCall → Prop
  | .malloc _ => True
  | .trim p _ => p ∈ s.live
  | .free p => p ∈ s.live
  | .write p i _ => p ∈ s.live ∧ i < s.heap.dataSize p

instance (s : MemSys) : (c : MemCall) → Decidable (s.OnLive c)
  | .malloc _ => inferInstanceAs (Decidable True)
  | .trim p _ => inferInstanceAs (Decidable (p ∈ s.live))
  | .free p => inferInstanceAs (Decidable (p ∈ s.live))
  | .write _ _ _ => inferInstanceAs (Decidable (_ ∧ _))

/-- A step of callers that call with live blocks. A call in which an assertion fails is no step. -/
def liveStep (c : MemCall) (s : MemSys) : Option MemSys := if s.OnLive c then s.call c else none

/-- The direction in which a call changes the counter. -/
def Counts : MemCall → ℕ → ℕ → Prop
  | .malloc _, n, n' => n ≤ n'
  | .trim _ _, n, n' => n' ≤ n
  | .free _, n, n' => n' ≤ n
  | .write _ _ _, n, n' => n' = n

/-- **The heap and its counter**: the counter is the size of the used blocks. -/
structure Counted (s : MemSys) (bs : List Block) : Prop where
  good : s.Good bs
  used : s.heap.stats.used = usedSize bs

theorem Counted.malloc (hc : s.Counted bs) (hcall : s.call (.malloc size) = some s') :
    (∃ bs', s'.Counted bs') ∧ s.heap.stats.used ≤ s'.heap.stats.used := by
  rcases eq_or_ne size 0 with rfl | h₀
  · obtain rfl := Option.some.inj hcall
    exact ⟨⟨bs, hc⟩, le_rfl⟩
  simp only [call] at hcall
  rcases hc.good.inv.memMalloc_find h₀ with ⟨-, h', hmalloc, hram, hlfree, hused⟩ | ⟨b, h', bs', e, hfind, hmalloc, ha⟩
  · rw [hmalloc] at hcall
    obtain rfl := Option.some.inj hcall
    refine ⟨⟨bs, ⟨⟨hc.good.inv.shape.of_ram_eq hram, hc.good.inv.apart, ?_⟩, hc.good.nodup, hc.good.live⟩, ?_⟩, ?_⟩
    · exact hlfree.symm ▸ hc.good.inv.lfree
    · exact hused.trans hc.used
    · exact Nat.le_of_eq hused.symm
  · rw [hmalloc] at hcall
    obtain rfl := Option.some.inj hcall
    have hb := List.mem_of_find?_eq_some hfind
    have hfree := (MemHeap.fits_iff.1 (List.find?_some hfind)).1
    obtain ⟨hused, hle⟩ := hc.good.inv.usedSize_allocated hb hfree ha hc.used
    exact ⟨⟨bs', (hc.good.claimed hb hfree ha.inv ha.used).2, hused⟩, hle⟩

theorem Counted.trim (hc : s.Counted bs) (hp : p ∈ s.live) (hcall : s.call (.trim p newsize) = some s') :
    (∃ bs', s'.Counted bs') ∧ s'.heap.stats.used ≤ s.heap.stats.used := by
  obtain ⟨b, hb, hu, rfl, hat⟩ := hc.good.exists_block hp
  by_cases hroom : memBlockSize newsize ≤ b.stop - (b.start + sizeofStructMem)
  · obtain ⟨h', bs', e, htrim, ht⟩ := hc.good.inv.memTrim_of_room hb hu hroom
    simp only [call, htrim, Option.map_some, Int.toNat_natCast, Option.getD_some, map_live_trim] at hcall
    obtain rfl := Option.some.inj hcall
    obtain ⟨hused, hle⟩ := hc.good.inv.usedSize_trimmed hb hu ht hc.used
    exact ⟨⟨bs', hc.good.trimmed hb hu ht.inv ht.used, hused⟩, hle⟩
  · -- the size is above what the heap can have, or an assertion fails
    have hstop := hc.good.inv.shape.stop_le hb
    obtain ⟨hcheck, hoffset⟩ := hat.data_offset hstop
    have hat_room := hat.room
    have hsizes := mem_sizes
    have hsize : (b.stop + 2 ^ 17 - b.start - sizeofStructMem) % 2 ^ 16 = b.stop - (b.start + sizeofStructMem) := by
      omega
    simp only [call, MemHeap.memTrim] at hcall
    by_cases hbig : memSizeAligned < memBlockSize newsize
    · rw [if_pos hbig] at hcall
      have hlive : (s.live.map fun q ↦ if q = b.start + sizeofStructMem then q else q) = s.live := by
        simp only [ite_self, List.map_id_fun']
        rfl
      simp only [Option.map_some, Option.map_none, Option.getD_none, hlive] at hcall
      obtain rfl := Option.some.inj hcall
      exact ⟨⟨bs, hc⟩, le_rfl⟩
    · rw [if_neg hbig, if_pos ⟨hcheck.2.1, hcheck.2.2⟩] at hcall
      simp only [hoffset, hat.next, hsize] at hcall
      rw [if_pos (Nat.lt_of_not_le hroom)] at hcall
      cases hcall

theorem Counted.free (hc : s.Counted bs) (hp : p ∈ s.live) (hcall : s.call (.free p) = some s') :
    (∃ bs', s'.Counted bs') ∧ s'.heap.stats.used ≤ s.heap.stats.used := by
  obtain ⟨b, hb, hu, rfl, -⟩ := hc.good.exists_block hp
  obtain ⟨h', bs', hfree, hinv, hmem, -⟩ := hc.good.inv.memFree hb hu
  simp only [call, hfree, Option.map_some] at hcall
  obtain rfl := Option.some.inj hcall
  obtain ⟨hused, hle⟩ := hc.good.inv.usedSize_freed hb hu hinv hmem hfree hc.used
  exact ⟨⟨bs', hc.good.freed hb hinv hmem, hused⟩, hle⟩

/-- **One call** keeps the counter at the size of the used blocks. -/
theorem Counted.liveStep (hc : s.Counted bs) (hstep : liveStep c s = some s') :
    (∃ bs', s'.Counted bs') ∧ Counts c s.heap.stats.used s'.heap.stats.used := by
  rw [MemSys.liveStep] at hstep
  split_ifs at hstep with hp
  cases c with
  | malloc size => exact hc.malloc hstep
  | trim p newsize => exact hc.trim hp hstep
  | free p => exact hc.free hp hstep
  | write p i v =>
    obtain ⟨s'', bs', hcall, hgood, -⟩ := hc.good.write hp.1 hp.2 v
    obtain ⟨b, hb, hu, rfl, hat⟩ := hc.good.exists_block hp.1
    obtain rfl := Option.some.inj hstep
    have hi := hp.2
    rw [hat.dataSize_eq] at hi
    obtain ⟨hinv, -⟩ := hc.good.inv.write hb (i := b.start + sizeofStructMem + i) (by omega) (by omega) v
    exact ⟨⟨bs, ⟨hinv, hc.good.nodup, hc.good.live⟩, hc.used⟩, rfl⟩

/-- **Every run** of calls on live blocks. -/
theorem run_counted {ram : ByteMem} (h : runLabels liveStep ls (init ram) = some s) : ∃ bs, s.Counted bs :=
  runLabels_invariant (I := fun s ↦ ∃ bs, s.Counted bs) ⟨_, good_init ram, rfl⟩
    (fun _ _ _ ⟨_, hc⟩ hstep ↦ (hc.liveStep hstep).1) h

/-- The size of the used blocks, as the headers show it. -/
def headersUsed (h : MemHeap) (os : List ℕ) : ℕ :=
  ((os.filter fun o ↦ (h.header o).used ≠ 0).map fun o ↦ (h.header o).next - o).sum

theorem Good.headersUsed_eq (hg : s.Good bs) : headersUsed s.heap (bs.map Block.start) = usedSize bs := by
  rw [headersUsed, usedSize, List.filter_map, List.map_map]
  have hfilter : bs.filter ((fun o ↦ decide ((s.heap.header o).used ≠ 0)) ∘ Block.start) = bs.filter Block.used := by
    refine List.filter_congr fun b hb ↦ ?_
    rw [Function.comp_apply, (hg.inv.shape.blockAt hb).used]
    cases b.used <;> rfl
  rw [hfilter]
  refine congrArg List.sum (List.map_congr_left fun b hb ↦ ?_)
  rw [Function.comp_apply, (hg.inv.shape.blockAt (List.mem_filter.1 hb).1).next]

/-- **The counter is the size of the used blocks** after every run of calls on live blocks: it is zero again when all
blocks are freed, and no call makes it wrap. -/
theorem used_of_run {ram : ByteMem} (h : runLabels liveStep ls (init ram) = some s) :
    (∃ os, s.heap.WellFormed os ∧ s.heap.stats.used = headersUsed s.heap os) ∧
    (s.live = [] → s.heap.stats.used = (init ram).heap.stats.used) ∧
    ∀ c s', liveStep c s = some s' → Counts c s.heap.stats.used s'.heap.stats.used := by
  obtain ⟨bs, hc⟩ := run_counted h
  refine ⟨⟨bs.map Block.start, hc.good.inv.wellFormed, ?_⟩, fun hnil ↦ ?_, fun c s' hstep ↦ (hc.liveStep hstep).2⟩
  · rw [hc.good.headersUsed_eq, hc.used]
  · have hbs : bs = [⟨0, memSizeAligned, false⟩] := by
      refine hc.good.inv.eq_of_unused fun b hb ↦ Bool.eq_false_iff.2 fun hu ↦ ?_
      have hp := (hc.good.live _).2 ⟨b, hb, hu, rfl⟩
      rw [hnil] at hp
      cases hp
    rw [hc.used, hbs]
    rfl

/-- After two calls of `mem_malloc`, one of `mem_trim` and one of `mem_free`, one block of 28 bytes is left. -/
theorem used_of_run_trimmed :
    ∃ s, runLabels liveStep [.malloc 100, .malloc 40, .trim 8 20, .free 116] (init fun _ ↦ 0) = some s ∧
      s.heap.stats.used = 28 ∧ ∃ os, s.heap.WellFormed os ∧ headersUsed s.heap os = 28 := by
  refine exists_run_of_observe (fun s ↦ s.heap.stats.used) 28 (by decide) fun s hs hused ↦ ?_
  obtain ⟨⟨os, hos, hsum⟩, -, -⟩ := used_of_run hs
  exact ⟨hused, os, hos, hsum.symm.trans hused⟩

end MemSys

end Lwip.Core
