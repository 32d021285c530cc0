import LwipPoc.Core.Mem.Operations

/-!
# `mem_malloc`

The search of `mem_malloc` is a **first fit from the lowest free block on** (`Shape.scan`); the block
it finds is split or used whole (`Inv.claim`), and if it was the lowest free one, the next free block
behind it becomes the lowest (`Claimed.adjustLfree`). `Inv.memMalloc` puts the three together.

Both loops follow `next` from a block of the heap, so each of them is an induction on the blocks that
are still ahead, and the number of blocks bounds the number of rounds.
-/

namespace Lwip.Core

namespace MemHeap

open Block (Tiles tiles_cons tiles_append tiles_append_append LowestFree NoAdjacentFree startOf
  noAdjacentFree_append noAdjacentFree_between lowestFree_dropWhile)

variable {h h' : MemHeap} {bs xs ys rest : List Block} {b : Block} {e size fuel : ℕ}

/-! ### The two loops -/

/-- The room of a block is the size of its data: the subtraction does not wrap. -/
theorem BlockAt.room_eq (hat : h.BlockAt b) (hstop : b.stop ≤ memSizeAligned) :
    h.room b.start = b.stop - (b.start + sizeofStructMem) := by
  have hroom := hat.room
  have hsizes := mem_sizes
  rw [MemHeap.room, hat.next]
  omega

theorem BlockAt.used_eq_zero (hat : h.BlockAt b) : (h.header b.start).used = 0 ↔ b.used = false := by
  rw [hat.used]
  cases b.used <;> decide

/-- `next` leads to the block ahead. -/
theorem Shape.header_next (hs : h.Shape (xs ++ b :: ys)) :
    (h.header b.start).next = startOf memSizeAligned ys := by
  obtain ⟨_, -, ht⟩ := tiles_append.1 hs.tiles
  rw [ht.2.2.startOf_eq, (hs.blockAt (b := b) (by simp)).next]

/-- The block is free and has room for `size` bytes. -/
def Fits (size : ℕ) (b : Block) : Bool :=
  !b.used && decide (b.start + sizeofStructMem + size ≤ b.stop)

theorem fits_iff : Fits size b = true ↔
    b.used = false ∧ b.start + sizeofStructMem + size ≤ b.stop := by
  simp [Fits]

/-- **The search is a first fit.** -/
theorem Shape.scan (hs : h.Shape (xs ++ ys)) (hfuel : ys.length < fuel) :
    h.scan size fuel (startOf memSizeAligned ys) =
      some ((ys.find? (Fits size)).map Block.start) := by
  have hsizes := mem_sizes
  induction fuel generalizing xs ys with
  | zero => exact absurd hfuel (Nat.not_lt_zero _)
  | succ fuel ih =>
    cases ys with
    | nil =>
      show (if memSizeAligned < memSizeAligned - size then _ else some none) = _
      rw [if_neg (by omega)]
      rfl
    | cons y ys =>
      have hat := hs.blockAt (b := y) (by simp)
      have hstop := hs.stop_le (b := y) (by simp)
      have hroom := hat.room_eq hstop
      have hfits : Fits size y = true ↔
          (h.header y.start).used = 0 ∧ size ≤ h.room y.start := by
        have := hat.room
        rw [fits_iff, hat.used_eq_zero, hroom]
        exact and_congr_right fun _ ↦ by omega
      have hs' : h.Shape ((xs ++ [y]) ++ ys) := by simpa using hs
      show (if y.start < memSizeAligned - size then
        if (h.header y.start).used = 0 ∧ size ≤ h.room y.start then some (some y.start)
        else h.scan size fuel (h.header y.start).next else some none) = _
      split_ifs with hlt hfit
      · rw [List.find?_cons_of_pos (hfits.2 hfit)]
        rfl
      · rw [List.find?_cons_of_neg fun hf ↦ hfit (hfits.1 hf), hs.header_next]
        exact ih hs' (Nat.lt_of_succ_lt_succ hfuel)
      · -- past `MEM_SIZE_ALIGNED - size` no block has room
        have hnone : (y :: ys).find? (Fits size) = none := by
          refine List.find?_eq_none.2 fun z hz hf ↦ ?_
          have hz' := hs.stop_le (b := z) (List.mem_append_right _ hz)
          obtain ⟨_, -, ht⟩ := tiles_append.1 hs.tiles
          have := (fits_iff.1 hf).2
          have := (ht.mem_bounds hz).1
          rw [← ht.1] at this
          omega
        rw [hnone]
        rfl

/-- **The loop behind the lowest free block** stops at the first free one. -/
theorem Shape.nextFree (hs : h.Shape (xs ++ ys)) (hfuel : ys.length < fuel) :
    h.nextFree fuel (startOf memSizeAligned ys) =
      some (startOf memSizeAligned (ys.dropWhile Block.used)) := by
  induction fuel generalizing xs ys with
  | zero => exact absurd hfuel (Nat.not_lt_zero _)
  | succ fuel ih =>
    cases ys with
    | nil => exact if_neg fun hcond ↦ hcond.2 rfl
    | cons y ys =>
      have hat := hs.blockAt (b := y) (by simp)
      have hend : y.start ≠ memSizeAligned := by
        have := hs.stop_le (b := y) (by simp)
        have := hat.room
        have := mem_sizes
        omega
      have hs' : h.Shape ((xs ++ [y]) ++ ys) := by simpa using hs
      show (if (h.header y.start).used ≠ 0 ∧ y.start ≠ memSizeAligned then
        h.nextFree fuel (h.header y.start).next else some y.start) = _
      cases hu : y.used with
      | true =>
        rw [if_pos ⟨fun h₀ ↦ absurd (hat.used_eq_zero.1 h₀) (by simp [hu]), hend⟩,
          List.dropWhile_cons_of_pos hu, hs.header_next]
        exact ih hs' (Nat.lt_of_succ_lt_succ hfuel)
      | false =>
        rw [if_neg fun hcond ↦ hcond.1 (hat.used_eq_zero.2 hu),
          List.dropWhile_cons_of_neg (by simp [hu])]
        exact rfl

/-! ### Claiming a block -/

/-- **The heap with the block at `b.start` claimed**, up to `e`, and not yet a new `lfree`: what is
left over is in `rest`. -/
structure Claimed (h h' : MemHeap) (xs : List Block) (b : Block) (ys : List Block) (e : ℕ)
    (rest : List Block) : Prop where
  shape : h'.Shape (xs ++ ⟨b.start, e, true⟩ :: rest ++ ys)
  apart : NoAdjacentFree (xs ++ ⟨b.start, e, true⟩ :: rest ++ ys)
  rest_free : ∀ z ∈ rest, z.used = false
  stop_le : e ≤ b.stop
  lfree : h'.lfree = h.lfree
  data : ∀ x ∈ xs ++ ys, SameData h h' x

theorem incUsed_ram (n : ℕ) : (h.incUsed n).ram = h.ram := rfl

/-- **The block is split, or used whole.** -/
theorem Inv.claim (hi : h.Inv (xs ++ [b] ++ ys)) (hfree : b.used = false)
    (hal : size % memAlignment = 0) (hmin : minSizeAligned ≤ size)
    (hfit : b.start + sizeofStructMem + size ≤ b.stop) :
    ∃ e rest, Claimed h (h.claim b.start size) xs b ys e rest ∧
      b.start + sizeofStructMem + size ≤ e ∧ (h.stats.used + (e - b.start) < 2 ^ 16 →
        (h.claim b.start size).stats.used = h.stats.used + (e - b.start)) := by
  have hb : b ∈ xs ++ [b] ++ ys := by simp
  have hat := hi.shape.blockAt hb
  have hstop := hi.shape.stop_le hb
  have hroom := hat.room
  have hsizes := mem_sizes
  obtain ⟨hxb, hnys, hlink⟩ := noAdjacentFree_append.1 hi.apart
  obtain ⟨hnxs, -, -⟩ := noAdjacentFree_append.1 hxb
  have hhead : ∀ y ∈ ys.head?, y.used = true := fun y hy ↦
    (hlink b (by simp) y hy).resolve_left (by simp [hfree])
  set e := b.start + sizeofStructMem + size with he
  have hptr2 : e % 2 ^ 16 = e := by omega
  rw [MemHeap.claim, hat.room_eq hstop]
  simp only [← he, hptr2, hat.next]
  by_cases hsplit : size + sizeofStructMem + minSizeAligned ≤ b.stop - (b.start + sizeofStructMem)
  · rw [if_pos hsplit]
    have he_al : e % memAlignment = 0 := by
      have hstart_al := hat.aligned
      rw [hsizes.2.2.2] at hal hstart_al ⊢
      omega
    obtain ⟨hheader_p, hheader_e⟩ := header_putHeader (h := h) (p := b.start) (e := e)
      (c := b.stop) (Or.inl (by omega)) (by omega) (by omega) hstop
    have htouch : Touches {b.start, e} h ((h.putHeader b.start e b.stop).setUsed b.start 1) := by
      refine (putHeader_touches.trans touches_setUsed).mono ?_
      rintro o (ho | rfl)
      · exact ho
      · exact Or.inl rfl
    obtain ⟨hshape, hdata, -⟩ := hi.shape.put (u := true) (p := b.start) (c := b.stop)
      ⟨rfl, by omega, rfl⟩ (List.cons_ne_nil _ _) (by omega) (by omega) he_al htouch
      (by rw [header_setUsed_self, hheader_p]; rfl)
      (by rw [header_setUsed_of_apart (Or.inr (by omega)), hheader_e])
    refine ⟨e, [⟨e, b.stop, false⟩], ⟨hshape.of_ram_eq rfl, noAdjacentFree_put hnxs hnys hhead,
      by simp, by omega, relink_lfree _ _, hdata⟩, le_rfl, fun hbound ↦ ?_⟩
    have hstats : (((h.putHeader b.start e b.stop).setUsed b.start 1).relink e).stats = h.stats := relink_stats _ _
    have hcount : size + sizeofStructMem = e - b.start := by omega
    show (_ + (size + sizeofStructMem)) % 2 ^ 16 = _
    rw [hstats, hcount, Nat.mod_eq_of_lt hbound]
  · rw [if_neg hsplit]
    have hset : Touches {b.start} h (h.setUsed b.start 1) := touches_setUsed
    refine ⟨b.stop, [], ⟨(hi.shape.setUsed true).of_ram_eq rfl, ?_, by simp, le_rfl, rfl, ?_⟩, hfit,
      fun hbound ↦ ?_⟩
    · refine noAdjacentFree_append.2 ⟨noAdjacentFree_append.2 ⟨hnxs, List.isChain_singleton _, ?_⟩,
        hnys, fun _ _ y hy ↦ Or.inr (hhead y hy)⟩
      rintro x - y hy
      obtain rfl := Option.some.inj hy
      exact Or.inr rfl
    · have hsub : Touches (boundary (xs ++ [b] ++ ys)) h (h.setUsed b.start 1) :=
        hset.mono fun o ho ↦ Set.mem_singleton_iff.1 ho ▸ start_mem_boundary hb
      intro x hx i hlo hhi
      rw [incUsed_ram]
      refine hi.shape.sameData hsub ?_ i hlo hhi
      simp only [List.append_assoc, List.mem_append, List.mem_cons] at hx ⊢
      exact hx.imp_right Or.inr
    · show (h.stats.used + (b.stop + 2 ^ 16 - b.start)) % 2 ^ 16 = _
      omega

/-- **The lowest free block after the claim.** -/
theorem Claimed.adjustLfree (hc : Claimed h h' xs b ys e rest)
    (hlow : LowestFree memSizeAligned (xs ++ [b] ++ ys) h.lfree) (hfree : b.used = false) :
    ∃ o, h'.adjustLfree b.start = some { h' with lfree := o } ∧
      LowestFree memSizeAligned (xs ++ ⟨b.start, e, true⟩ :: rest ++ ys) o := by
  have hpair := hc.shape.tiles
  rw [MemHeap.adjustLfree]
  by_cases heq : b.start = h'.lfree
  · rw [if_pos heq, ← heq]
    have hlow' : h.lfree = b.start := by rw [← hc.lfree, heq]
    have hassoc : xs ++ ⟨b.start, e, true⟩ :: rest ++ ys =
        xs ++ (⟨b.start, e, true⟩ :: (rest ++ ys)) := by simp
    -- below the lowest free block all blocks are used
    have hused : ∀ x ∈ xs, x.used = true := fun x hx ↦ by
      by_contra hne
      have hle := hlow.1 x (by simp [hx]) (Bool.eq_false_iff.2 hne)
      rw [hassoc] at hpair
      have := (List.pairwise_append.1 hpair.pairwise).2.2 x hx ⟨b.start, e, true⟩ (by simp)
      have := (hpair.mem_bounds (List.mem_append_left _ hx)).2.1
      simp only at *
      omega
    have hs' := hc.shape
    rw [hassoc] at hs' ⊢
    have hlen := hs'.tiles.length_le
    rw [List.length_append] at hlen
    have hnext : h'.nextFree (memSizeAligned + 1) _ = _ := hs'.nextFree (by omega)
    have hlow'' := lowestFree_dropWhile hs'.tiles hused
    rw [show startOf memSizeAligned (⟨b.start, e, true⟩ :: (rest ++ ys)) = b.start from rfl] at hnext
    rw [hnext, Option.bind_some]
    refine ⟨_, if_pos ?_, hlow''⟩
    refine hlow''.2.imp_right fun ⟨z, hz, hzfree, hzo⟩ ↦ ?_
    rw [← hzo]
    exact (hs'.blockAt hz).used_eq_zero.2 hzfree
  · rw [if_neg heq]
    rw [hc.lfree] at heq
    refine ⟨h'.lfree, rfl, ?_⟩
    rw [hc.lfree]
    refine ⟨fun z hz hzfree ↦ ?_, ?_⟩
    · simp only [List.append_assoc, List.cons_append, List.mem_append, List.mem_cons] at hz
      rcases hz with hz | rfl | hz | hz
      · exact hlow.1 z (by simp [hz]) hzfree
      · cases hzfree
      · have hle := hlow.1 b (by simp) hfree
        obtain ⟨_, _, -, hm, -⟩ := tiles_append_append.1 hpair
        have := hm.2.1
        have := (hm.2.2.mem_bounds hz).1
        simp only at *
        omega
      · exact hlow.1 z (by simp [hz]) hzfree
    · refine hlow.2.imp_right fun ⟨z, hz, hzfree, hzo⟩ ↦ ⟨z, ?_, hzfree, hzo⟩
      simp only [List.append_assoc, List.mem_append, List.mem_cons, List.not_mem_nil, or_false] at hz
      rcases hz with hz | rfl | hz
      · simp [hz]
      · exact absurd hzo heq
      · simp [hz]

/-! ### `mem_malloc` -/

/-- **What `mem_malloc` has to do** when it returns a pointer: a free block `b` is used from then on,
up to some `e` that leaves room for what was asked for, and all used blocks and their data are as they
were. -/
def Allocated (h h' : MemHeap) (bs : List Block) (b : Block) (size : ℕ) : Prop :=
  ∃ bs' e, h'.Inv bs' ∧ b.start + sizeofStructMem + memBlockSize size ≤ e ∧ e ≤ b.stop ∧
    (∀ z, z.used = true → (z ∈ bs' ↔ z ∈ bs ∨ z = ⟨b.start, e, true⟩)) ∧
    ∀ x ∈ bs, x.used = true → SameData h h' x

/-- `mem_malloc` has **allocated** the free block `b` of `bs` up to `e`: this is `Allocated` with the blocks that there
are then, and with the counter. -/
structure AllocatedTo (h h' : MemHeap) (bs bs' : List Block) (b : Block) (size e : ℕ) : Prop where
  inv : h'.Inv bs'
  room : b.start + sizeofStructMem + memBlockSize size ≤ e
  stop_le : e ≤ b.stop
  used : ∀ z, z.used = true → (z ∈ bs' ↔ z ∈ bs ∨ z = ⟨b.start, e, true⟩)
  data : ∀ x ∈ bs, x.used = true → SameData h h' x
  counted : h.stats.used + (e - b.start) < 2 ^ 16 → h'.stats.used = h.stats.used + (e - b.start)

theorem AllocatedTo.allocated {bs' : List Block} (ha : AllocatedTo h h' bs bs' b size e) : Allocated h h' bs b size :=
  ⟨bs', e, ha.inv, ha.room, ha.stop_le, ha.used, ha.data⟩

/-- A block was claimed, and the lowest free one is known. -/
theorem Claimed.allocated {o : ℕ} (hc : Claimed h h' xs b ys e rest) (hfree : b.used = false)
    (hmem : ∀ z, z ∈ xs ++ ys ↔ z ∈ bs ∧ z ≠ b)
    (he : b.start + sizeofStructMem + memBlockSize size ≤ e)
    (hcounted : h.stats.used + (e - b.start) < 2 ^ 16 → h'.stats.used = h.stats.used + (e - b.start))
    (hlow : LowestFree memSizeAligned (xs ++ ⟨b.start, e, true⟩ :: rest ++ ys) o) :
    AllocatedTo h { h' with lfree := o } bs (xs ++ ⟨b.start, e, true⟩ :: rest ++ ys) b size e := by
  have hne : ∀ z : Block, z.used = true → z ≠ b := by
    rintro z hz rfl
    exact absurd hz (by simp [hfree])
  refine ⟨⟨hc.shape.of_ram_eq rfl, hc.apart, hlow⟩, he, hc.stop_le, fun z hz ↦ ?_,
    fun x hx hxu ↦ hc.data x ((hmem x).2 ⟨hx, hne x hxu⟩), hcounted⟩
  have hz_rest : z ∉ rest := fun hz' ↦ absurd (hc.rest_free z hz') (by simp [hz])
  have hz_mem : z ∈ bs ↔ z ∈ xs ∨ z ∈ ys := by
    rw [← List.mem_append, hmem z, and_iff_left (hne z hz)]
  simp only [List.append_assoc, List.cons_append, List.mem_append, List.mem_cons, hz_rest,
    false_or, hz_mem, or_assoc]
  rw [or_comm (a := z = _)]

/-- The search begins at the lowest free block, and no block below it is free: it is a first fit over
all blocks. -/
theorem Inv.scan (hi : h.Inv bs) :
    h.scan size (memSizeAligned + 1) h.lfree = some ((bs.find? (Fits size)).map Block.start) := by
  obtain ⟨us, vs, rfl, hstart, hused⟩ := hi.lfree.split hi.shape.tiles
  have hlen := hi.shape.tiles.length_le
  rw [List.length_append] at hlen
  have hskip : us.find? (Fits size) = none := by
    refine List.find?_eq_none.2 fun x hx hf ↦ ?_
    exact absurd (hused x hx) (by simp [(fits_iff.1 hf).1])
  rw [← hstart, hi.shape.scan (by omega), List.find?_append, hskip]
  rfl

/-- **`mem_malloc` is a first fit**: it returns the pointer to the first free block that has room, or a null pointer,
with the heap as it was, if there is none. -/
theorem Inv.memMalloc_find (hi : h.Inv bs) (h₀ : size ≠ 0) :
    (bs.find? (Fits (memBlockSize size)) = none ∧ ∃ h', memMalloc size h = some (none, h') ∧
        h'.ram = h.ram ∧ h'.lfree = h.lfree ∧ h'.stats.used = h.stats.used) ∨
      ∃ b h' bs' e, bs.find? (Fits (memBlockSize size)) = some b ∧
        memMalloc size h = some (some ((b.start + sizeofStructMem : ℕ) : ℤ), h') ∧
        AllocatedTo h h' bs bs' b size e := by
  have hsizes := mem_sizes
  by_cases hbig : memSizeAligned < memBlockSize size
  · refine Or.inl ⟨List.find?_eq_none.2 fun b hb hfit ↦ ?_, h, ?_, rfl, rfl, rfl⟩
    · have := hi.shape.stop_le hb
      have := (fits_iff.1 hfit).2
      omega
    · simp only [MemHeap.memMalloc, if_neg h₀, if_pos hbig]
  simp only [MemHeap.memMalloc, if_neg h₀, if_neg hbig, hi.scan, Option.bind_some]
  cases hfind : bs.find? (Fits (memBlockSize size)) with
  | none =>
    exact Or.inl ⟨rfl, { h with stats := { h.stats with err := (h.stats.err + 1) % 2 ^ 16 } },
      by simp only [Option.map_none], rfl, rfl, rfl⟩
  | some b =>
    have hb := List.mem_of_find?_eq_some hfind
    obtain ⟨hfree, hfit⟩ := fits_iff.1 (List.find?_some hfind)
    obtain ⟨hal, hmin⟩ := memBlockSize_aligned size
    obtain ⟨xs, ys, rfl, hmem⟩ := hi.split hb
    obtain ⟨e, rest, hc, he, hcounted⟩ := hi.claim hfree hal hmin hfit
    obtain ⟨o, hadjust, hlow⟩ := hc.adjustLfree hi.lfree hfree
    have hguard : b.start + sizeofStructMem + memBlockSize size ≤ memSizeAligned ∧
        (b.start + sizeofStructMem) % memAlignment = 0 ∧ b.start % memAlignment = 0 := by
      have hstop := hi.shape.stop_le hb
      have hstart_al := (hi.shape.blockAt hb).aligned
      refine ⟨hfit.trans hstop, ?_, hstart_al⟩
      rw [hsizes.2.2.2] at hstart_al ⊢
      omega
    refine Or.inr ⟨b, _, _, e, rfl, ?_, hc.allocated hfree hmem he hcounted hlow⟩
    simp only [Option.map_some, hadjust, Option.bind_some, if_pos hguard]

/-- **`mem_malloc`** returns: a null pointer, with the heap as it was, or the pointer to a free block that has room. -/
theorem Inv.memMalloc (hi : h.Inv bs) (size : ℕ) :
    (∃ h', memMalloc size h = some (none, h') ∧ h'.ram = h.ram ∧ h'.lfree = h.lfree) ∨
      ∃ h' b, memMalloc size h = some (some ((b.start + sizeofStructMem : ℕ) : ℤ), h') ∧
        b ∈ bs ∧ b.used = false ∧ Allocated h h' bs b size := by
  by_cases h₀ : size = 0
  · exact Or.inl ⟨h, by rw [MemHeap.memMalloc, if_pos h₀], rfl, rfl⟩
  rcases hi.memMalloc_find h₀ with ⟨-, h', hcall, hram, hlfree, -⟩ | ⟨b, h', bs', e, hfind, hcall, hall⟩
  · exact Or.inl ⟨h', hcall, hram, hlfree⟩
  · exact Or.inr ⟨h', b, hcall, List.mem_of_find?_eq_some hfind, (fits_iff.1 (List.find?_some hfind)).1,
      hall.allocated⟩

/-! ### `mem_init` -/

/-- **`mem_init`** makes the whole heap one free block. -/
theorem inv_memInit (ram : ByteMem) : (memInit ram).Inv [⟨0, memSizeAligned, false⟩] := by
  have hsizes := mem_sizes
  have hapart : Apart 0 memSizeAligned := Or.inl (by omega)
  have hstart : (memInit ram).header 0 = ⟨memSizeAligned, 0, 0⟩ := by
    simp only [memInit]
    rw [header_setPrev_of_apart hapart, header_setNext_of_apart hapart,
      header_setUsed_of_apart hapart, header_setUsed_self, header_setPrev_self,
      header_setNext_self]
    rfl
  have hend : ((memInit ram).header memSizeAligned).used = 1 := by
    simp only [memInit]
    rw [header_setPrev_self, header_setNext_self, header_setUsed_self]
  refine ⟨⟨⟨rfl, by decide, rfl⟩, ⟨⟨by decide, rfl, ?_, ?_⟩, ?_, trivial⟩, ?_⟩,
    List.isChain_singleton _, ?_, ?_⟩
  · rw [hstart]
  · rw [hstart]
    rfl
  · rw [hstart]
  · rw [hend]
    decide
  · exact fun x hx _ ↦ Nat.zero_le _
  · exact Or.inr ⟨_, List.mem_singleton_self _, rfl, rfl⟩

end MemHeap

end Lwip.Core
