import LwipPoc.Core.Mem.Shape

/-!
# What the operations of the heap do

`Inv h bs` is the invariant of the heap between calls: its shape, no two free blocks in a row, and
`lfree` at the lowest free block. For each of `mem_malloc`, `mem_free` and `mem_trim` there is one
theorem: called as it should be, it returns — no assertion fails, no loop runs on — keeps the
invariant, and edits the list of blocks in the way it says.

Every such theorem also says which bytes were touched. An allocator may touch the header of any
block, so what matters for the data in the blocks is `boundary bs`, **where headers are**: data in a
block is apart from every header of the list (`Shape.data_notMem`).
-/

namespace Lwip.Core

namespace MemHeap

open Block (Tiles tiles_cons tiles_append tiles_append_append LowestFree NoAdjacentFree
  noAdjacentFree_append noAdjacentFree_between)

variable {h h' : MemHeap} {bs xs ys mid mid' : List Block} {a b y : Block} {os : Set ℕ}
  {p q c e : ℕ}

/-- **The invariant of the heap.** -/
structure Inv (h : MemHeap) (bs : List Block) : Prop where
  shape : h.Shape bs
  apart : NoAdjacentFree bs
  lfree : LowestFree memSizeAligned bs h.lfree

/-- The offsets of the headers, the end marker's included. -/
def boundary (bs : List Block) : Set ℕ := { o | o = memSizeAligned ∨ ∃ b ∈ bs, b.start = o }

/-- Data is apart from headers. -/
theorem Shape.data_notMem (hs : h.Shape bs) (hb : b ∈ bs) {i : ℕ}
    (hi : b.start + sizeofStructMem ≤ i) (hi' : i < b.stop) : i ∉ headerBytes (boundary bs) := by
  rintro ⟨o, rfl | ⟨z, hz, rfl⟩, hle, hlt⟩
  · have := hs.stop_le hb
    omega
  · have := (hs.blockAt hz).room
    rcases hs.tiles.eq_or_apart hb hz with rfl | hlt' | hlt'
    · omega
    · omega
    · omega

theorem Shape.stop_mem_boundary (hs : h.Shape bs) (hb : b ∈ bs) : b.stop ∈ boundary bs :=
  hs.tiles.stop_eq_start hb

theorem start_mem_boundary (hb : b ∈ bs) : b.start ∈ boundary bs := Or.inr ⟨b, hb, rfl⟩

/-! ### Plugging holes -/

/-- The shape, in the middle of an operation, without a look at `lfree` and the counters. -/
theorem Shape.of_ram_eq (hs : h.Shape bs) (hram : h'.ram = h.ram) : h'.Shape bs :=
  hs.of_header_eq fun o ↦ by rw [header, header, hram]

theorem header_of_ram_eq (hram : h'.ram = h.ram) (o : ℕ) : h'.header o = h.header o := by
  rw [header, header, hram]

theorem Shape.header_start (hs : h.Shape (xs ++ [a, b] ++ ys)) :
    (h.header a.start).next = b.start ∧ (h.header b.start).prev = a.start ∧ a.start < b.start := by
  obtain ⟨_, _, -, hm, -⟩ := tiles_append_append.1 hs.tiles
  have ha := hs.blockAt (b := a) (by simp)
  have hab : b.start = a.stop := hm.2.2.1
  obtain ⟨hl, -⟩ := linked_append.1 hs.linked
  obtain ⟨-, hlm⟩ := linked_append.1 hl
  exact ⟨ha.next.trans hab.symm, hlm.2.2.2.1, hab ▸ hm.2.1⟩

/-- An assignment to `lfree` under a condition. -/
theorem ite_lfree (P : Prop) [Decidable P] (o : ℕ) :
    (if P then { h with lfree := o } else h) = { h with lfree := if P then o else h.lfree } := by
  split_ifs <;> rfl

/-- The next block is free: it is combined with the block at hand. -/
theorem plugForward_free (hs : h.Shape (xs ++ [a, b] ++ ys)) (hb : b.used = false) :
    h.plugForward a.start = { (h.setNext a.start b.stop).setPrev b.stop a.start with
      lfree := if h.lfree = b.start then a.start else h.lfree } := by
  obtain ⟨hnext, -, hlt⟩ := hs.header_start
  have hbat := hs.blockAt (b := b) (by simp)
  have hend : b.start ≠ memSizeAligned := by
    have := hs.stop_le (b := b) (by simp)
    have := hbat.room
    have := mem_sizes
    omega
  have hused : (h.header b.start).used = 0 := by rw [hbat.used, hb]; rfl
  have hapart : Apart b.start a.start :=
    hs.apart (by simp : b ∈ _) (by simp : a ∈ _) (by omega)
  have hset : (h.setNext a.start b.stop).header b.start = h.header b.start :=
    header_setNext_of_apart hapart
  rw [plugForward]
  simp only [hnext]
  rw [if_pos ⟨by omega, hused, hend⟩, ite_lfree]
  show ({ (h.setNext a.start (h.header b.start).next).setPrev
    ((h.setNext a.start (h.header b.start).next).header b.start).next a.start with
      lfree := if h.lfree = b.start then a.start else h.lfree } : MemHeap) = _
  rw [hbat.next, hset, hbat.next]

/-- The next block is used, or there is none. -/
theorem plugForward_used (hs : h.Shape (xs ++ [b] ++ ys)) (hys : ∀ y ∈ ys.head?, y.used = true) :
    h.plugForward b.start = h := by
  have hbat := hs.blockAt (b := b) (by simp)
  obtain ⟨_, _, -, hm, ht⟩ := tiles_append_append.1 hs.tiles
  rw [plugForward]
  simp only [hbat.next]
  refine if_neg fun hcond ↦ ?_
  cases ys with
  | nil => exact hcond.2.2 (hm.2.2.trans ht)
  | cons y ys =>
    have hy : y.start = b.stop := ht.1.trans hm.2.2.symm
    have hused := (hs.blockAt (b := y) (by simp)).used
    rw [hy, hcond.2.1, hys y rfl] at hused
    exact absurd hused (by decide)

/-- The previous block is free: it is combined with the block at hand. -/
theorem plugBackward_free (hs : h.Shape (xs ++ [a, b] ++ ys)) (ha : a.used = false) :
    h.plugBackward b.start = { (h.setNext a.start b.stop).setPrev b.stop a.start with
      lfree := if h.lfree = b.start then a.start else h.lfree } := by
  obtain ⟨-, hprev, hlt⟩ := hs.header_start
  have haat := hs.blockAt (b := a) (by simp)
  have hbat := hs.blockAt (b := b) (by simp)
  have hused : (h.header a.start).used = 0 := by rw [haat.used, ha]; rfl
  have hapart : Apart b.start a.start :=
    hs.apart (by simp : b ∈ _) (by simp : a ∈ _) (by omega)
  have hset : (h.setNext a.start b.stop).header b.start = h.header b.start :=
    header_setNext_of_apart hapart
  rw [plugBackward]
  simp only [hprev]
  rw [if_pos ⟨by omega, hused⟩, ite_lfree]
  show ({ (h.setNext a.start (h.header b.start).next).setPrev
    ((h.setNext a.start (h.header b.start).next).header b.start).next a.start with
      lfree := if h.lfree = b.start then a.start else h.lfree } : MemHeap) = _
  rw [hbat.next, hset, hbat.next]

/-- The previous block is used, or there is none. -/
theorem plugBackward_used (hs : h.Shape (xs ++ [b] ++ ys))
    (hxs : ∀ x ∈ xs.getLast?, x.used = true) : h.plugBackward b.start = h := by
  rw [plugBackward]
  refine if_neg fun hcond ↦ ?_
  rcases List.eq_nil_or_concat xs with rfl | ⟨zs, a, rfl⟩
  · have hstart : b.start = 0 := hs.tiles.1
    have hprev : (h.header b.start).prev = 0 := hs.linked.2.1
    exact hcond.1 (hprev.trans hstart.symm)
  · rw [List.concat_eq_append] at hs hxs
    have hs' : h.Shape (zs ++ [a, b] ++ ys) := by simpa using hs
    obtain ⟨-, hprev, -⟩ := hs'.header_start
    have hused := (hs'.blockAt (b := a) (by simp)).used
    have hcond' := hcond.2
    simp only [hprev] at hcond'
    rw [hcond', hxs a (by simp)] at hused
    exact absurd hused (by decide)

/-- **A hole**: the invariant of the heap, except that the free block `b` may have free neighbours. -/
structure Hole (h : MemHeap) (xs : List Block) (b : Block) (ys : List Block) : Prop where
  shape : h.Shape (xs ++ [b] ++ ys)
  free : b.used = false
  before : NoAdjacentFree xs
  behind : NoAdjacentFree ys
  lfree : LowestFree memSizeAligned (xs ++ [b] ++ ys) h.lfree

theorem boundary_merge (xs ys : List Block) (a b : Block) (u : Bool) :
    boundary (xs ++ [⟨a.start, b.stop, u⟩] ++ ys) ⊆ boundary (xs ++ [a, b] ++ ys) := by
  rintro o (rfl | ⟨z, hz, rfl⟩)
  · exact Or.inl rfl
  · simp only [List.append_assoc, List.mem_append, List.mem_cons, List.not_mem_nil, or_false] at hz
    rcases hz with hz | rfl | hz
    · exact Or.inr ⟨z, by simp [hz], rfl⟩
    · exact Or.inr ⟨a, by simp, rfl⟩
    · exact Or.inr ⟨z, by simp [hz], rfl⟩

/-- Merging two free blocks of which the first is the hole, or the second. -/
theorem merge_hole (hs : h.Shape (xs ++ [a, b] ++ ys)) (ha : a.used = false)
    (hxs : NoAdjacentFree xs) (hys : NoAdjacentFree ys)
    (hlfree : LowestFree memSizeAligned (xs ++ [a, b] ++ ys) h.lfree)
    (hh' : h' = { (h.setNext a.start b.stop).setPrev b.stop a.start with
      lfree := if h.lfree = b.start then a.start else h.lfree }) :
    h'.Hole xs ⟨a.start, b.stop, false⟩ ys ∧ Touches (boundary (xs ++ [a, b] ++ ys)) h h' := by
  obtain ⟨-, -, hlt⟩ := hs.header_start
  obtain ⟨hlow, hne⟩ := hlfree.merge hlt ha
  have hmerge := hs.merge
  rw [ha] at hmerge
  refine ⟨⟨hmerge.of_ram_eq (by rw [hh']), rfl, hxs, hys, ?_⟩, ?_⟩
  · rw [hh']
    show LowestFree _ _ (if h.lfree = b.start then a.start else h.lfree)
    rw [if_neg hne]
    exact hlow
  · have htouch : Touches ({a.start} ∪ {b.stop}) h h' := by
      rw [hh']
      exact touches_setNext.trans touches_setPrev
    refine htouch.mono ?_
    rintro o (rfl | rfl)
    · exact start_mem_boundary (by simp)
    · exact hs.stop_mem_boundary (by simp)

/-- **Plugging forward** leaves the hole with no free block behind it. -/
theorem Hole.plugForward (hh : h.Hole xs b ys) :
    ∃ b' ys', (h.plugForward b.start).Hole xs b' ys' ∧ b'.start = b.start ∧
      (∀ y ∈ ys'.head?, y.used = true) ∧ (∀ z, z.used = true → (z ∈ ys' ↔ z ∈ ys)) ∧
      Touches (boundary (xs ++ [b] ++ ys)) h (h.plugForward b.start) ∧
      boundary (xs ++ [b'] ++ ys') ⊆ boundary (xs ++ [b] ++ ys) := by
  by_cases hfree : ∃ y zs, ys = y :: zs ∧ y.used = false
  · obtain ⟨y, zs, rfl, hy⟩ := hfree
    have hsplit : xs ++ [b] ++ y :: zs = xs ++ [b, y] ++ zs := by simp
    have hs : h.Shape (xs ++ [b, y] ++ zs) := hsplit ▸ hh.shape
    have hzs := noAdjacentFree_append.1 (show NoAdjacentFree ([y] ++ zs) from hh.behind)
    obtain ⟨hhole, htouch⟩ := merge_hole hs hh.free hh.before hzs.2.1 (hsplit ▸ hh.lfree)
      (plugForward_free hs hy)
    refine ⟨_, zs, hhole, rfl, fun z hz ↦ ?_, fun z hz ↦ ?_, hsplit ▸ htouch,
      hsplit ▸ boundary_merge xs zs b y false⟩
    · exact (hzs.2.2 y rfl z hz).resolve_left (by simp [hy])
    · rw [List.mem_cons, or_iff_right]
      rintro rfl
      exact absurd hz (by simp [hy])
  · have hused : ∀ y ∈ ys.head?, y.used = true := by
      intro y hy
      by_contra hne
      cases ys with
      | nil => cases hy
      | cons z zs =>
        obtain rfl := Option.some.inj hy
        exact hfree ⟨z, zs, rfl, Bool.eq_false_iff.2 hne⟩
    have hsame := plugForward_used hh.shape hused
    exact ⟨b, ys, by rwa [hsame], rfl, hused, fun _ _ ↦ Iff.rfl,
      by rw [hsame]; exact ByteMem.SameExcept.refl _ _, subset_rfl⟩

/-- **Plugging backward** leaves the hole with no free block before it. -/
theorem Hole.plugBackward (hh : h.Hole xs b ys) :
    ∃ xs' b', (h.plugBackward b.start).Hole xs' b' ys ∧ (∀ x ∈ xs'.getLast?, x.used = true) ∧
      (∀ z, z.used = true → (z ∈ xs' ↔ z ∈ xs)) ∧
      Touches (boundary (xs ++ [b] ++ ys)) h (h.plugBackward b.start) := by
  by_cases hfree : ∃ zs a, xs = zs ++ [a] ∧ a.used = false
  · obtain ⟨zs, a, rfl, ha⟩ := hfree
    have hsplit : zs ++ [a] ++ [b] ++ ys = zs ++ [a, b] ++ ys := by simp
    have hs : h.Shape (zs ++ [a, b] ++ ys) := hsplit ▸ hh.shape
    have hzs := noAdjacentFree_append.1 hh.before
    obtain ⟨hhole, htouch⟩ := merge_hole hs ha hzs.1 hh.behind (hsplit ▸ hh.lfree)
      (plugBackward_free hs ha)
    refine ⟨zs, _, hhole, fun z hz ↦ ?_, fun z hz ↦ ?_, hsplit ▸ htouch⟩
    · exact (hzs.2.2 z hz a rfl).resolve_right (by simp [ha])
    · rw [List.mem_append, List.mem_singleton, or_iff_left]
      rintro rfl
      exact absurd hz (by simp [ha])
  · have hused : ∀ x ∈ xs.getLast?, x.used = true := by
      intro x hx
      by_contra hne
      obtain ⟨zs, rfl⟩ := List.getLast?_eq_some_iff.1 hx
      exact hfree ⟨zs, x, rfl, Bool.eq_false_iff.2 hne⟩
    have hsame := plugBackward_used hh.shape hused
    exact ⟨xs, b, by rwa [hsame], hused, fun _ _ ↦ Iff.rfl,
      by rw [hsame]; exact ByteMem.SameExcept.refl _ _⟩

/-- **`plug_holes`** restores the invariant around a hole, and keeps the used blocks. -/
theorem Hole.plugHoles (hh : h.Hole xs b ys) :
    ∃ h' bs', h.plugHoles b.start = some h' ∧ h'.Inv bs' ∧
      (∀ z, z.used = true → (z ∈ bs' ↔ z ∈ xs ++ ys)) ∧
      Touches (boundary (xs ++ [b] ++ ys)) h h' := by
  have hbat := hh.shape.blockAt (b := b) (by simp)
  have hle := hh.shape.stop_le (b := b) (by simp)
  have hsizes := mem_sizes
  have hguard : b.start < memSizeAligned ∧ (h.header b.start).used = 0 ∧
      (h.header b.start).next ≤ memSizeAligned := by
    refine ⟨?_, ?_, hbat.next.le.trans hle⟩
    · have := hbat.room
      omega
    · rw [hbat.used, hh.free]
      rfl
  obtain ⟨b₁, ys₁, hh₁, hstart, hhead, hmem₁, htouch₁, hsub⟩ := hh.plugForward
  obtain ⟨xs₂, b₂, hh₂, hlast, hmem₂, htouch₂⟩ := hh₁.plugBackward
  rw [hstart] at hh₂ htouch₂
  refine ⟨_, xs₂ ++ [b₂] ++ ys₁, if_pos hguard, ⟨hh₂.shape,
    noAdjacentFree_between hh₂.before hh₂.behind hlast hhead, hh₂.lfree⟩, fun z hz ↦ ?_, ?_⟩
  · have hne : z ≠ b₂ := by
      rintro rfl
      exact absurd hz (by simp [hh₂.free])
    simp [hmem₁ z hz, hmem₂ z hz, hne]
  · exact ByteMem.SameExcept.trans htouch₁ (htouch₂.mono hsub)

/-! ### `mem_free` -/

/-- A block of the heap, and the blocks around it. -/
theorem Inv.split (hi : h.Inv bs) (hb : b ∈ bs) :
    ∃ xs ys, bs = xs ++ [b] ++ ys ∧ ∀ z, z ∈ xs ++ ys ↔ z ∈ bs ∧ z ≠ b := by
  obtain ⟨xs, ys, rfl⟩ := List.append_of_mem hb
  have hpair := hi.shape.tiles.pairwise
  have hroom := (hi.shape.tiles.mem_bounds hb).2.1
  have hxs : b ∉ xs := fun hx ↦ by
    have := (List.pairwise_append.1 hpair).2.2 b hx b List.mem_cons_self
    omega
  have hys : b ∉ ys := fun hy ↦ by
    have := (List.pairwise_cons.1 (List.pairwise_append.1 hpair).2.1).1 b hy
    omega
  refine ⟨xs, ys, by simp, fun z ↦ ?_⟩
  simp only [List.mem_append, List.mem_cons]
  constructor
  · rintro (hz | hz)
    · exact ⟨Or.inl hz, fun heq ↦ hxs (heq ▸ hz)⟩
    · exact ⟨Or.inr (Or.inr hz), fun heq ↦ hys (heq ▸ hz)⟩
  · rintro ⟨hz | rfl | hz, hne⟩
    · exact Or.inl hz
    · exact absurd rfl hne
    · exact Or.inr hz

theorem boundary_setUsed (xs ys : List Block) (b : Block) (u : Bool) :
    boundary (xs ++ [{ b with used := u }] ++ ys) = boundary (xs ++ [b] ++ ys) := by
  ext o
  simp [boundary, or_and_right, exists_or]

/-- The pointer to a block's data passes the sanity checks. -/
theorem BlockAt.data_offset (hat : h.BlockAt b) (hle : b.stop ≤ memSizeAligned) :
    (((b.start + sizeofStructMem : ℕ) : ℤ) % memAlignment = 0 ∧
      (sizeofStructMem : ℤ) ≤ ((b.start + sizeofStructMem : ℕ) : ℤ) ∧
      ((b.start + sizeofStructMem : ℕ) : ℤ) < memSizeAligned) ∧
    (((b.start + sizeofStructMem : ℕ) : ℤ) - sizeofStructMem).toNat = b.start := by
  have hroom := hat.room
  have hal := hat.aligned
  obtain ⟨h₁, h₂, h₃, h₄⟩ := mem_sizes
  rw [h₄] at hal
  rw [h₄]
  omega

/-- Freeing a used block makes a hole. -/
theorem Inv.hole (hi : h.Inv (xs ++ [b] ++ ys)) (hu : b.used = true)
    (hram : h'.ram = (h.setUsed b.start 0).ram)
    (hlfree : h'.lfree = if b.start < h.lfree then b.start else h.lfree) :
    h'.Hole xs { b with used := false } ys := by
  obtain ⟨hxb, hys, -⟩ := noAdjacentFree_append.1 hi.apart
  obtain ⟨hxs, -⟩ := noAdjacentFree_append.1 hxb
  have hmem : ∀ z, z ∈ xs ∨ z ∈ ys → z ∈ xs ++ [b] ++ ys := by
    rintro z (hz | hz) <;> simp [hz]
  refine ⟨(hi.shape.setUsed false).of_ram_eq hram, rfl, hxs, hys, ?_⟩
  rw [hlfree]
  refine ⟨fun z hz hfree ↦ ?_, ?_⟩
  · simp only [List.append_assoc, List.mem_append, List.mem_cons, List.not_mem_nil, or_false] at hz
    rcases hz with hz | rfl | hz
    · have := hi.lfree.1 z (hmem z (Or.inl hz)) hfree
      split_ifs <;> omega
    · show _ ≤ b.start
      split_ifs <;> omega
    · have := hi.lfree.1 z (hmem z (Or.inr hz)) hfree
      split_ifs <;> omega
  · split_ifs with hlt
    · exact Or.inr ⟨{ b with used := false }, by simp, rfl, rfl⟩
    · refine hi.lfree.2.imp_right fun ⟨z, hz, hfree, hzo⟩ ↦ ⟨z, ?_, hfree, hzo⟩
      have hne : z ≠ b := by
        rintro rfl
        exact absurd hu (by simp [hfree])
      have hz' : z ∈ xs ∨ z ∈ ys := by simpa [hne] using hz
      rcases hz' with hz' | hz' <;> simp [hz']

/-- **`mem_free`** of a used block returns, keeps the invariant and all other used blocks, and touches
nothing but headers. -/
theorem Inv.memFree (hi : h.Inv bs) (hb : b ∈ bs) (hu : b.used = true) :
    ∃ h' bs', memFree (some ((b.start + sizeofStructMem : ℕ) : ℤ)) h = some h' ∧ h'.Inv bs' ∧
      (∀ z, z.used = true → (z ∈ bs' ↔ z ∈ bs ∧ z ≠ b)) ∧ Touches (boundary bs) h h' := by
  have hat := hi.shape.blockAt hb
  obtain ⟨hcheck, hoffset⟩ := hat.data_offset (hi.shape.stop_le hb)
  obtain ⟨xs, ys, rfl, hmem⟩ := hi.split hb
  set h₁ : MemHeap := (if b.start < (h.setUsed b.start 0).lfree then
    { h.setUsed b.start 0 with lfree := b.start } else h.setUsed b.start 0) with hh₁
  have hlfree₁ : h₁ = { h.setUsed b.start 0 with
      lfree := if b.start < h.lfree then b.start else h.lfree } := by rw [hh₁, ite_lfree]; rfl
  set h₂ := h₁.decUsed ((h₁.header b.start).next + 2 ^ 16 - b.start) with hh₂
  have hhole : h₂.Hole xs { b with used := false } ys :=
    hi.hole hu (by rw [hh₂, hlfree₁]; rfl) (by rw [hh₂, hlfree₁]; rfl)
  obtain ⟨h', bs', hplug, hinv, hused, htouch⟩ := hhole.plugHoles
  refine ⟨h', bs', ?_, hinv, fun z hz ↦ (hused z hz).trans (hmem z), ?_⟩
  · simp only [MemHeap.memFree]
    rw [if_pos hcheck]
    simp only [hoffset]
    rw [if_neg (by rw [hat.used, hu]; decide)]
    exact hplug
  · have hset : Touches (boundary (xs ++ [b] ++ ys)) h h₂ := by
      have htouch₀ : Touches {b.start} h h₂ := by
        rw [hh₂, hlfree₁]
        exact touches_setUsed
      exact htouch₀.mono fun o ho ↦ Set.mem_singleton_iff.1 ho ▸ start_mem_boundary hb
    rw [boundary_setUsed] at htouch
    exact ByteMem.SameExcept.trans hset htouch

/-! ### Putting a header -/

/-- The block's data is as it was. -/
def SameData (h h' : MemHeap) (b : Block) : Prop :=
  ∀ i, b.start + sizeofStructMem ≤ i → i < b.stop → h'.ram i = h.ram i

/-- Stores to headers leave all data alone. -/
theorem Shape.sameData (hs : h.Shape bs) (htouch : Touches (boundary bs) h h') (hb : b ∈ bs) :
    SameData h h' b :=
  fun i hi hi' ↦ htouch i (hs.data_notMem hb hi hi')

theorem putHeader_touches : Touches {p, e} h (h.putHeader p e c) := by
  have hall := ((touches_setUsed (h := h) (o := e) (v := 0)).trans
    (touches_setNext (o := e) (v := c))).trans
    ((touches_setPrev (o := e) (v := p)).trans (touches_setNext (o := p) (v := e)))
  refine hall.mono ?_
  rintro o ((rfl | rfl) | (rfl | rfl)) <;> simp

theorem header_putHeader (hapart : Apart p e) (hp : p ≤ memSizeAligned) (he : e ≤ memSizeAligned)
    (hc : c ≤ memSizeAligned) :
    (h.putHeader p e c).header p = ⟨e, (h.header p).prev, (h.header p).used⟩ ∧
      (h.putHeader p e c).header e = ⟨c, p, 0⟩ := by
  constructor
  · rw [putHeader, header_setNext_self, header_setPrev_of_apart hapart,
      header_setNext_of_apart hapart, header_setUsed_of_apart hapart, mod_eq_of_le he]
  · rw [putHeader, header_setNext_of_apart (apart_comm.1 hapart), header_setPrev_self,
      header_setNext_self, header_setUsed_self, mod_eq_of_le hp, mod_eq_of_le hc]

/-- **Putting a header into blocks**, as far as the shape and the data go: the blocks `mid` become a
block up to `e` and a free one behind it. -/
theorem Shape.put {u : Bool} (hs : h.Shape (xs ++ mid ++ ys)) (hmid : Tiles p c mid) (hne : mid ≠ [])
    (hpe : p + sizeofStructMem + minSizeAligned ≤ e)
    (hec : e + sizeofStructMem + minSizeAligned ≤ c) (he : e % memAlignment = 0)
    (htouch : Touches {p, e} h h')
    (hheader_p : h'.header p = ⟨e, (h.header p).prev, if u = true then 1 else 0⟩)
    (hheader_e : h'.header e = ⟨c, p, 0⟩) :
    (h'.relink e).Shape (xs ++ [⟨p, e, u⟩, ⟨e, c, false⟩] ++ ys) ∧
      (∀ x ∈ xs ++ ys, SameData h (h'.relink e) x) ∧ SameData h (h'.relink e) ⟨p, e, u⟩ := by
  have hp : p % memAlignment = 0 := by
    cases mid with
    | nil => exact absurd rfl hne
    | cons m ms => exact hmid.1 ▸ (hs.blockAt (b := m) (by simp)).aligned
  have hall : Touches ({p, e} ∪ {c}) h (h'.relink e) :=
    htouch.trans (relink_touches (by rw [hheader_e]))
  -- the stores went to three headers, all of them between `p` and the end of the one at `c`
  have hsame : ∀ i, (i < p ∨ p + sizeofStructMem ≤ i ∧ i < e ∨ c + sizeofStructMem ≤ i) →
      (h'.relink e).ram i = h.ram i := by
    intro i hi
    refine hall i ?_
    rintro ⟨o, (rfl | rfl) | rfl, hle, hlt⟩ <;> omega
  refine ⟨hs.putHeader hmid hne hpe hec hp he htouch hheader_p hheader_e, fun x hx i hi hi' ↦ ?_,
    fun i hi hi' ↦ hsame i (Or.inr (Or.inl ⟨hi, hi'⟩))⟩
  obtain ⟨_, _, hxs, hm, hys⟩ := tiles_append_append.1 hs.tiles
  obtain ⟨rfl, rfl⟩ := hm.unique hmid hne
  rcases List.mem_append.1 hx with hx | hx
  · have := (hxs.mem_bounds hx).2.2
    exact hsame i (Or.inl (by omega))
  · have := (hys.mem_bounds hx).1
    exact hsame i (Or.inr (Or.inr (by omega)))

/-- A used block and a free one, before a used one. -/
theorem noAdjacentFree_put (hxs : NoAdjacentFree xs) (hys : NoAdjacentFree ys)
    (hhead : ∀ y ∈ ys.head?, y.used = true) :
    NoAdjacentFree (xs ++ [⟨p, e, true⟩, ⟨e, c, false⟩] ++ ys) := by
  refine noAdjacentFree_append.2 ⟨noAdjacentFree_append.2 ⟨hxs, ?_, ?_⟩, hys, ?_⟩
  · exact List.isChain_cons_cons.2 ⟨Or.inl rfl, List.isChain_singleton _⟩
  · rintro x - y hy
    obtain rfl := Option.some.inj hy
    exact Or.inr rfl
  · exact fun _ _ y hy ↦ Or.inr (hhead y hy)

/-- What `relink` does to the bytes depends on the bytes alone. -/
theorem relink_ram_congr (hram : h'.ram = h.ram) : (h'.relink e).ram = (h.relink e).ram := by
  rw [relink, relink, header_of_ram_eq hram]
  split_ifs
  · rw [setPrev, setPrev, hram]
  · exact hram

/-- **Putting a header into blocks that begin with a used one**: the invariant, given what `lfree`
becomes. -/
theorem Inv.put {b : Block} {ms : List Block} (hi : h.Inv (xs ++ b :: ms ++ ys))
    (hmid : Tiles p c (b :: ms)) (hne : b :: ms ≠ []) (hu : b.used = true)
    (hys : ∀ y ∈ ys.head?, y.used = true) (hpe : p + sizeofStructMem + minSizeAligned ≤ e)
    (hec : e + sizeofStructMem + minSizeAligned ≤ c) (he : e % memAlignment = 0)
    (hram : h'.ram = ((h.putHeader p e c).relink e).ram)
    (hlow : LowestFree memSizeAligned (xs ++ [⟨p, e, true⟩, ⟨e, c, false⟩] ++ ys) h'.lfree) :
    h'.Inv (xs ++ [⟨p, e, true⟩, ⟨e, c, false⟩] ++ ys) ∧
      (∀ x ∈ xs ++ ys, SameData h h' x) ∧ SameData h h' ⟨p, e, true⟩ := by
  obtain ⟨_, c', -, hm, ht⟩ := tiles_append_append.1 hi.shape.tiles
  have hstop : c ≤ memSizeAligned := (hm.unique hmid hne).2 ▸ ht.le
  have hsizes := mem_sizes
  obtain ⟨hxb, hnys, -⟩ := noAdjacentFree_append.1 hi.apart
  obtain ⟨hnxs, -⟩ := noAdjacentFree_append.1 hxb
  obtain ⟨hheader_p, hheader_e⟩ := header_putHeader (h := h) (p := p) (e := e) (c := c)
    (Or.inl (by omega)) (by omega) (by omega) hstop
  have hused : (h.header b.start).used = 1 := by
    rw [(hi.shape.blockAt (b := b) (by simp)).used, hu]
    rfl
  obtain ⟨hshape, hdata, hkept⟩ := hi.shape.put (u := true) hmid hne hpe hec he
    putHeader_touches (hheader_p.trans (by rw [← hmid.1, hused]; rfl)) hheader_e
  refine ⟨⟨hshape.of_ram_eq hram, noAdjacentFree_put hnxs hnys hys, hlow⟩, ?_, ?_⟩
  · exact fun x hx i hi hi' ↦ hram ▸ hdata x hx i hi hi'
  · exact fun i hi hi' ↦ hram ▸ hkept i hi hi'

/-! ### `mem_trim` -/

theorem memBlockSize_aligned (n : ℕ) :
    memBlockSize n % memAlignment = 0 ∧ minSizeAligned ≤ memBlockSize n := by
  obtain ⟨-, h₂, -, h₄⟩ := mem_sizes
  rw [memBlockSize, memAlignSize, h₂, h₄]
  split_ifs <;> omega

/-- The block size of a size that a block of this size has room for. -/
theorem memBlockSize_le {n size : ℕ} (hn : n ≤ size) (hsize : size % memAlignment = 0)
    (hmin : minSizeAligned ≤ size) (hmax : size ≤ memSizeAligned) :
    n ≤ memBlockSize n ∧ memBlockSize n ≤ size := by
  obtain ⟨-, h₂, h₃, h₄⟩ := mem_sizes
  rw [h₄] at hsize
  rw [memBlockSize, memAlignSize, h₂, h₄]
  split_ifs <;> omega

/-- The next block is free, so its header moves to `e`. -/
theorem Inv.trim_move (hi : h.Inv (xs ++ [b, y] ++ ys)) (hu : b.used = true) (hy : y.used = false)
    (hbe : b.start + sizeofStructMem + minSizeAligned ≤ e) (heb : e < b.stop)
    (he : e % memAlignment = 0) (hram : h'.ram = ((h.putHeader b.start e y.stop).relink e).ram)
    (hlfree : h'.lfree = if h.lfree = y.start then e else h.lfree) :
    h'.Inv (xs ++ [⟨b.start, e, true⟩, ⟨e, y.stop, false⟩] ++ ys) ∧
      (∀ x ∈ xs ++ ys, SameData h h' x) ∧ SameData h h' ⟨b.start, e, true⟩ := by
  have hroom := (hi.shape.blockAt (b := y) (by simp)).room
  obtain ⟨_, _, hxs, hm, hys⟩ := tiles_append_append.1 hi.shape.tiles
  have hby : y.start = b.stop := hm.2.2.1
  have hmid : Tiles b.start y.stop [b, y] := ⟨rfl, hm.2.1, hby, hm.2.2.2.1, rfl⟩
  obtain ⟨rfl, rfl⟩ := hm.unique hmid (List.cons_ne_nil _ _)
  have hle : h.lfree ≤ y.start := hi.lfree.1 y (by simp) hy
  have hhead : ∀ z ∈ ys.head?, z.used = true := fun z hz ↦
    ((noAdjacentFree_append.1 hi.apart).2.2 y (by simp) z hz).resolve_left (by simp [hy])
  refine hi.put hmid (List.cons_ne_nil _ _) hu hhead hbe (by omega) he hram ?_
  rw [hlfree]
  refine ⟨fun z hz hfree ↦ ?_, ?_⟩
  · simp only [List.append_assoc, List.mem_append, List.mem_cons, List.not_mem_nil, or_false] at hz
    rcases hz with hz | (rfl | rfl) | hz
    · have hz' := hi.lfree.1 z (by simp [hz]) hfree
      have := hxs.mem_bounds hz
      rw [if_neg (by omega)]
      exact hz'
    · cases hfree
    · show (if h.lfree = y.start then e else h.lfree) ≤ e
      split_ifs with heq
      · exact le_rfl
      · -- a free block below `y` lies before `b`
        rcases hi.lfree.2 with hend | ⟨x, hx, hxfree, hxo⟩
        · have := hys.le
          omega
        · simp only [List.append_assoc, List.mem_append, List.mem_cons, List.not_mem_nil,
            or_false] at hx
          rcases hx with hx | (rfl | rfl) | hx
          · have := hxs.mem_bounds hx
            omega
          · exact absurd hu (by simp [hxfree])
          · exact absurd hxo.symm heq
          · have := hys.mem_bounds hx
            omega
    · have := hys.mem_bounds hz
      split_ifs <;> omega
  · split_ifs with heq
    · exact Or.inr ⟨⟨e, y.stop, false⟩, by simp, rfl, rfl⟩
    · refine hi.lfree.2.imp_right fun ⟨x, hx, hxfree, hxo⟩ ↦ ⟨x, ?_, hxfree, hxo⟩
      simp only [List.append_assoc, List.mem_append, List.mem_cons, List.not_mem_nil, or_false] at hx
      rcases hx with hx | (rfl | rfl) | hx
      · simp [hx]
      · exact absurd hu (by simp [hxfree])
      · exact absurd hxo.symm heq
      · simp [hx]

/-- The next block is used, and what is left over behind `e` becomes a block. -/
theorem Inv.trim_split (hi : h.Inv (xs ++ [b] ++ ys)) (hu : b.used = true)
    (hys : ∀ y ∈ ys.head?, y.used = true)
    (hbe : b.start + sizeofStructMem + minSizeAligned ≤ e)
    (heb : e + sizeofStructMem + minSizeAligned ≤ b.stop) (he : e % memAlignment = 0)
    (hram : h'.ram = ((h.putHeader b.start e b.stop).relink e).ram)
    (hlfree : h'.lfree = if e < h.lfree then e else h.lfree) :
    h'.Inv (xs ++ [⟨b.start, e, true⟩, ⟨e, b.stop, false⟩] ++ ys) ∧
      (∀ x ∈ xs ++ ys, SameData h h' x) ∧ SameData h h' ⟨b.start, e, true⟩ := by
  have hsizes := mem_sizes
  have hmid : Tiles b.start b.stop [b] := ⟨rfl, by omega, rfl⟩
  refine hi.put hmid (List.cons_ne_nil _ _) hu hys hbe heb he hram ?_
  rw [hlfree]
  refine ⟨fun z hz hfree ↦ ?_, ?_⟩
  · simp only [List.append_assoc, List.mem_append, List.mem_cons, List.not_mem_nil, or_false] at hz
    rcases hz with hz | (rfl | rfl) | hz
    · have := hi.lfree.1 z (by simp [hz]) hfree
      split_ifs <;> omega
    · cases hfree
    · show (if e < h.lfree then e else h.lfree) ≤ e
      split_ifs <;> omega
    · have := hi.lfree.1 z (by simp [hz]) hfree
      split_ifs <;> omega
  · split_ifs
    · exact Or.inr ⟨⟨e, b.stop, false⟩, by simp, rfl, rfl⟩
    · refine hi.lfree.2.imp_right fun ⟨z, hz, hfree, hzo⟩ ↦ ⟨z, ?_, hfree, hzo⟩
      simp only [List.append_assoc, List.mem_append, List.mem_cons, List.not_mem_nil, or_false] at hz
      rcases hz with hz | rfl | hz
      · simp [hz]
      · exact absurd hu (by simp [hfree])
      · simp [hz]

/-- The block behind `b`, if it is free. -/
theorem Shape.next_free (hs : h.Shape (xs ++ [b] ++ ys)) (hfree : (h.header b.stop).used = 0) :
    ∃ y zs, ys = y :: zs ∧ y.start = b.stop ∧ y.used = false := by
  obtain ⟨_, _, -, hm, ht⟩ := tiles_append_append.1 hs.tiles
  cases ys with
  | nil => exact absurd (hm.2.2.trans ht ▸ hfree) hs.end_used
  | cons y zs =>
    have hy : y.start = b.stop := ht.1.trans hm.2.2.symm
    have hused := (hs.blockAt (b := y) (by simp)).used
    rw [hy, hfree] at hused
    refine ⟨y, zs, rfl, hy, ?_⟩
    by_contra hne
    rw [if_pos (Bool.eq_true_of_not_eq_false hne)] at hused
    exact absurd hused (by decide)

/-- The block behind `b` is used, or there is none. -/
theorem Shape.next_used (hs : h.Shape (xs ++ [b] ++ ys)) (hused : (h.header b.stop).used ≠ 0) :
    ∀ y ∈ ys.head?, y.used = true := by
  obtain ⟨_, _, -, hm, ht⟩ := tiles_append_append.1 hs.tiles
  cases ys with
  | nil => simp
  | cons y zs =>
    intro z hz
    obtain rfl := Option.some.inj hz
    have hy : y.start = b.stop := ht.1.trans hm.2.2.symm
    by_contra hne
    refine hused ?_
    rw [← hy, (hs.blockAt (b := y) (by simp)).used, if_neg hne]

theorem Shape.stop_aligned (hs : h.Shape bs) (hb : b ∈ bs) : b.stop % memAlignment = 0 := by
  rcases hs.tiles.stop_eq_start hb with heq | ⟨y, hy, heq⟩
  · rw [heq]
    rfl
  · exact heq ▸ (hs.blockAt hy).aligned

theorem relink_lfree (h : MemHeap) (e : ℕ) : (h.relink e).lfree = h.lfree := by
  rw [relink]
  split_ifs <;> rfl

/-- **What `mem_trim` has to do** to the used block `b` of `bs`: the block ends at some `e` from then
on, with room for the new size, its data up to there is as it was, and so are the other used blocks
and their data. -/
def Trimmed (h h' : MemHeap) (bs : List Block) (b : Block) (newsize : ℕ) : Prop :=
  ∃ bs' e, h'.Inv bs' ∧ b.start + sizeofStructMem + newsize ≤ e ∧ e ≤ b.stop ∧
    (∀ z, z.used = true → (z ∈ bs' ↔ z ∈ bs ∧ z ≠ b ∨ z = ⟨b.start, e, true⟩)) ∧
    (∀ x ∈ bs, x.used = true → x ≠ b → SameData h h' x) ∧ SameData h h' ⟨b.start, e, true⟩

/-- `mem_trim` has **trimmed** the block `b` of `bs` to end at `e`: this is `Trimmed` with the blocks that there are
then, and with the counter. -/
structure TrimmedTo (h h' : MemHeap) (bs bs' : List Block) (b : Block) (newsize e : ℕ) : Prop where
  inv : h'.Inv bs'
  room : b.start + sizeofStructMem + newsize ≤ e
  stop_le : e ≤ b.stop
  used : ∀ z, z.used = true → (z ∈ bs' ↔ z ∈ bs ∧ z ≠ b ∨ z = ⟨b.start, e, true⟩)
  data : ∀ x ∈ bs, x.used = true → x ≠ b → SameData h h' x
  kept : SameData h h' ⟨b.start, e, true⟩
  counted : h.stats.used < 2 ^ 16 → b.stop - e ≤ h.stats.used → h'.stats.used = h.stats.used - (b.stop - e)

/-- Nothing happens when the block is used up to its end, or too little would be left over. -/
theorem Inv.trimmed_self {newsize : ℕ} (hi : h.Inv bs) (hb : b ∈ bs) (hu : b.used = true)
    (hn : b.start + sizeofStructMem + newsize ≤ b.stop) : TrimmedTo h h bs bs b newsize b.stop := by
  have hb' : (⟨b.start, b.stop, true⟩ : Block) = b := by rw [← hu]
  refine ⟨hi, hn, le_rfl, fun z _ ↦ ?_, fun _ _ _ _ _ _ _ ↦ rfl, fun _ _ _ ↦ rfl, fun _ _ ↦ by omega⟩
  rw [hb']
  constructor
  · exact fun hz ↦ (eq_or_ne z b).symm.imp_left fun hne ↦ ⟨hz, hne⟩
  · rintro (⟨hz, -⟩ | rfl)
    · exact hz
    · exact hb

/-- A header was put at `e`; the used blocks behind it are those that were behind `b`. -/
theorem Inv.trimmed_put {newsize : ℕ} {zs : List Block}
    (hi : h'.Inv (xs ++ [⟨b.start, e, true⟩, ⟨e, c, false⟩] ++ zs))
    (hmem : ∀ z, z ∈ xs ++ ys ↔ z ∈ bs ∧ z ≠ b) (hzs : ∀ z, z.used = true → (z ∈ zs ↔ z ∈ ys))
    (hdata : ∀ x ∈ xs ++ zs, SameData h h' x) (hkept : SameData h h' ⟨b.start, e, true⟩)
    (hn : b.start + sizeofStructMem + newsize ≤ e) (he : e ≤ b.stop)
    (hcounted : h.stats.used < 2 ^ 16 → b.stop - e ≤ h.stats.used →
      h'.stats.used = h.stats.used - (b.stop - e)) :
    TrimmedTo h h' bs (xs ++ [⟨b.start, e, true⟩, ⟨e, c, false⟩] ++ zs) b newsize e := by
  have hmem' : ∀ z, z.used = true → (z ∈ xs ++ zs ↔ z ∈ bs ∧ z ≠ b) := fun z hz ↦ by
    rw [← hmem z, List.mem_append, List.mem_append, hzs z hz]
  refine ⟨hi, hn, he, fun z hz ↦ ?_, fun x hx hxu hne ↦ hdata x ((hmem' x hxu).2 ⟨hx, hne⟩),
    hkept, hcounted⟩
  have hne : z ≠ ⟨e, c, false⟩ := by
    rintro rfl
    cases hz
  rw [← hmem' z hz]
  simp only [List.append_assoc, List.mem_append, List.mem_cons, List.not_mem_nil, or_false, hne]
  rw [or_assoc, or_comm (a := z ∈ zs)]

theorem ram_withStats (stats : MemStats) : ({ h with stats := stats } : MemHeap).ram = h.ram := rfl

theorem lfree_withStats (stats : MemStats) : ({ h with stats := stats } : MemHeap).lfree = h.lfree := rfl

theorem decUsed_ram (n : ℕ) : (h.decUsed n).ram = h.ram := ram_withStats _

theorem decUsed_lfree (n : ℕ) : (h.decUsed n).lfree = h.lfree := lfree_withStats _

/-- `MEM_STATS_DEC_USED`, when the counter does not wrap. -/
theorem decUsed_used {n : ℕ} (hbound : h.stats.used < 2 ^ 16) (hle : n ≤ h.stats.used) :
    (h.decUsed n).stats.used = h.stats.used - n := by
  show (h.stats.used + 2 ^ 16 - n % 2 ^ 16) % 2 ^ 16 = _
  omega

theorem relink_stats (h : MemHeap) (e : ℕ) : (h.relink e).stats = h.stats := by
  rw [relink]
  split_ifs <;> rfl

/-- **`mem_trim`** of a used block to a block size it has room for returns the same pointer. -/
theorem Inv.memTrim_of_room {newsize : ℕ} (hi : h.Inv bs) (hb : b ∈ bs) (hu : b.used = true)
    (hn : memBlockSize newsize ≤ b.stop - (b.start + sizeofStructMem)) :
    ∃ h' bs' e, memTrim ((b.start + sizeofStructMem : ℕ) : ℤ) newsize h =
      some (some ((b.start + sizeofStructMem : ℕ) : ℤ), h') ∧
        TrimmedTo h h' bs bs' b (memBlockSize newsize) e := by
  have hat := hi.shape.blockAt hb
  have hstop := hi.shape.stop_le hb
  obtain ⟨hcheck, hoffset⟩ := hat.data_offset hstop
  have hroom := hat.room
  have hsizes := mem_sizes
  have hstart_al := hat.aligned
  obtain ⟨hal, hmin⟩ := memBlockSize_aligned newsize
  set n := memBlockSize newsize with hndef
  set e := b.start + sizeofStructMem + n with he
  have he_al : e % memAlignment = 0 := by
    rw [hsizes.2.2.2] at hal hstart_al ⊢
    omega
  have hptr2 : e % 2 ^ 16 = e := by omega
  have hsize : (b.stop + 2 ^ 17 - b.start - sizeofStructMem) % 2 ^ 16 =
      b.stop - (b.start + sizeofStructMem) := by omega
  -- what is given back is what the counter loses
  have hcount : b.stop - (b.start + sizeofStructMem) - n = b.stop - e := by omega
  obtain ⟨xs, ys, hbs, hmem⟩ := hi.split hb
  have hi' := hi
  rw [hbs] at hi'
  have hsame : TrimmedTo h h bs bs b n b.stop := hi.trimmed_self hb hu (by omega)
  simp only [MemHeap.memTrim]
  rw [← hndef, if_neg (by omega), if_pos ⟨hcheck.2.1, hcheck.2.2⟩]
  simp only [hoffset, hat.next, hsize, ← he, hptr2, hcount]
  rw [if_neg (by omega)]
  by_cases heq : n = b.stop - (b.start + sizeofStructMem)
  · rw [if_pos heq]
    exact ⟨h, bs, b.stop, rfl, hsame⟩
  rw [if_neg heq]
  by_cases hfree : (h.header b.stop).used = 0
  · rw [if_pos hfree, ite_lfree]
    obtain ⟨y, zs, rfl, hstart, hyu⟩ := hi'.shape.next_free hfree
    have hi'' : h.Inv (xs ++ [b, y] ++ zs) := by simpa using hi'
    have hcount_y : y.start - e = b.stop - e := by rw [hstart]
    rw [← hstart, (hi''.shape.blockAt (b := y) (by simp)).next, hcount_y]
    set h₀ := (({ h with lfree := if h.lfree = y.start then e else h.lfree } :
      MemHeap).putHeader b.start e y.stop).relink e with hh₀
    have hram : (h₀.decUsed (b.stop - e)).ram = ((h.putHeader b.start e y.stop).relink e).ram :=
      (decUsed_ram _).trans (relink_ram_congr rfl)
    have hstats : h₀.stats = h.stats := relink_stats _ _
    obtain ⟨hinv, hdata, hkept⟩ := hi''.trim_move hu hyu (by omega) (by omega) he_al hram
      ((decUsed_lfree _).trans (relink_lfree _ _))
    refine ⟨_, _, e, rfl, hinv.trimmed_put hmem (fun z hz ↦ ?_) hdata hkept (by omega) (by omega) ?_⟩
    · rw [List.mem_cons, or_iff_right]
      rintro rfl
      exact absurd hz (by simp [hyu])
    · rw [← hstats]
      exact decUsed_used
  rw [if_neg hfree]
  by_cases hleft : n + sizeofStructMem + minSizeAligned ≤ b.stop - (b.start + sizeofStructMem)
  · rw [if_pos hleft, ite_lfree]
    set h₀ := (({ h with lfree := if e < h.lfree then e else h.lfree } :
      MemHeap).putHeader b.start e b.stop).relink e with hh₀
    have hram : (h₀.decUsed (b.stop - e)).ram = ((h.putHeader b.start e b.stop).relink e).ram :=
      (decUsed_ram _).trans (relink_ram_congr rfl)
    have hstats : h₀.stats = h.stats := relink_stats _ _
    obtain ⟨hinv, hdata, hkept⟩ := hi'.trim_split hu (hi'.shape.next_used hfree) (by omega)
      (by omega) he_al hram ((decUsed_lfree _).trans (relink_lfree _ _))
    refine ⟨_, _, e, rfl, hinv.trimmed_put hmem (fun _ _ ↦ Iff.rfl) hdata hkept (by omega) (by omega) ?_⟩
    rw [← hstats]
    exact decUsed_used
  · rw [if_neg hleft]
    exact ⟨h, bs, b.stop, rfl, hsame⟩

/-- **`mem_trim`** of a used block to a size it has room for returns the same pointer. -/
theorem Inv.memTrim {newsize : ℕ} (hi : h.Inv bs) (hb : b ∈ bs) (hu : b.used = true)
    (hn : newsize ≤ b.stop - (b.start + sizeofStructMem)) :
    ∃ h', memTrim ((b.start + sizeofStructMem : ℕ) : ℤ) newsize h =
      some (some ((b.start + sizeofStructMem : ℕ) : ℤ), h') ∧ Trimmed h h' bs b newsize := by
  have hstop := hi.shape.stop_le hb
  have hroom := (hi.shape.blockAt hb).room
  have hsizes := mem_sizes
  have hsize_al : (b.stop - (b.start + sizeofStructMem)) % memAlignment = 0 := by
    have hstop_al := hi.shape.stop_aligned hb
    have hstart_al := (hi.shape.blockAt hb).aligned
    rw [hsizes.2.2.2] at hstop_al hstart_al ⊢
    omega
  obtain ⟨hn₁, hn₂⟩ := memBlockSize_le hn hsize_al (by omega) (by omega)
  obtain ⟨h', bs', e, hcall, ht⟩ := hi.memTrim_of_room hb hu hn₂
  have hle := ht.room
  exact ⟨h', hcall, bs', e, ht.inv, by omega, ht.stop_le, ht.used, ht.data, ht.kept⟩

end MemHeap

end Lwip.Core
