import LwipPoc.Core.Mem.Counters

/-!
# What `mem_malloc` and `mem_calloc` return

* `memMalloc_firstFit`: for the sizes up to 65532, `mem_malloc` returns the lowest free block that has room, and a
  null pointer if there is none. The search may begin at `lfree` and stop at `MEM_SIZE_ALIGNED - size`.
* `enough_iff`: whether the block has as many bytes as were asked for. Sizes are `u16_t`: **the largest three are
  rounded up to zero**, and `mem_calloc` passes on what is left of a product, but clears all of it.
-/

namespace Lwip.Core

namespace MemHeap

/-- `memset(p, 0, n)`. -/
def clear (h : MemHeap) (p n : ℕ) : MemHeap := { h with ram := fun i ↦ if p ≤ i ∧ i < p + n then 0 else h.ram i }

/-- `mem_calloc`. -/
def memCalloc (count size : ℕ) (h : MemHeap) : Option (Option ℤ × MemHeap) :=
  (h.memMalloc (count * size % 2 ^ 16)).map fun
    | (none, h) => (none, h)
    | (some p, h) => (some p, h.clear p.toNat (count * size))

/-- The block at `o` is free and has room for `n` bytes, by its header. -/
def HasRoom (h : MemHeap) (n o : ℕ) : Prop := (h.header o).used = 0 ∧ o + sizeofStructMem + n ≤ (h.header o).next

/-- There is no free block with room for `n` bytes. -/
def Full (h : MemHeap) (os : List ℕ) (n : ℕ) : Prop := ∀ o ∈ os, ¬ h.HasRoom n o

variable {h h' : MemHeap} {bs : List Block} {b : Block} {n size count : ℕ}

/-! ### First fit -/

theorem BlockAt.hasRoom_iff (hat : h.BlockAt b) : h.HasRoom n b.start ↔ Fits n b = true := by
  rw [HasRoom, hat.used_eq_zero, hat.next, fits_iff]

theorem Inv.full_iff (hi : h.Inv bs) : h.Full (bs.map Block.start) n ↔ bs.find? (Fits n) = none := by
  rw [List.find?_eq_none, Full]
  constructor
  · exact fun hfull b hb hf ↦ hfull _ (List.mem_map_of_mem hb) ((hi.shape.blockAt hb).hasRoom_iff.2 hf)
  · rintro hnone o ho hroom
    obtain ⟨b, hb, rfl⟩ := List.mem_map.1 ho
    exact hnone b hb ((hi.shape.blockAt hb).hasRoom_iff.1 hroom)

/-- The block that the search finds is the lowest one. -/
theorem Inv.not_hasRoom_below (hi : h.Inv bs) (hfind : bs.find? (Fits n) = some b) {o : ℕ}
    (ho : o ∈ bs.map Block.start) (hlt : o < b.start) : ¬ h.HasRoom n o := by
  intro hroom
  obtain ⟨x, hx, rfl⟩ := List.mem_map.1 ho
  have hfits := (hi.shape.blockAt hx).hasRoom_iff.1 hroom
  obtain ⟨-, ys, zs, rfl, hys⟩ := List.find?_eq_some_iff_append.1 hfind
  rw [List.mem_append, List.mem_cons] at hx
  rcases hx with hx | rfl | hx
  · have := hys x hx
    rw [hfits] at this
    cases this
  · exact absurd hlt (Nat.lt_irrefl _)
  · obtain ⟨_, -, ht⟩ := Block.tiles_append.1 hi.shape.tiles
    have hstart := ht.1
    have := (ht.2.2.mem_bounds hx).1
    have := ht.2.1
    omega

/-- Up to 65532 bytes, rounding up does not wrap. -/
theorem memBlockSize_eq (hmax : size ≤ 65532) : memBlockSize size = max ((size + 3) / 4 * 4) minSizeAligned := by
  obtain ⟨-, h₂, -, h₄⟩ := mem_sizes
  rw [memBlockSize, memAlignSize, h₂, h₄]
  split_ifs <;> omega

/-- The largest three sizes are rounded up to zero. -/
theorem memBlockSize_of_gt (hgt : 65532 < size) (hlt : size < 2 ^ 16) : memBlockSize size = minSizeAligned := by
  obtain ⟨-, h₂, -, h₄⟩ := mem_sizes
  rw [memBlockSize, memAlignSize, h₂, h₄]
  split_ifs <;> omega

theorem le_memBlockSize (hmax : size ≤ 65532) : size ≤ memBlockSize size := by
  rw [memBlockSize_eq hmax]
  omega

/-! ### Enough bytes -/

/-- The call returns, and a block that it returns has at least so many bytes. -/
def Enough (n : ℕ) (r : Option (Option ℤ × MemHeap)) : Prop :=
  ∃ q h', r = some (q, h') ∧ ∀ p ∈ q, n ≤ h'.dataSize p.toNat

/-- The call returns, and a block that it returns has at least so many bytes, all zero. -/
def EnoughZeros (n : ℕ) (r : Option (Option ℤ × MemHeap)) : Prop :=
  ∃ q h', r = some (q, h') ∧ ∀ p ∈ q, n ≤ h'.dataSize p.toNat ∧ ∀ i < n, h'.ram (p.toNat + i) = 0

/-- A block in the heap has fewer bytes than the heap. -/
theorem AllocatedTo.dataSize {bs' : List Block} {e : ℕ} (ha : AllocatedTo h h' bs bs' b size e) :
    memBlockSize size ≤ h'.dataSize (b.start + sizeofStructMem) ∧
      h'.dataSize (b.start + sizeofStructMem) < memSizeAligned := by
  have hnew := (ha.used ⟨b.start, e, true⟩ rfl).2 (Or.inr rfl)
  have hat := ha.inv.shape.blockAt hnew
  have hstop := ha.inv.shape.stop_le hnew
  have hroom := ha.room
  have hdata : h'.dataSize (b.start + sizeofStructMem) = e - (b.start + sizeofStructMem) := hat.dataSize_eq
  have hsizes := mem_sizes
  simp only at hstop
  omega

/-- Clearing the memory of a block leaves its header alone. -/
theorem dataSize_clear (h : MemHeap) (o n : ℕ) :
    (h.clear (o + sizeofStructMem) n).dataSize (o + sizeofStructMem) = h.dataSize (o + sizeofStructMem) := by
  have hsizes := mem_sizes
  simp only [dataSize, header, clear, ByteMem.load16, Nat.add_sub_cancel]
  rw [if_neg (by omega), if_neg (by omega)]

/-- **`mem_malloc`** of any size. -/
theorem Inv.enough_iff (hi : h.Inv bs) (hsize : size < 2 ^ 16) : Enough size (h.memMalloc size) ↔
    size ≤ 65532 ∨ h.Full (bs.map Block.start) minSizeAligned := by
  rcases eq_or_ne size 0 with rfl | h₀
  · exact iff_of_true ⟨none, h, rfl, fun _ h ↦ nomatch h⟩ (Or.inl (Nat.zero_le _))
  rw [hi.full_iff]
  rcases hi.memMalloc_find h₀ with ⟨hnone, h', hcall, -⟩ | ⟨b, h', bs', e, hfind, hcall, ha⟩
  · refine iff_of_true ⟨none, h', hcall, fun _ h ↦ nomatch h⟩ ?_
    rcases Nat.lt_or_ge 65532 size with hgt | hle
    · rw [memBlockSize_of_gt hgt hsize] at hnone
      exact Or.inr hnone
    · exact Or.inl hle
  · obtain ⟨hle, hlt⟩ := ha.dataSize
    have hsizes := mem_sizes
    rw [Enough, hcall]
    constructor
    · rintro ⟨q, h'', heq, hq⟩
      obtain ⟨rfl, rfl⟩ := Prod.mk.inj (Option.some.inj heq)
      have hdata := hq _ rfl
      rw [Int.toNat_natCast] at hdata
      exact Or.inl (by omega)
    · rintro (hmax | hnone)
      · refine ⟨_, h', rfl, fun p hp ↦ ?_⟩
        obtain rfl := Option.some.inj hp
        rw [Int.toNat_natCast]
        exact Nat.le_trans (le_memBlockSize hmax) hle
      · rcases Nat.lt_or_ge 65532 size with hgt | hmax
        · rw [memBlockSize_of_gt hgt hsize, hnone] at hfind
          cases hfind
        · refine ⟨_, h', rfl, fun p hp ↦ ?_⟩
          obtain rfl := Option.some.inj hp
          rw [Int.toNat_natCast]
          exact Nat.le_trans (le_memBlockSize hmax) hle

/-- **`mem_calloc`** of any product. -/
theorem Inv.enoughZeros_iff (hi : h.Inv bs) : EnoughZeros (count * size) (h.memCalloc count size) ↔
    count * size ≤ 65532 ∨ count * size % 2 ^ 16 = 0 ∨
      h.Full (bs.map Block.start) (memBlockSize (count * size % 2 ^ 16)) := by
  rw [hi.full_iff, memCalloc]
  generalize count * size = n
  rcases eq_or_ne (n % 2 ^ 16) 0 with h₀ | h₀
  · rw [h₀]
    exact iff_of_true ⟨none, h, rfl, fun _ h ↦ nomatch h⟩ (Or.inr (Or.inl rfl))
  rcases hi.memMalloc_find h₀ with ⟨hnone, h', hcall, -⟩ | ⟨b, h', bs', e, hfind, hcall, ha⟩
  · rw [hcall]
    exact iff_of_true ⟨none, h', rfl, fun _ h ↦ nomatch h⟩ (Or.inr (Or.inr hnone))
  · obtain ⟨hle, hlt⟩ := ha.dataSize
    have hsizes := mem_sizes
    have hnot : ¬ (n % 2 ^ 16 = 0 ∨ some b = none) := by
      rintro (h | h)
      · exact h₀ h
      · cases h
    rw [hcall, hfind, or_iff_left hnot, EnoughZeros, Option.map_some]
    constructor
    · rintro ⟨q, h'', heq, hq⟩
      obtain ⟨rfl, rfl⟩ := Prod.mk.inj (Option.some.inj heq)
      have hroom := (hq _ rfl).1
      rw [Int.toNat_natCast, dataSize_clear] at hroom
      omega
    · intro hmax
      refine ⟨_, _, rfl, fun p hp ↦ ?_⟩
      obtain rfl := Option.some.inj hp
      rw [Int.toNat_natCast, dataSize_clear]
      rw [Nat.mod_eq_of_lt (by omega)] at hle
      refine ⟨Nat.le_trans (le_memBlockSize hmax) hle, fun i hi ↦ if_pos ⟨Nat.le_add_right _ _, by omega⟩⟩

end MemHeap

namespace MemSys

open MemHeap

variable {s : MemSys} {ls : List MemCall} {size : ℕ}

/-- **`mem_malloc` is a first fit**, after every run of calls on live blocks: it returns the lowest free block with
room for the aligned size, and if there is none a null pointer, with the heap as it was. -/
theorem memMalloc_firstFit {ram : ByteMem} (h : runLabels liveStep ls (init ram) = some s) (hpos : 1 ≤ size)
    (hmax : size ≤ 65532) : ∃ os, s.heap.WellFormed os ∧
      ((∃ h', s.heap.memMalloc size = some (none, h') ∧ h'.ram = s.heap.ram ∧ h'.lfree = s.heap.lfree ∧
          s.heap.Full os (max ((size + 3) / 4 * 4) minSizeAligned)) ∨
        ∃ o h', s.heap.memMalloc size = some (some ((o + sizeofStructMem : ℕ) : ℤ), h') ∧ o ∈ os ∧
          s.heap.HasRoom (max ((size + 3) / 4 * 4) minSizeAligned) o ∧
          ∀ o' ∈ os, o' < o → ¬ s.heap.HasRoom (max ((size + 3) / 4 * 4) minSizeAligned) o') := by
  obtain ⟨bs, hc⟩ := run_counted h
  have hi := hc.good.inv
  rw [← memBlockSize_eq hmax]
  refine ⟨bs.map Block.start, hi.wellFormed, ?_⟩
  rcases hi.memMalloc_find (Nat.ne_of_gt hpos) with ⟨hnone, h', hcall, hram, hlfree, -⟩ |
    ⟨b, h', bs', e, hfind, hcall, -⟩
  · exact Or.inl ⟨h', hcall, hram, hlfree, hi.full_iff.2 hnone⟩
  · have hb := List.mem_of_find?_eq_some hfind
    exact Or.inr ⟨b.start, h', hcall, List.mem_map_of_mem hb,
      (hi.shape.blockAt hb).hasRoom_iff.2 (List.find?_some hfind), fun o ho hlt ↦ hi.not_hasRoom_below hfind ho hlt⟩

/-- With the first of three blocks freed, a block of 40 bytes is put there, and one of 200 bytes at the end. -/
theorem memMalloc_firstFit_freed :
    ∃ s, runLabels liveStep [.malloc 100, .malloc 40, .malloc 40, .free 8] (init fun _ ↦ 0) = some s ∧
      (s.heap.memMalloc 40).map Prod.fst = some (some 8) ∧ ∃ os, s.heap.WellFormed os ∧ ¬ s.heap.Full os 40 := by
  refine exists_run_of_observe (fun s ↦ (s.heap.memMalloc 40).map Prod.fst) (some (some 8)) (by decide)
    fun s hs hfirst ↦ ?_
  obtain ⟨os, hos, ⟨h', hcall, -⟩ | ⟨o, h', hcall, ho, hroom, -⟩⟩ :=
    memMalloc_firstFit hs (by decide : 1 ≤ 40) (by decide)
  · rw [hcall] at hfirst
    cases hfirst
  · exact ⟨hfirst, os, hos, fun hfull ↦ hfull o ho hroom⟩

/-- **When the block has as many bytes as were asked for**, after every run of calls on live blocks: `mem_malloc`
fails to give them for the sizes that are rounded up to zero if there is any free block, and `mem_calloc` for a product
above 65532, unless what is left of it is zero or finds no block. -/
theorem enough_of_run {ram : ByteMem} (h : runLabels liveStep ls (init ram) = some s) : ∃ os, s.heap.WellFormed os ∧
    (∀ size < 2 ^ 16, Enough size (s.heap.memMalloc size) ↔ size ≤ 65532 ∨ s.heap.Full os minSizeAligned) ∧
    ∀ count < 2 ^ 16, ∀ size < 2 ^ 16, EnoughZeros (count * size) (s.heap.memCalloc count size) ↔
      count * size ≤ 65532 ∨ count * size % 2 ^ 16 = 0 ∨
        s.heap.Full os (memBlockSize (count * size % 2 ^ 16)) := by
  obtain ⟨bs, hc⟩ := run_counted h
  have hi := hc.good.inv
  exact ⟨bs.map Block.start, hi.wellFormed, fun size hsize ↦ hi.enough_iff hsize, fun count _ size _ ↦ hi.enoughZeros_iff⟩

/-- A block of 100 bytes and an array of ten words, in the heap as `mem_init` leaves it. -/
theorem enough_of_run_init : ∃ s, runLabels liveStep [] (init fun _ ↦ 0) = some s ∧
    Enough 100 (s.heap.memMalloc 100) ∧ EnoughZeros (10 * 4) (s.heap.memCalloc 10 4) := by
  have hrun : runLabels liveStep [] (init fun _ ↦ 0) = some (init fun _ ↦ 0) := rfl
  obtain ⟨os, -, hmalloc, hcalloc⟩ := enough_of_run hrun
  exact ⟨_, hrun, (hmalloc 100 (by decide)).2 (Or.inl (by decide)),
    (hcalloc 10 (by decide) 4 (by decide)).2 (Or.inl (by decide))⟩

/-- **12 bytes for 65535**: the size is rounded up to zero, and the least block is returned; and 4096 bytes
for an array of 4096 times 17, because only the lower 16 bits of the product are passed on. -/
theorem memMalloc_rounds_to_zero :
    ((init fun _ ↦ 0).heap.memMalloc 65535).map (fun r ↦ (r.1, r.2.dataSize 8)) = some (some 8, 12) ∧
      4096 * 17 % 2 ^ 16 = 4096 ∧
      ((init fun _ ↦ 0).heap.memCalloc 4096 17).map (fun r ↦ (r.1, r.2.dataSize 8)) = some (some 8, 4096) := by
  decide

end MemSys

end Lwip.Core
