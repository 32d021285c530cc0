import LwipPoc.Arch
import LwipPoc.Foundation.ByteMemory

/-!
# The heap of the core

`core/mem.c` on the bytes of its heap. A block is a header — `struct mem`: two `u16_t` offsets and a
flag — followed by its data; headers are loaded and stored field by field, wherever the code puts
them, so a header written in the wrong place would overwrite data here as it does there.

Pointers are offsets from `ram`, which `mem_init` aligns. An assertion that fails, and a header that
would lie before the heap, make the result undefined (`none`); so does a loop that runs longer than
there are offsets. `mem_size_t` is `u16_t` in this configuration, and every value that the code keeps
in one is reduced modulo `2 ^ 16`.

The assertions of `mem_free` and `mem_trim` that a pointer is legal are fatal in this configuration,
so the branches behind them that count illegal pointers are never reached.
-/

namespace Lwip.Core

/-- `MEM_ALIGNMENT`. -/
def memAlignment : ℕ := 4

/-- `SIZEOF_STRUCT_MEM`, the aligned size of a header. -/
def sizeofStructMem : ℕ := 8

/-- `MIN_SIZE_ALIGNED`, the least data size of a block. -/
def minSizeAligned : ℕ := 12

/-- `MEM_SIZE_ALIGNED`, the size of the heap, and the offset of its end marker. -/
def memSizeAligned : ℕ := 16000

/-- The sizes of this configuration. -/
theorem mem_sizes :
    sizeofStructMem = 8 ∧ minSizeAligned = 12 ∧ memSizeAligned = 16000 ∧ memAlignment = 4 :=
  ⟨rfl, rfl, rfl, rfl⟩

/-- `LWIP_MEM_ALIGN_SIZE`, kept in a `mem_size_t`. -/
def memAlignSize (size : ℕ) : ℕ :=
  (size + memAlignment - 1) / memAlignment * memAlignment % 2 ^ 16

/-- The size `mem_malloc` and `mem_trim` work with: aligned, and at least `MIN_SIZE_ALIGNED`. -/
def memBlockSize (size : ℕ) : ℕ :=
  if memAlignSize size < minSizeAligned then minSizeAligned else memAlignSize size

/-- `struct mem`. -/
structure MemHeader where
  /-- The offset of the next header. -/
  next : ℕ
  /-- The offset of the previous header. -/
  prev : ℕ
  /-- 0 for a free block. -/
  used : ℕ
  deriving DecidableEq, Repr

/-- The counters of `lwip_stats.mem` that the heap changes. -/
structure MemStats where
  used : ℕ
  max : ℕ
  err : ℕ
  deriving DecidableEq, Repr

/-- The heap, the lowest-free pointer, and the counters. -/
structure MemHeap where
  /-- The bytes from `ram` on. -/
  ram : ByteMem
  /-- The offset of `lfree`. -/
  lfree : ℕ
  /-- The counters. -/
  stats : MemStats

namespace MemHeap

/-! ### Headers -/

/-- The header at an offset. -/
def header (h : MemHeap) (o : ℕ) : MemHeader where
  next := h.ram.load16 o
  prev := h.ram.load16 (o + 2)
  used := h.ram.load8 (o + 4)

/-- `mem->next = v`. -/
def setNext (h : MemHeap) (o v : ℕ) : MemHeap := { h with ram := h.ram.store16 o v }

/-- `mem->prev = v`. -/
def setPrev (h : MemHeap) (o v : ℕ) : MemHeap := { h with ram := h.ram.store16 (o + 2) v }

/-- `mem->used = v`. -/
def setUsed (h : MemHeap) (o v : ℕ) : MemHeap := { h with ram := h.ram.store8 (o + 4) v }

/-- `mem->next - (ptr + SIZEOF_STRUCT_MEM)`, in `size_t`. -/
def room (h : MemHeap) (ptr : ℕ) : ℕ :=
  ((h.header ptr).next + 2 ^ 64 - (ptr + sizeofStructMem)) % 2 ^ 64

/-! ### The counters -/

/-- `MEM_STATS_INC_USED`. -/
def incUsed (h : MemHeap) (n : ℕ) : MemHeap :=
  let used := (h.stats.used + n) % 2 ^ 16
  { h with stats := { h.stats with
    used := used
    max := if h.stats.max < used then used else h.stats.max } }

/-- `MEM_STATS_DEC_USED`. -/
def decUsed (h : MemHeap) (n : ℕ) : MemHeap :=
  { h with stats := { h.stats with used := (h.stats.used + 2 ^ 16 - n % 2 ^ 16) % 2 ^ 16 } }

/-! ### The functions of `mem.c` -/

/-- `mem_init`, on memory that holds anything. -/
def memInit (ram : ByteMem) : MemHeap :=
  let h : MemHeap := ⟨ram, 0, ⟨0, 0, 0⟩⟩
  ((((((h.setNext 0 memSizeAligned).setPrev 0 0).setUsed 0 0).setUsed memSizeAligned 1).setNext
    memSizeAligned memSizeAligned).setPrev memSizeAligned memSizeAligned)

/-- The first half of `plug_holes`: combine `mem` with the next block if that is free. -/
def plugForward (h : MemHeap) (mem : ℕ) : MemHeap :=
  let nmem := (h.header mem).next
  if mem ≠ nmem ∧ (h.header nmem).used = 0 ∧ nmem ≠ memSizeAligned then
    let h := if h.lfree = nmem then { h with lfree := mem } else h
    let h := h.setNext mem (h.header nmem).next
    h.setPrev (h.header nmem).next mem
  else h

/-- The second half of `plug_holes`: combine `mem` with the previous block if that is free. -/
def plugBackward (h : MemHeap) (mem : ℕ) : MemHeap :=
  let pmem := (h.header mem).prev
  if pmem ≠ mem ∧ (h.header pmem).used = 0 then
    let h := if h.lfree = mem then { h with lfree := pmem } else h
    let h := h.setNext pmem (h.header mem).next
    h.setPrev (h.header mem).next pmem
  else h

/-- `plug_holes`. -/
def plugHoles (h : MemHeap) (mem : ℕ) : Option MemHeap :=
  if mem < memSizeAligned ∧ (h.header mem).used = 0 ∧ (h.header mem).next ≤ memSizeAligned then
    some ((h.plugForward mem).plugBackward mem)
  else none

/-- `mem_free`. -/
def memFree (rmem : Option ℤ) (h : MemHeap) : Option MemHeap :=
  match rmem with
  | none => some h
  | some r =>
    if r % memAlignment = 0 ∧ sizeofStructMem ≤ r ∧ r < memSizeAligned then
      let mem := (r - sizeofStructMem).toNat
      if (h.header mem).used = 0 then none
      else
        let h := h.setUsed mem 0
        let h := if mem < h.lfree then { h with lfree := mem } else h
        let h := h.decUsed ((h.header mem).next + 2 ^ 16 - mem)
        h.plugHoles mem
    else none

/-- The header `mem2` at `ptr2` that `mem_malloc` and `mem_trim` put behind the block at `ptr`: free,
up to `next`. -/
def putHeader (h : MemHeap) (ptr ptr2 next : ℕ) : MemHeap :=
  (((h.setUsed ptr2 0).setNext ptr2 next).setPrev ptr2 ptr).setNext ptr ptr2

/-- `if (mem2->next != MEM_SIZE_ALIGNED) ram[mem2->next].prev = ptr2`. -/
def relink (h : MemHeap) (ptr2 : ℕ) : MemHeap :=
  if (h.header ptr2).next ≠ memSizeAligned then h.setPrev (h.header ptr2).next ptr2 else h

/-- `mem_trim`: the pointer it returns, null if the new size is not supported. -/
def memTrim (rmem : ℤ) (newsize : ℕ) (h : MemHeap) : Option (Option ℤ × MemHeap) :=
  let newsize := memBlockSize newsize
  if memSizeAligned < newsize then some (none, h)
  else if sizeofStructMem ≤ rmem ∧ rmem < memSizeAligned then
    let ptr := (rmem - sizeofStructMem).toNat
    let size := ((h.header ptr).next + 2 ^ 17 - ptr - sizeofStructMem) % 2 ^ 16
    let mem2 := (h.header ptr).next
    let ptr2 := (ptr + sizeofStructMem + newsize) % 2 ^ 16
    if size < newsize then none
    else if newsize = size then some (some rmem, h)
    else if (h.header mem2).used = 0 then
      -- the next block is free: its header moves to the end of the trimmed block
      let next := (h.header mem2).next
      let h := if h.lfree = mem2 then { h with lfree := ptr2 } else h
      some (some rmem, ((h.putHeader ptr ptr2 next).relink ptr2).decUsed (size - newsize))
    else if newsize + sizeofStructMem + minSizeAligned ≤ size then
      -- the next block is used, but what is left over makes a block
      let h := if ptr2 < h.lfree then { h with lfree := ptr2 } else h
      some (some rmem, ((h.putHeader ptr ptr2 mem2).relink ptr2).decUsed (size - newsize))
    else some (some rmem, h)
  else none

/-- The search of `mem_malloc`: the first block from `ptr` on that is free and has room. -/
def scan (h : MemHeap) (size : ℕ) : ℕ → ℕ → Option (Option ℕ)
  | 0, _ => none
  | fuel + 1, ptr =>
    if ptr < memSizeAligned - size then
      if (h.header ptr).used = 0 ∧ size ≤ h.room ptr then some (some ptr)
      else scan h size fuel (h.header ptr).next
    else some none

/-- The loop of `mem_malloc` that looks for the new lowest free block, from `cur` on. -/
def nextFree (h : MemHeap) : ℕ → ℕ → Option ℕ
  | 0, _ => none
  | fuel + 1, cur =>
    if (h.header cur).used ≠ 0 ∧ cur ≠ memSizeAligned then nextFree h fuel (h.header cur).next
    else some cur

/-- What `mem_malloc` does with the block at `ptr` it has chosen: split it, if what is left over makes
a block, else use it whole. -/
def claim (h : MemHeap) (ptr size : ℕ) : MemHeap :=
  if size + sizeofStructMem + minSizeAligned ≤ h.room ptr then
    let ptr2 := (ptr + sizeofStructMem + size) % 2 ^ 16
    (((h.putHeader ptr ptr2 (h.header ptr).next).setUsed ptr 1).relink ptr2).incUsed
      (size + sizeofStructMem)
  else (h.setUsed ptr 1).incUsed ((h.header ptr).next + 2 ^ 16 - ptr)

/-- If the block at `ptr` was the lowest free one, `mem_malloc` looks for the next. -/
def adjustLfree (h : MemHeap) (ptr : ℕ) : Option MemHeap :=
  if ptr = h.lfree then
    (h.nextFree (memSizeAligned + 1) h.lfree).bind fun cur ↦
      if cur = memSizeAligned ∨ (h.header cur).used = 0 then some { h with lfree := cur } else none
  else some h

/-- `mem_malloc` of a `mem_size_t`: the pointer it returns. -/
def memMalloc (size : ℕ) (h : MemHeap) : Option (Option ℤ × MemHeap) :=
  if size = 0 then some (none, h)
  else
    let size := memBlockSize size
    if memSizeAligned < size then some (none, h)
    else
      (h.scan size (memSizeAligned + 1) h.lfree).bind fun
        | none => some (none, { h with stats := { h.stats with err := (h.stats.err + 1) % 2 ^ 16 } })
        | some ptr =>
          ((h.claim ptr size).adjustLfree ptr).bind fun h ↦
            if ptr + sizeofStructMem + size ≤ memSizeAligned ∧
                (ptr + sizeofStructMem) % memAlignment = 0 ∧ ptr % memAlignment = 0 then
              some (some ((ptr + sizeofStructMem : ℕ) : ℤ), h)
            else none

/-! ### Headers after stores -/

/-- The bytes of the headers at these offsets. -/
def headerBytes (os : Set ℕ) : Set ℕ := { i | ∃ o ∈ os, o ≤ i ∧ i < o + sizeofStructMem }

/-- Two headers do not overlap. -/
def Apart (a o : ℕ) : Prop := a + sizeofStructMem ≤ o ∨ o + sizeofStructMem ≤ a

variable {h h' h'' : MemHeap} {os os' : Set ℕ} {a o v : ℕ}

theorem apart_comm : Apart a o ↔ Apart o a := or_comm

/-- The stores from `h` to `h'` all went to the headers at `os`. -/
def Touches (os : Set ℕ) (h h' : MemHeap) : Prop :=
  ByteMem.SameExcept (headerBytes os) h.ram h'.ram

theorem headerBytes_mono (hos : os ⊆ os') : headerBytes os ⊆ headerBytes os' :=
  fun _ ⟨o, ho, hi⟩ ↦ ⟨o, hos ho, hi⟩

theorem Touches.mono (h₁ : Touches os h h') (hos : os ⊆ os') : Touches os' h h' :=
  ByteMem.SameExcept.mono h₁ (headerBytes_mono hos)

theorem Touches.trans (h₁ : Touches os h h') (h₂ : Touches os' h' h'') :
    Touches (os ∪ os') h h'' :=
  ByteMem.SameExcept.trans (h₁.mono Set.subset_union_left) (h₂.mono Set.subset_union_right)

theorem mem_headerBytes {i : ℕ} (hi : o ≤ i) (hi' : i < o + 8) : i ∈ headerBytes {o} :=
  ⟨o, rfl, hi, hi'⟩

theorem touches_setNext : Touches {o} h (h.setNext o v) :=
  ByteMem.sameExcept_store16 (mem_headerBytes (by omega) (by omega))
    (mem_headerBytes (by omega) (by omega))

theorem touches_setPrev : Touches {o} h (h.setPrev o v) :=
  ByteMem.sameExcept_store16 (mem_headerBytes (by omega) (by omega))
    (mem_headerBytes (by omega) (by omega))

theorem touches_setUsed : Touches {o} h (h.setUsed o v) :=
  ByteMem.sameExcept_store8 (mem_headerBytes (by omega) (by omega))

/-- A header apart from all that was touched is as it was. -/
theorem Touches.header_eq (h₁ : Touches os h h') (ha : ∀ o ∈ os, Apart a o) :
    h'.header a = h.header a := by
  have hout : ∀ k < 8, a + k ∉ headerBytes os := by
    rintro k hk ⟨o, ho, hle, hlt⟩
    have hapart := ha o ho
    have hsizes := mem_sizes
    unfold Apart at hapart
    omega
  have h₀ : h'.ram.load16 a = h.ram.load16 a :=
    h₁.load16_eq (hout 0 (by omega)) (hout 1 (by omega))
  have h₂ : h'.ram.load16 (a + 2) = h.ram.load16 (a + 2) :=
    h₁.load16_eq (hout 2 (by omega)) (hout 3 (by omega))
  have h₄ : h'.ram.load8 (a + 4) = h.ram.load8 (a + 4) := h₁.load8_eq (hout 4 (by omega))
  rw [header, header, h₀, h₂, h₄]

@[simp] theorem header_setNext_self :
    (h.setNext o v).header o = { h.header o with next := v % 65536 } := by
  have hsame : ByteMem.SameExcept {o, o + 1} h.ram (h.ram.store16 o v) :=
    ByteMem.sameExcept_store16 (by simp) (by simp)
  have h₂ : (h.ram.store16 o v).load16 (o + 2) = h.ram.load16 (o + 2) :=
    hsame.load16_eq (by simp) (by simp; omega)
  have h₄ : (h.ram.store16 o v).load8 (o + 4) = h.ram.load8 (o + 4) := hsame.load8_eq (by simp)
  simp only [header, setNext, ByteMem.load16_store16, h₂, h₄]

@[simp] theorem header_setPrev_self :
    (h.setPrev o v).header o = { h.header o with prev := v % 65536 } := by
  have hsame : ByteMem.SameExcept {o + 2, o + 2 + 1} h.ram (h.ram.store16 (o + 2) v) :=
    ByteMem.sameExcept_store16 (by simp) (by simp)
  have h₀ : (h.ram.store16 (o + 2) v).load16 o = h.ram.load16 o :=
    hsame.load16_eq (by simp; omega) (by simp)
  have h₄ : (h.ram.store16 (o + 2) v).load8 (o + 4) = h.ram.load8 (o + 4) :=
    hsame.load8_eq (by simp)
  simp only [header, setPrev, ByteMem.load16_store16, h₀, h₄]

@[simp] theorem header_setUsed_self :
    (h.setUsed o v).header o = { h.header o with used := v % 256 } := by
  have hsame : ByteMem.SameExcept {o + 4} h.ram (h.ram.store8 (o + 4) v) :=
    ByteMem.sameExcept_store8 (by simp)
  have h₀ : (h.ram.store8 (o + 4) v).load16 o = h.ram.load16 o :=
    hsame.load16_eq (by simp) (by simp)
  have h₂ : (h.ram.store8 (o + 4) v).load16 (o + 2) = h.ram.load16 (o + 2) :=
    hsame.load16_eq (by simp) (by simp)
  simp only [header, setUsed, ByteMem.load8_store8, h₀, h₂]

theorem header_setNext_of_apart (ha : Apart a o) : (h.setNext o v).header a = h.header a :=
  touches_setNext.header_eq fun _ ho ↦ Set.mem_singleton_iff.1 ho ▸ ha

theorem header_setPrev_of_apart (ha : Apart a o) : (h.setPrev o v).header a = h.header a :=
  touches_setPrev.header_eq fun _ ho ↦ Set.mem_singleton_iff.1 ho ▸ ha

theorem header_setUsed_of_apart (ha : Apart a o) : (h.setUsed o v).header a = h.header a :=
  touches_setUsed.header_eq fun _ ho ↦ Set.mem_singleton_iff.1 ho ▸ ha

end MemHeap

end Lwip.Core
