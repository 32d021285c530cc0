import LwipPoc.Core.Mem.Runs

/-!
# `mem_malloc` with windows

With `LWIP_ALLOW_MEM_FREE_FROM_OTHER_CONTEXT` the searches of `mem_malloc` let go of the protection in
every round, so that `mem_free` and `mem_trim` can run in other contexts: in these **windows** it keeps
raw offsets of headers that may be gone when it goes on. What it relies on is one flag, `mem_free_count`,
which it resets before a window and tests behind it, and which `mem_free` and `mem_trim` set.

A call of `mem_malloc` is modelled as a step for each stretch from one window to the next. In between,
any number of other calls are steps of their own.

* In the window of the first search the heap is as it always is, and the offset that `mem_malloc` keeps
  is that of a block if the flag is not set.
* In the window of the second search the block is claimed already, and `lfree` may **lag behind**: if it
  was the claimed block, it stays there until the search is over. Frees and trims of other blocks do what
  they would do with the right `lfree`, or leave `lfree` alone (`memFree_withLfree`,
  `memTrim_withLfree`).
-/

namespace Lwip.Core

open Block (Tiles LowestFree NoAdjacentFree)

/-- Where a call of `mem_malloc` lets go of the protection, and the local variables it keeps. -/
inductive MallocWindow
  /-- In the search for a block, at `ptr`. -/
  | search (size ptr : ℕ)
  /-- In the search for the new lowest free block, at `cur`, with the block at `mem` claimed. -/
  | adjust (size mem cur : ℕ)
  deriving DecidableEq, Repr

/-- The heap and the live pointers, the flag, and the call of `mem_malloc` that holds the mutex. -/
structure SharedMem extends MemSys where
  /-- `mem_free_count` is not zero. -/
  memFreeCount : Bool
  window : Option MallocWindow

/-- A call, or `mem_malloc` goes on behind a window. -/
inductive SharedLabel
  | call (c : MemCall)
  | resume

namespace SharedMem

/-- After `mem_init`. -/
def init (ram : ByteMem) : SharedMem := ⟨MemSys.init ram, false, none⟩

/-- The condition of the loop over the blocks: a window, or there is no block, and the call returns a
null pointer. -/
def search (s : SharedMem) (size ptr : ℕ) : SharedMem :=
  if ptr < memSizeAligned - size then
    { s with memFreeCount := false, window := some (.search size ptr) }
  else
    { s with
      heap := { s.heap with stats := { s.heap.stats with err := (s.heap.stats.err + 1) % 2 ^ 16 } }
      window := none }

/-- The end of a call that has claimed the block at `mem`. -/
def finish (s : SharedMem) (size mem : ℕ) : Option SharedMem :=
  if mem + sizeofStructMem + size ≤ memSizeAligned ∧ (mem + sizeofStructMem) % memAlignment = 0 ∧
      mem % memAlignment = 0 then
    some { s with window := none, live := (mem + sizeofStructMem) :: s.live }
  else none

/-- The condition of the loop that looks for the new lowest free block: a window, or it is `cur`. -/
def adjust (s : SharedMem) (size mem cur : ℕ) : Option SharedMem :=
  if (s.heap.header cur).used ≠ 0 ∧ cur ≠ memSizeAligned then
    some { s with memFreeCount := false, window := some (.adjust size mem cur) }
  else if cur = memSizeAligned ∨ (s.heap.header cur).used = 0 then
    finish { s with heap := { s.heap with lfree := cur } } size mem
  else none

/-- The label `mem_malloc_adjust_lfree`. -/
def adjustLfree (s : SharedMem) (size mem : ℕ) : Option SharedMem :=
  if mem = s.heap.lfree then s.adjust size mem s.heap.lfree else s.finish size mem

/-- `mem_malloc` up to its first window. The mutex keeps a second call out. -/
def memMalloc (s : SharedMem) (size : ℕ) : Option SharedMem :=
  match s.window with
  | some _ => none
  | none =>
    if size = 0 then some s
    else if memSizeAligned < memBlockSize size then some s
    else some (s.search (memBlockSize size) s.heap.lfree)

/-- `mem_malloc` from one window to the next, or to its end. -/
def resume (s : SharedMem) : Option SharedMem :=
  match s.window with
  | none => none
  | some (.search size ptr) =>
    -- `local_mem_free_count` is set, the inner loop is left, and the outer one begins again
    if s.memFreeCount = true then some (s.search size s.heap.lfree)
    else if (s.heap.header ptr).used = 0 ∧ size ≤ s.heap.room ptr then
      adjustLfree { s with heap := s.heap.claim ptr size } size ptr
    else some (s.search size (s.heap.header ptr).next)
  | some (.adjust size mem cur) =>
    if s.memFreeCount = true then s.adjustLfree size mem
    else s.adjust size mem (s.heap.header cur).next

/-- `mem_trim` gets to its protected part, where it sets the flag. -/
def TrimProtects (h : MemHeap) (p newsize : ℕ) : Prop :=
  let ptr := p - sizeofStructMem
  memBlockSize newsize ≤ memSizeAligned ∧
    memBlockSize newsize ≠ ((h.header ptr).next + 2 ^ 17 - ptr - sizeofStructMem) % 2 ^ 16

instance (h : MemHeap) (p newsize : ℕ) : Decidable (TrimProtects h p newsize) :=
  inferInstanceAs (Decidable (_ ∧ _))

/-- The calls that set the flag. -/
def SetsFlag (h : MemHeap) : MemCall → Prop
  | .free _ => True
  | .trim p newsize => TrimProtects h p newsize
  | _ => False

instance (h : MemHeap) : (c : MemCall) → Decidable (SetsFlag h c)
  | .free _ => inferInstanceAs (Decidable True)
  | .trim p newsize => inferInstanceAs (Decidable (TrimProtects h p newsize))
  | .malloc _ => inferInstanceAs (Decidable False)
  | .write _ _ _ => inferInstanceAs (Decidable False)

/-- A call other than `mem_malloc`, as a whole, in any context. -/
def other (s : SharedMem) (c : MemCall) : Option SharedMem :=
  (s.toMemSys.step c).map fun m ↦
    { s with toMemSys := m, memFreeCount := s.memFreeCount || decide (SetsFlag s.heap c) }

/-- A step. -/
def step : SharedLabel → SharedMem → Option SharedMem
  | .call (.malloc size), s => s.memMalloc size
  | .call c, s => s.other c
  | .resume, s => s.resume

/-- The block that `mem_malloc` claims when it goes on. -/
def chosen (s : SharedMem) : Option ℕ :=
  match s.window with
  | some (.search size ptr) =>
    if s.memFreeCount = false ∧ (s.heap.header ptr).used = 0 ∧ size ≤ s.heap.room ptr then some ptr
    else none
  | _ => none

/-- The block that `mem_malloc` has claimed and not returned yet. -/
def held (s : SharedMem) : Option ℕ :=
  match s.window with
  | some (.adjust _ mem _) => some mem
  | _ => none

end SharedMem

namespace MemHeap

variable {h h' : MemHeap} {bs bs' : List Block} {b x : Block} {c o mem size newsize : ℕ} {r : ℤ}

/-! ### An `lfree` that lags behind -/

/-- The heap with another `lfree`. -/
def withLfree (h : MemHeap) (o : ℕ) : MemHeap := { h with lfree := o }

@[simp] theorem withLfree_withLfree (h : MemHeap) (c o : ℕ) :
    (h.withLfree c).withLfree o = h.withLfree o := rfl

@[simp] theorem withLfree_lfree (h : MemHeap) : h.withLfree h.lfree = h := rfl

@[simp] theorem header_withLfree (h : MemHeap) (o a : ℕ) : (h.withLfree o).header a = h.header a :=
  header_of_ram_eq rfl a

/-- A header of a used block is not that of a free one. -/
theorem ne_of_used (hc : (h.header c).used ≠ 0) (ho : (h.header o).used = 0) : c ≠ o := by
  rintro rfl
  exact hc ho

/-- Plugging forward with `lfree` at a used block leaves it there. -/
theorem plugForward_withLfree (hc : (h.header c).used ≠ 0) :
    (h.withLfree c).plugForward mem = (h.plugForward mem).withLfree c := by
  dsimp only [plugForward]
  by_cases hcond : mem ≠ (h.header mem).next ∧ (h.header (h.header mem).next).used = 0 ∧
      (h.header mem).next ≠ memSizeAligned
  · have hstay : (h.withLfree c).lfree ≠ ((h.withLfree c).header mem).next := ne_of_used hc hcond.2.1
    rw [if_pos hcond]
    refine (if_pos hcond).trans ?_
    rw [if_neg hstay]
    split_ifs <;> rfl
  · rw [if_neg hcond]
    exact if_neg hcond

/-- Plugging backward with `lfree` at another block leaves it there. -/
theorem plugBackward_withLfree (hc : c ≠ mem) :
    (h.withLfree c).plugBackward mem = (h.plugBackward mem).withLfree c := by
  dsimp only [plugBackward]
  by_cases hcond : (h.header mem).prev ≠ mem ∧ (h.header (h.header mem).prev).used = 0
  · rw [if_pos hcond]
    refine (if_pos hcond).trans ?_
    rw [if_neg (show (h.withLfree c).lfree ≠ mem from hc)]
    split_ifs <;> rfl
  · rw [if_neg hcond]
    exact if_neg hcond

theorem plugHoles_withLfree (hc : (h.header c).used ≠ 0) :
    (h.withLfree c).plugHoles mem = (h.plugHoles mem).map (withLfree · c) := by
  rw [plugHoles, plugHoles]
  by_cases hcond : mem < memSizeAligned ∧ (h.header mem).used = 0 ∧ (h.header mem).next ≤ memSizeAligned
  · rw [if_pos hcond]
    refine (if_pos hcond).trans ?_
    rw [plugForward_withLfree hc, plugBackward_withLfree (ne_of_used hc hcond.2.1)]
    rfl
  · rw [if_neg hcond]
    exact if_neg hcond

theorem header_decUsed (h : MemHeap) (n a : ℕ) : (h.decUsed n).header a = h.header a :=
  header_of_ram_eq (by cases h; rfl) a

/-- `mem_free` of a used block, with `lfree` set apart. -/
theorem memFree_eq (hlegal : r % memAlignment = 0 ∧ (sizeofStructMem : ℤ) ≤ r ∧ r < memSizeAligned)
    (hmem : (r - sizeofStructMem).toNat = mem) (hused : (h.header mem).used ≠ 0) (l : ℕ) :
    memFree (some r) (h.withLfree l) =
      (((h.setUsed mem 0).decUsed (((h.setUsed mem 0).header mem).next + 2 ^ 16 - mem)).withLfree
        (if mem < l then mem else l)).plugHoles mem := by
  subst hmem
  have hused' : ((h.withLfree l).header (r - sizeofStructMem).toNat).used ≠ 0 := hused
  simp only [memFree]
  rw [if_pos hlegal, if_neg hused', ite_lfree]
  rfl

/-- **`mem_free` with an `lfree` that lags behind** at the used block at `c`, below the lowest free block
at `o`: if the block freed is below it, all is as with the right `lfree`, else `lfree` stays. -/
theorem memFree_withLfree (hc : (h.header c).used ≠ 0) (hlt : c < o)
    (hlegal : r % memAlignment = 0 ∧ (sizeofStructMem : ℤ) ≤ r ∧ r < memSizeAligned)
    (hmem : (r - sizeofStructMem).toNat = mem) (hused : (h.header mem).used ≠ 0)
    (hapart : Apart c mem) :
    memFree (some r) (h.withLfree c) = memFree (some r) (h.withLfree o) ∨
      c < mem ∧
        memFree (some r) (h.withLfree c) = (memFree (some r) (h.withLfree o)).map (withLfree · c) := by
  rw [memFree_eq hlegal hmem hused c, memFree_eq hlegal hmem hused o]
  have hkc : (((h.setUsed mem 0).decUsed
      (((h.setUsed mem 0).header mem).next + 2 ^ 16 - mem)).header c).used ≠ 0 := by
    rwa [header_decUsed, header_setUsed_of_apart hapart]
  generalize (h.setUsed mem 0).decUsed (((h.setUsed mem 0).header mem).next + 2 ^ 16 - mem) = k at hkc ⊢
  by_cases hlow : mem < c
  · rw [if_pos hlow, if_pos (hlow.trans hlt)]
    exact Or.inl rfl
  · have hsizes := mem_sizes
    have hlt' : c < mem := by
      unfold Apart at hapart
      omega
    rw [if_neg hlow, ← withLfree_withLfree k (if mem < o then mem else o) c]
    exact Or.inr ⟨hlt', plugHoles_withLfree hkc⟩

theorem relink_withLfree (h : MemHeap) (o e : ℕ) :
    (h.withLfree o).relink e = (h.relink e).withLfree o := by
  rw [relink, relink]
  by_cases hcond : (h.header e).next ≠ memSizeAligned
  · rw [if_pos hcond]
    exact if_pos hcond
  · rw [if_neg hcond]
    exact if_neg hcond

/-- `mem_trim` of a legal pointer, with `lfree` set apart. -/
theorem memTrim_eq (hmem : (r - sizeofStructMem).toNat = mem)
    (hmax : ¬ memSizeAligned < memBlockSize newsize)
    (hlegal : (sizeofStructMem : ℤ) ≤ r ∧ r < memSizeAligned) (l : ℕ) :
    memTrim r newsize (h.withLfree l) =
      (let n := memBlockSize newsize
      let size := ((h.header mem).next + 2 ^ 17 - mem - sizeofStructMem) % 2 ^ 16
      let mem2 := (h.header mem).next
      let ptr2 := (mem + sizeofStructMem + n) % 2 ^ 16
      let put (next : ℕ) := ((h.putHeader mem ptr2 next).relink ptr2).decUsed (size - n)
      if size < n then none
      else if n = size then some (some r, h.withLfree l)
      else if (h.header mem2).used = 0 then
        some (some r, (put (h.header mem2).next).withLfree (if l = mem2 then ptr2 else l))
      else if n + sizeofStructMem + minSizeAligned ≤ size then
        some (some r, (put mem2).withLfree (if ptr2 < l then ptr2 else l))
      else some (some r, h.withLfree l)) := by
  subst hmem
  simp only [memTrim]
  rw [if_neg hmax, if_pos hlegal, ite_lfree, ite_lfree]
  have hput : ∀ o a b d m : ℕ,
      ((({ h.withLfree l with lfree := o } : MemHeap).putHeader a b d).relink b).decUsed m =
        (((h.putHeader a b d).relink b).decUsed m).withLfree o :=
    fun o a b d m ↦ congrArg (decUsed · m) (relink_withLfree (h.putHeader a b d) o b)
  rw [hput (if (h.withLfree l).lfree = _ then _ else _),
    hput (if _ < (h.withLfree l).lfree then _ else _)]
  rfl

/-- **`mem_trim` with an `lfree` that lags behind**: all is as with the right `lfree`, or `lfree` stays, and
then nothing else changes either, or the block trimmed is not below it. -/
theorem memTrim_withLfree (newsize : ℕ) (hc : (h.header c).used ≠ 0) (hlt : c < o)
    (hmem : (r - sizeofStructMem).toNat = mem) :
    memTrim r newsize (h.withLfree c) = memTrim r newsize (h.withLfree o) ∨
      memTrim r newsize (h.withLfree c) =
          (memTrim r newsize (h.withLfree o)).map (Prod.map id (withLfree · c)) ∧
        ((∀ x ∈ memTrim r newsize (h.withLfree o), x.2 = h.withLfree o) ∨
          (h.header (h.header mem).next).used = 0 ∨
          c ≤ (mem + sizeofStructMem + memBlockSize newsize) % 2 ^ 16 ∧
            memBlockSize newsize + sizeofStructMem + minSizeAligned ≤
              ((h.header mem).next + 2 ^ 17 - mem - sizeofStructMem) % 2 ^ 16) := by
  by_cases hmax : memSizeAligned < memBlockSize newsize
  · have hnone : ∀ k : MemHeap, memTrim r newsize k = some (none, k) := fun k ↦ by
      simp only [memTrim, if_pos hmax]
    rw [hnone, hnone]
    exact Or.inr ⟨rfl, Or.inl fun x hx ↦ by rw [← Option.some.inj hx]⟩
  by_cases hlegal : (sizeofStructMem : ℤ) ≤ r ∧ r < memSizeAligned
  swap
  · left
    simp only [memTrim, if_neg hmax, if_neg hlegal]
  rw [memTrim_eq hmem hmax hlegal, memTrim_eq hmem hmax hlegal]
  dsimp only
  set n := memBlockSize newsize
  set size := ((h.header mem).next + 2 ^ 17 - mem - sizeofStructMem) % 2 ^ 16
  set ptr2 := (mem + sizeofStructMem + n) % 2 ^ 16
  by_cases hsize : size < n
  · left
    rw [if_pos hsize, if_pos hsize]
  rw [if_neg hsize, if_neg hsize]
  by_cases hsame : n = size
  · rw [if_pos hsame, if_pos hsame]
    exact Or.inr ⟨rfl, Or.inl fun x hx ↦ by rw [← Option.some.inj hx]⟩
  rw [if_neg hsame, if_neg hsame]
  by_cases hfree : (h.header (h.header mem).next).used = 0
  · refine Or.inr ⟨?_, Or.inr (Or.inl hfree)⟩
    rw [if_pos hfree, if_pos hfree, if_neg (ne_of_used hc hfree), Option.map_some, Prod.map_apply,
      withLfree_withLfree]
    rfl
  rw [if_neg hfree, if_neg hfree]
  by_cases hleft : n + sizeofStructMem + minSizeAligned ≤ size
  · rw [if_pos hleft, if_pos hleft]
    by_cases hlow : ptr2 < c
    · left
      rw [if_pos hlow, if_pos (hlow.trans hlt)]
    · rw [if_neg hlow, Option.map_some, Prod.map_apply, withLfree_withLfree]
      exact Or.inr ⟨rfl, Or.inr (Or.inr ⟨Nat.le_of_not_lt hlow, hleft⟩)⟩
  · rw [if_neg hleft, if_neg hleft]
    exact Or.inr ⟨rfl, Or.inl fun x hx ↦ by rw [← Option.some.inj hx]⟩

/-- A trim that does not get to the protected part changes nothing. -/
theorem memTrim_of_not_protects {p : ℕ} (hp : ¬ SharedMem.TrimProtects h p newsize)
    {y : Option ℤ × MemHeap} (hy : memTrim (p : ℤ) newsize h = some y) :
    (y.1 = none ∨ y.1 = some (p : ℤ)) ∧ y.2 = h := by
  by_cases hmax : memSizeAligned < memBlockSize newsize
  · simp only [memTrim, if_pos hmax] at hy
    obtain rfl := Option.some.inj hy
    exact ⟨Or.inl rfl, rfl⟩
  by_cases hlegal : (sizeofStructMem : ℤ) ≤ p ∧ (p : ℤ) < memSizeAligned
  swap
  · simp only [memTrim, if_neg hmax, if_neg hlegal] at hy
    cases hy
  have hmem : ((p : ℤ) - sizeofStructMem).toNat = p - sizeofStructMem := by omega
  have hsame : memBlockSize newsize =
      ((h.header (p - sizeofStructMem)).next + 2 ^ 17 - (p - sizeofStructMem) - sizeofStructMem) % 2 ^ 16 := by
    by_contra hne
    exact hp ⟨Nat.le_of_not_lt hmax, hne⟩
  rw [← withLfree_lfree h, memTrim_eq hmem hmax hlegal] at hy
  dsimp only at hy
  rw [if_neg (by omega), if_pos hsame] at hy
  obtain rfl := Option.some.inj hy
  exact ⟨Or.inr rfl, rfl⟩

end MemHeap

namespace MemHeap

theorem BlockAt.used_ne_zero {h : MemHeap} {b : Block} (hat : h.BlockAt b) (hu : b.used = true) :
    (h.header b.start).used ≠ 0 := fun h₀ ↦ by
  rw [hat.used_eq_zero, hu] at h₀
  cases h₀

/-- If the block was not the lowest free one, `lfree` is right. -/
theorem adjustLfree_of_ne {h : MemHeap} {ptr : ℕ} (hne : ptr ≠ h.lfree) :
    h.adjustLfree ptr = some h := by
  rw [adjustLfree, if_neg hne]

end MemHeap

namespace SharedMem

variable {s s' : SharedMem} {bs bs' : List Block} {b : Block} {size ptr mem cur o p : ℕ}

/-! ### The invariant -/

/-- **The system behind a call that has claimed the block at `mem`**: with that block live, and `lfree` at
`o`. -/
def settled (s : SharedMem) (mem o : ℕ) : MemSys :=
  ⟨s.heap.withLfree o, (mem + sizeofStructMem) :: s.live⟩

/-- `lfree` is at `o`, or is still at the block at `mem`, below it. -/
def Lags (h : MemHeap) (mem o : ℕ) : Prop := h.lfree = o ∨ h.lfree = mem ∧ mem < o

/-- A size that `mem_malloc` searches for. -/
def Wanted (size : ℕ) : Prop := size ≤ memSizeAligned ∧ ∃ n, memBlockSize n = size

/-- **The invariant.** Without a call it is that of the heap, and in the first window too. In the second
one, it holds with the claimed block live and `lfree` put right. The offsets that `mem_malloc` keeps are
those of blocks as long as the flag is not set. -/
def Inv (s : SharedMem) : Prop :=
  match s.window with
  | none => ∃ bs, s.toMemSys.Good bs
  | some (.search size ptr) => ∃ bs, s.toMemSys.Good bs ∧ Wanted size ∧
      (s.memFreeCount = false → ∃ b ∈ bs, b.start = ptr)
  | some (.adjust size mem cur) => ∃ bs o, (s.settled mem o).Good bs ∧ Lags s.heap mem o ∧
      mem + sizeofStructMem + size ≤ memSizeAligned ∧
      (s.memFreeCount = false → s.heap.lfree = mem ∧ cur < o ∧ ∃ b ∈ bs, b.start = cur)

/-- What becomes of a call that has claimed the block at `mem`: it keeps it, or returns it. -/
def Claims (s : SharedMem) (mem : ℕ) (s' : SharedMem) : Prop :=
  s'.Inv ∧ (s'.live = s.live ∧ s'.held = some mem ∨
    s'.live = (mem + sizeofStructMem) :: s.live ∧ s'.window = none)

/-! ### The first search -/

/-- The condition of the first loop, at the offset of a block or of the end marker. -/
theorem search_inv (hg : s.toMemSys.Good bs) (hsize : Wanted size)
    (hptr : ptr = memSizeAligned ∨ ∃ b ∈ bs, b.start = ptr) : (s.search size ptr).Inv := by
  rw [search]
  split_ifs with hlt
  · refine ⟨bs, hg, hsize, fun _ ↦ hptr.resolve_left ?_⟩
    rintro rfl
    exact absurd hlt (by omega)
  · exact ⟨bs, ⟨hg.inv.shape.of_ram_eq rfl, hg.inv.apart, hg.inv.lfree⟩, hg.nodup, hg.live⟩

theorem search_live (s : SharedMem) (size ptr : ℕ) :
    (s.search size ptr).live = s.live ∧ (s.search size ptr).held = none := by
  rw [search]
  split_ifs <;> exact ⟨rfl, rfl⟩

/-- `lfree` is the offset of a block or of the end marker. -/
theorem lfree_boundary (hg : s.toMemSys.Good bs) :
    s.heap.lfree = memSizeAligned ∨ ∃ b ∈ bs, b.start = s.heap.lfree :=
  hg.inv.lfree.2.imp_right fun ⟨b, hb, _, hstart⟩ ↦ ⟨b, hb, hstart⟩

/-! ### The second search -/

/-- The block that is claimed. -/
theorem settled_block (hg : (s.settled mem o).Good bs) :
    ∃ c ∈ bs, c.used = true ∧ c.start = mem ∧ s.heap.BlockAt c := by
  obtain ⟨c, hc, hu, hstart, hat⟩ := hg.exists_block List.mem_cons_self
  exact ⟨c, hc, hu, Nat.add_right_cancel hstart, hat.of_header_eq rfl⟩

/-- The lowest free block is not the one that is claimed. -/
theorem settled_ne (hg : (s.settled mem o).Good bs) : mem ≠ o := by
  obtain ⟨c, hc, hu, rfl, -⟩ := settled_block hg
  have hbounds := hg.inv.shape.tiles.mem_bounds hc
  have hlow : LowestFree memSizeAligned bs o := hg.inv.lfree
  rintro heq
  rcases hlow.2 with hend | ⟨x, hx, hfree, hstart⟩
  · omega
  · rw [hg.inv.shape.tiles.eq_of_start hx hc (hstart.trans heq.symm), hu] at hfree
    cases hfree

/-- The end of a call, with `lfree` where it should be. -/
theorem finish_inv (hg : (s.settled mem o).Good bs) (hlfree : s.heap.lfree = o)
    (hroom : mem + sizeofStructMem + size ≤ memSizeAligned) :
    ∃ s', s.finish size mem = some s' ∧ s.Claims mem s' := by
  obtain ⟨c, hc, hu, rfl, hat⟩ := settled_block hg
  have haligned := hat.aligned
  have hsizes := mem_sizes
  have hguard : c.start + sizeofStructMem + size ≤ memSizeAligned ∧
      (c.start + sizeofStructMem) % memAlignment = 0 ∧ c.start % memAlignment = 0 := by
    rw [hsizes.2.2.2] at haligned ⊢
    omega
  subst hlfree
  exact ⟨_, if_pos hguard, ⟨bs, hg⟩, Or.inr ⟨rfl, rfl⟩⟩

/-- The condition of the second loop, at the offset of a block or of the end marker, with no free block
below it. -/
theorem adjust_inv (hg : (s.settled mem o).Good bs) (hlfree : s.heap.lfree = mem) (hlt : mem < o)
    (hroom : mem + sizeofStructMem + size ≤ memSizeAligned)
    (hcur : cur = memSizeAligned ∨ ∃ b ∈ bs, b.start = cur) (hle : cur ≤ o) :
    ∃ s', s.adjust size mem cur = some s' ∧ s.Claims mem s' := by
  have hlow : LowestFree memSizeAligned bs o := hg.inv.lfree
  rw [adjust]
  by_cases hcond : (s.heap.header cur).used ≠ 0 ∧ cur ≠ memSizeAligned
  · rw [if_pos hcond]
    obtain ⟨b, hb, rfl⟩ := hcur.resolve_left hcond.2
    have hne : b.start ≠ o := by
      rintro rfl
      rcases hlow.2 with hend | ⟨x, hx, hfree, hstart⟩
      · exact hcond.2 hend
      · rw [← hstart] at hcond
        exact hcond.1 ((hg.inv.shape.blockAt hx).used_eq_zero.2 hfree)
    exact ⟨_, rfl, ⟨bs, o, hg, Or.inr ⟨hlfree, hlt⟩, hroom,
      fun _ ↦ ⟨hlfree, lt_of_le_of_ne hle hne, b, hb, rfl⟩⟩, Or.inl ⟨rfl, rfl⟩⟩
  · have hend : cur = memSizeAligned ∨ (s.heap.header cur).used = 0 := by
      by_contra hno
      push Not at hno
      exact hcond ⟨hno.2, hno.1⟩
    have hcur_eq : cur = o := by
      refine hle.antisymm ?_
      rcases hcur with rfl | ⟨b, hb, rfl⟩
      · rcases hlow.2 with hlow' | ⟨x, hx, -, hstart⟩
        · exact hlow'.le
        · have := hg.inv.shape.stop_le hx
          have := (hg.inv.shape.tiles.mem_bounds hx).2.1
          omega
      · have hb' := hg.inv.shape.blockAt hb
        have hstop := hg.inv.shape.stop_le hb
        have := hb'.room
        have hsizes := mem_sizes
        exact hlow.1 b hb (hb'.used_eq_zero.1 (hend.resolve_left (by omega)))
    rw [if_neg hcond, if_pos hend]
    exact finish_inv (s := { s with heap := { s.heap with lfree := cur } }) (o := o) hg hcur_eq hroom

/-- From the label `mem_malloc_adjust_lfree` on. -/
theorem adjustLfree_inv (hg : (s.settled mem o).Good bs) (hlags : Lags s.heap mem o)
    (hroom : mem + sizeofStructMem + size ≤ memSizeAligned) :
    ∃ s', s.adjustLfree size mem = some s' ∧ s.Claims mem s' := by
  rw [adjustLfree]
  rcases hlags with hlfree | ⟨hlfree, hlt⟩
  · rw [if_neg (hlfree ▸ settled_ne hg)]
    exact finish_inv hg hlfree hroom
  · obtain ⟨c, hc, hu, hstart, hat⟩ := settled_block hg
    rw [if_pos hlfree.symm, hlfree]
    exact adjust_inv hg hlfree hlt hroom (Or.inr ⟨c, hc, hstart⟩) hlt.le

/-- The same, of the heap in which the block has just been claimed. -/
theorem adjustLfree_claims {h' : MemHeap}
    (hg : (⟨h'.withLfree o, (mem + sizeofStructMem) :: s.live⟩ : MemSys).Good bs)
    (hlags : Lags h' mem o) (hroom : mem + sizeofStructMem + size ≤ memSizeAligned) :
    ∃ s', adjustLfree { s with heap := h' } size mem = some s' ∧ s.Claims mem s' :=
  adjustLfree_inv (s := { s with heap := h' }) hg hlags hroom

/-- **The claim.** -/
theorem claim_inv (hg : s.toMemSys.Good bs) (hsize : Wanted size) (hb : b ∈ bs)
    (hfree : b.used = false) (hfit : b.start + sizeofStructMem + size ≤ b.stop) :
    ∃ s', adjustLfree { s with heap := s.heap.claim b.start size } size b.start = some s' ∧
      s.Claims b.start s' := by
  obtain ⟨hmax, n, rfl⟩ := hsize
  obtain ⟨hal, hmin⟩ := MemHeap.memBlockSize_aligned n
  obtain ⟨xs, ys, rfl, hmem⟩ := hg.inv.split hb
  obtain ⟨e, rest, hc, he, hcounted⟩ := hg.inv.claim hfree hal hmin hfit
  obtain ⟨o, hadjust, hlow⟩ := hc.adjustLfree hg.inv.lfree hfree
  have hall := hc.allocated hfree hmem he hcounted hlow
  have hg' := (hg.claimed hb hfree hall.inv hall.used).2
  set h' := s.heap.claim b.start (memBlockSize n)
  have hlags : Lags h' b.start o := by
    by_cases heq : b.start = h'.lfree
    · have hbelow : ∀ x ∈ xs ++ [b] ++ ys, x.start < b.start → x.used = true := fun x hx hlt ↦ by
        by_contra hxu
        have := hg.inv.lfree.1 x hx (Bool.eq_false_iff.2 hxu)
        rw [hc.lfree] at heq
        omega
      have hnew := (hall.used ⟨b.start, e, true⟩ rfl).2 (Or.inr rfl)
      exact Or.inr ⟨heq.symm, hall.inv.lfree.lt_of_used (x := ⟨b.start, e, true⟩) hall.inv.shape.tiles hnew rfl
        (hg.inv.shape.tiles.used_below hall.inv.shape.tiles hbelow
          fun x hx hlt ↦ (hall.used x (hbelow x hx hlt)).2 (Or.inl hx))⟩
    · have hsame := (MemHeap.adjustLfree_of_ne heq).symm.trans hadjust
      exact Or.inl (congrArg MemHeap.lfree (Option.some.inj hsame))
  have hstop := hg.inv.shape.stop_le hb
  exact adjustLfree_claims hg' hlags (hfit.trans hstop)

/-! ### Other calls in the second window -/

/-- `lfree` lags behind still, when the blocks below the claimed one have stayed. -/
theorem lt_lfree {h' : MemHeap} (hg : (s.settled mem o).Good bs) (hlt : mem < o) (hinv : h'.Inv bs')
    (hlive : ∃ c ∈ bs', c.used = true ∧ c.start = mem)
    (hkept : ∀ x ∈ bs, x.used = true → x.start < mem → x ∈ bs') : mem < h'.lfree := by
  have hbelow : ∀ x ∈ bs, x.start < mem → x.used = true := fun x hx hxlt ↦ by
    by_contra hxu
    have : o ≤ x.start := hg.inv.lfree.1 x hx (Bool.eq_false_iff.2 hxu)
    omega
  obtain ⟨c, hc, hu, rfl⟩ := hlive
  exact hinv.lfree.lt_of_used hinv.shape.tiles hc hu (hg.inv.shape.tiles.used_below hinv.shape.tiles
    hbelow fun x hx hxlt ↦ hkept x hx (hbelow x hx hxlt) hxlt)

/-- **`mem_free`** in the second window. -/
theorem settled_free (hg : (s.settled mem o).Good bs) (hlags : Lags s.heap mem o) (hp : p ∈ s.live) :
    ∃ h' o' bs', s.heap.memFree (some p) = some h' ∧ Lags h' mem o' ∧
      (⟨h'.withLfree o', (mem + sizeofStructMem) :: s.live.erase p⟩ : MemSys).Good bs' := by
  obtain ⟨c, hc, hcu, hcmem, hcat⟩ := settled_block hg
  obtain ⟨b, hb, hu, rfl, hat⟩ := hg.exists_block (List.mem_cons_of_mem _ hp)
  have hne : mem + sizeofStructMem ≠ b.start + sizeofStructMem := fun heq ↦
    (List.nodup_cons.1 hg.nodup).1 (heq ▸ hp)
  have hcb : c ≠ b := by
    rintro rfl
    exact hne (by rw [hcmem])
  obtain ⟨h'', bs', hfree, hinv, hused, -⟩ := hg.inv.memFree hb hu
  have hg' := hg.freed hb hinv hused
  rw [show (s.settled mem o).live.erase _ = _ from
    List.erase_cons_tail (by simpa using hne)] at hg'
  rcases hlags with hlfree | ⟨hlfree, hlt⟩
  · subst hlfree
    exact ⟨h'', h''.lfree, bs', hfree, Or.inl rfl, hg'⟩
  have hself : s.heap = s.heap.withLfree mem := by rw [← hlfree]; rfl
  obtain ⟨⟨hlegal, hlo, hhi⟩, hoffset⟩ := hat.data_offset (hg.inv.shape.stop_le hb)
  have hused_c : (s.heap.header mem).used ≠ 0 := hcmem ▸ hcat.used_ne_zero hcu
  have hused_b : (s.heap.header b.start).used ≠ 0 := hat.used_ne_zero hu
  have hapart : MemHeap.Apart mem b.start := hcmem ▸ hg.inv.shape.apart hc hb fun heq ↦
    hcb (hg.inv.shape.tiles.eq_of_start hc hb heq)
  have hlag := MemHeap.memFree_withLfree hused_c hlt ⟨hlegal, hlo, hhi⟩ hoffset hused_b hapart
  rw [← hself] at hlag
  rcases hlag with hsame | ⟨hlt', hsame⟩
  · exact ⟨h'', h''.lfree, bs', hsame.trans hfree, Or.inl rfl, hg'⟩
  · refine ⟨h''.withLfree mem, h''.lfree, bs', ?_, Or.inr ⟨rfl, ?_⟩, hg'⟩
    · rw [hsame]
      exact congrArg _ hfree
    · refine lt_lfree hg hlt hinv ⟨c, (hused c hcu).2 ⟨hc, hcb⟩, hcu, hcmem⟩ fun x hx hxu hxlt ↦
        (hused x hxu).2 ⟨hx, ?_⟩
      rintro rfl
      exact absurd hxlt (by omega)

/-- **`mem_trim`** in the second window. -/
theorem settled_trim {newsize : ℕ} (hg : (s.settled mem o).Good bs) (hlags : Lags s.heap mem o)
    (hp : p ∈ s.live) (hn : newsize ≤ s.heap.dataSize p) :
    ∃ h' o' bs', s.heap.memTrim p newsize = some (some (p : ℤ), h') ∧ Lags h' mem o' ∧
      (⟨h'.withLfree o', (mem + sizeofStructMem) :: s.live⟩ : MemSys).Good bs' := by
  obtain ⟨c, hc, hcu, hcmem, hcat⟩ := settled_block hg
  obtain ⟨b, hb, hu, rfl, hat⟩ := hg.exists_block (List.mem_cons_of_mem _ hp)
  have hcb : c ≠ b := by
    rintro rfl
    exact (List.nodup_cons.1 hg.nodup).1 (hcmem ▸ hp)
  have hsize : s.heap.dataSize (b.start + sizeofStructMem) = _ := hat.dataSize_eq
  rw [hsize] at hn
  obtain ⟨h'', htrim, bs', e, hinv, hroom, hstop, hused, -, -⟩ := hg.inv.memTrim hb hu hn
  have hg' := hg.trimmed hb hu hinv hused
  rcases hlags with hlfree | ⟨hlfree, hlt⟩
  · subst hlfree
    exact ⟨h'', h''.lfree, bs', htrim, Or.inl rfl, hg'⟩
  have hself : s.heap = s.heap.withLfree mem := by rw [← hlfree]; rfl
  obtain ⟨-, hoffset⟩ := hat.data_offset (hg.inv.shape.stop_le hb)
  have hused_c : (s.heap.header mem).used ≠ 0 := hcmem ▸ hcat.used_ne_zero hcu
  have hlag := MemHeap.memTrim_withLfree newsize hused_c hlt hoffset
  rw [← hself] at hlag
  rcases hlag with hsame | ⟨hsame, hwhy⟩
  · exact ⟨h'', h''.lfree, bs', hsame.trans htrim, Or.inl rfl, hg'⟩
  have hcall : s.heap.memTrim ((b.start + sizeofStructMem : ℕ) : ℤ) newsize =
      some (some ((b.start + sizeofStructMem : ℕ) : ℤ), h''.withLfree mem) := by
    rw [hsame]
    exact congrArg _ htrim
  rcases hwhy with hnothing | hbehind
  · -- nothing changes
    have hheap : h'' = s.heap.withLfree o := hnothing _ htrim
    subst hheap
    refine ⟨_, o, bs, hcall, Or.inr ⟨rfl, hlt⟩, hg⟩
  · -- the block that is trimmed is behind the claimed one
    have hcb' : c.start < b.start := by
      have hstop' := hg.inv.shape.stop_le hb
      have hroom' := hat.room
      have hsizes := mem_sizes
      have hnext : (s.heap.header b.start).next = b.stop := hat.next
      have hlow : c.start < b.stop := by
        rw [hnext] at hbehind
        rcases hbehind with hfree | ⟨hle, hleft⟩
        · obtain ⟨xs, ys, rfl, -⟩ := hg.inv.split hb
          obtain ⟨y, zs, rfl, hy, hyu⟩ := hg.inv.shape.next_free hfree
          have : o ≤ y.start := hg.inv.lfree.1 y (by simp) hyu
          omega
        · omega
      rcases hg.inv.shape.tiles.eq_or_apart hc hb with heq | happart | happart
      · exact absurd heq hcb
      · have := (hg.inv.shape.tiles.mem_bounds hc).2.1
        omega
      · omega
    refine ⟨_, h''.lfree, bs', hcall, Or.inr ⟨rfl, ?_⟩, hg'⟩
    refine lt_lfree hg hlt hinv ⟨c, (hused c hcu).2 (Or.inl ⟨hc, hcb⟩), hcu, hcmem⟩
      fun x hx hxu hxlt ↦ (hused x hxu).2 (Or.inl ⟨hx, ?_⟩)
    rintro rfl
    omega

/-! ### One step -/

/-- A write into a live block is no matter of the blocks. -/
theorem written {m : MemSys} {i : ℕ} (hg : m.Good bs) (hp : p ∈ m.live) (hi : i < m.heap.dataSize p)
    (v : BitVec 8) :
    (⟨{ m.heap with ram := Function.update m.heap.ram (p + i) v }, m.live⟩ : MemSys).Good bs := by
  obtain ⟨b, hb, hu, rfl, hat⟩ := hg.exists_block hp
  rw [hat.dataSize_eq] at hi
  exact ⟨(hg.inv.write hb (by omega) (by omega) v).1, hg.nodup, hg.live⟩

/-- A trim that does not set the flag changes nothing. -/
theorem trim_of_not_protects {m m' : MemSys} {newsize : ℕ} (hp : ¬ TrimProtects m.heap p newsize)
    (hcall : m.call (.trim p newsize) = some m') : m' = m := by
  obtain ⟨y, hy, rfl⟩ := Option.map_eq_some_iff.1 hcall
  obtain ⟨hptr, hheap⟩ := MemHeap.memTrim_of_not_protects hp hy
  have hlive : (m.live.map fun q ↦ if q = p then (y.1.map Int.toNat).getD q else q) = m.live := by
    refine (List.map_congr_left fun q _ ↦ ?_).trans (List.map_id _)
    rcases hptr with hnull | hsame
    · rw [hnull]
      exact ite_id _
    · rw [hsame]
      exact ite_eq_right_iff.2 Eq.symm
  rw [hlive, hheap]

/-- **Other calls in the first window**, or without a call: the invariant of the heap, with the same
blocks if the flag is not set. -/
theorem call_good {c : MemCall} (hg : s.toMemSys.Good bs) (hp : s.toMemSys.Permitted c)
    (hc : ∀ n, c ≠ .malloc n) :
    ∃ m bs', s.toMemSys.call c = some m ∧ m.Good bs' ∧ (¬ SetsFlag s.heap c → bs' = bs) := by
  obtain ⟨m, bs', hcall, hg', -⟩ := hg.call hp
  cases c with
  | malloc n => exact absurd rfl (hc n)
  | free p => exact ⟨m, bs', hcall, hg', fun hno ↦ absurd trivial hno⟩
  | trim p n =>
    by_cases hprotects : TrimProtects s.heap p n
    · exact ⟨m, bs', hcall, hg', fun hno ↦ absurd hprotects hno⟩
    · obtain rfl := trim_of_not_protects hprotects hcall
      exact ⟨_, bs, hcall, hg, fun _ ↦ rfl⟩
  | write p i v => exact ⟨_, bs, rfl, written hg hp.1 hp.2 v, fun _ ↦ rfl⟩

/-- **Other calls in the second window.** -/
theorem call_settled {c : MemCall} (hg : (s.settled mem o).Good bs) (hlags : Lags s.heap mem o)
    (hp : s.toMemSys.Permitted c) (hc : ∀ n, c ≠ .malloc n) :
    ∃ m bs' o', s.toMemSys.call c = some m ∧ Lags m.heap mem o' ∧
      (⟨m.heap.withLfree o', (mem + sizeofStructMem) :: m.live⟩ : MemSys).Good bs' ∧
      (¬ SetsFlag s.heap c → bs' = bs ∧ o' = o ∧ m.heap.lfree = s.heap.lfree) := by
  cases c with
  | malloc n => exact absurd rfl (hc n)
  | free p =>
    obtain ⟨h', o', bs', hcall, hlags', hg'⟩ := settled_free hg hlags hp
    refine ⟨⟨h', s.live.erase p⟩, bs', o', ?_, hlags', hg', fun hno ↦ absurd trivial hno⟩
    simp only [MemSys.call, hcall, Option.map_some]
  | trim p n =>
    obtain ⟨h', o', bs', hcall, hlags', hg'⟩ := settled_trim hg hlags hp.1 hp.2
    have hcall' : s.toMemSys.call (.trim p n) = some ⟨h', s.live⟩ := by
      simp only [MemSys.call, hcall, Option.map_some, Int.toNat_natCast, Option.getD_some]
      rw [MemSys.map_live_trim]
    by_cases hprotects : TrimProtects s.heap p n
    · exact ⟨_, bs', o', hcall', hlags', hg', fun hno ↦ absurd hprotects hno⟩
    · have hsame := trim_of_not_protects hprotects hcall'
      rw [hsame] at hcall'
      exact ⟨_, bs, o, hcall', hlags, hg, fun _ ↦ ⟨rfl, rfl, rfl⟩⟩
  | write p i v =>
    exact ⟨_, bs, o, rfl, hlags, written hg (List.mem_cons_of_mem _ hp.1) hp.2 v,
      fun _ ↦ ⟨rfl, rfl, rfl⟩⟩

end SharedMem

namespace SharedMem

variable {s s' : SharedMem} {bs : List Block} {l : SharedLabel} {ls : List SharedLabel} {mem : ℕ}

/-- **What may happen**: the calls that callers may make, `mem_malloc` only when no other call of it is going
on, which else goes on. -/
def Enabled : SharedLabel → SharedMem → Prop
  | .call (.malloc _), s => s.window = none
  | .call c, s => s.toMemSys.Permitted c
  | .resume, s => s.window ≠ none

/-- Any other call. -/
theorem other_inv {c : MemCall} (hs : s.Inv) (hp : s.toMemSys.Permitted c) (hc : ∀ n, c ≠ .malloc n) :
    ∃ s', s.other c = some s' ∧ s'.Inv ∧ s'.held = s.held := by
  have hother : ∀ m, s.toMemSys.call c = some m → s.other c = some { s with
      toMemSys := m, memFreeCount := s.memFreeCount || decide (SetsFlag s.heap c) } := fun m hm ↦ by
    rw [other, MemSys.step, if_pos hp, hm, Option.map_some]
  rw [Inv] at hs
  split at hs
  · next hw =>
    obtain ⟨bs, hg⟩ := hs
    obtain ⟨m, bs', hcall, hg', -⟩ := call_good hg hp hc
    refine ⟨_, hother m hcall, ?_, rfl⟩
    simp only [Inv, hw]
    exact ⟨bs', hg'⟩
  · next size ptr hw =>
    obtain ⟨bs, hg, hsize, hptr⟩ := hs
    obtain ⟨m, bs', hcall, hg', hsame⟩ := call_good hg hp hc
    refine ⟨_, hother m hcall, ?_, rfl⟩
    simp only [Inv, hw, Bool.or_eq_false_iff, decide_eq_false_iff_not]
    refine ⟨bs', hg', hsize, fun hquiet ↦ ?_⟩
    obtain ⟨hflag, hno⟩ := hquiet
    rw [hsame hno]
    exact hptr hflag
  · next size mem cur hw =>
    obtain ⟨bs, o, hg, hlags, hroom, hcur⟩ := hs
    obtain ⟨m, bs', o', hcall, hlags', hg', hsame⟩ := call_settled hg hlags hp hc
    refine ⟨_, hother m hcall, ?_, rfl⟩
    simp only [Inv, hw, Bool.or_eq_false_iff, decide_eq_false_iff_not]
    refine ⟨bs', o', hg', hlags', hroom, fun hquiet ↦ ?_⟩
    obtain ⟨hflag, hno⟩ := hquiet
    obtain ⟨rfl, rfl, hlfree⟩ := hsame hno
    rw [hlfree]
    exact hcur hflag

/-- `mem_malloc` begins. -/
theorem memMalloc_inv (hs : s.Inv) (hw : s.window = none) (size : ℕ) :
    ∃ s', s.memMalloc size = some s' ∧ s'.Inv ∧ s'.live = s.live ∧ s'.held = none := by
  have hinv := hs
  simp only [Inv, hw] at hs
  obtain ⟨bs, hg⟩ := hs
  have hheld : s.held = none := by rw [held, hw]
  simp only [memMalloc, hw]
  split_ifs with hzero hbig
  · exact ⟨s, rfl, hinv, rfl, hheld⟩
  · exact ⟨s, rfl, hinv, rfl, hheld⟩
  · exact ⟨_, rfl, search_inv hg ⟨Nat.le_of_not_lt hbig, size, rfl⟩ (lfree_boundary hg), search_live _ _ _⟩

/-- **`mem_malloc` goes on**: it searches, or it claims a block, and keeps and returns what it has claimed. -/
theorem resume_inv (hs : s.Inv) (hw : s.window ≠ none) :
    ∃ s', s.resume = some s' ∧ s'.Inv ∧ (s'.live = s.live ∧ s'.held = none ∨
      ∃ mem, (s.chosen = some mem ∨ s.held = some mem) ∧ s.Claims mem s') := by
  rw [Inv] at hs
  split at hs
  · next hnone => exact absurd hnone hw
  · next size ptr hwin =>
    obtain ⟨bs, hg, hsize, hptr⟩ := hs
    simp only [resume, hwin]
    by_cases hflag : s.memFreeCount = true
    · rw [if_pos hflag]
      exact ⟨_, rfl, search_inv hg hsize (lfree_boundary hg), Or.inl (search_live _ _ _)⟩
    rw [if_neg hflag]
    have hflag' := Bool.eq_false_iff.2 hflag
    obtain ⟨b, hb, rfl⟩ := hptr hflag'
    have hat := hg.inv.shape.blockAt hb
    by_cases hfit : (s.heap.header b.start).used = 0 ∧ size ≤ s.heap.room b.start
    · rw [if_pos hfit]
      have hroom := hat.room
      have hchosen : s.chosen = some b.start := by
        simp only [chosen, hwin]
        exact if_pos ⟨hflag', hfit⟩
      rw [hat.room_eq (hg.inv.shape.stop_le hb)] at hfit
      obtain ⟨s', hs', hclaims⟩ := claim_inv hg hsize hb (hat.used_eq_zero.1 hfit.1) (by omega)
      exact ⟨s', hs', hclaims.1, Or.inr ⟨b.start, Or.inl hchosen, hclaims⟩⟩
    · rw [if_neg hfit, hat.next]
      exact ⟨_, rfl, search_inv hg hsize (hg.inv.shape.tiles.stop_eq_start hb),
        Or.inl (search_live _ _ _)⟩
  · next size mem cur hwin =>
    obtain ⟨bs, o, hg, hlags, hroom, hcur⟩ := hs
    have hheld : s.held = some mem := by rw [held, hwin]
    simp only [resume, hwin]
    by_cases hflag : s.memFreeCount = true
    · rw [if_pos hflag]
      obtain ⟨s', hs', hclaims⟩ := adjustLfree_inv hg hlags hroom
      exact ⟨s', hs', hclaims.1, Or.inr ⟨mem, Or.inr hheld, hclaims⟩⟩
    rw [if_neg hflag]
    obtain ⟨hlfree, hlt, b, hb, rfl⟩ := hcur (Bool.eq_false_iff.2 hflag)
    have hat : s.heap.BlockAt b := (hg.inv.shape.blockAt hb).of_header_eq rfl
    have hstop : b.stop ≤ o := by
      rcases hg.inv.lfree.2 with hend | ⟨x, hx, -, hstart⟩
      · exact (hg.inv.shape.stop_le hb).trans hend.ge
      · have hxo : x.start = o := hstart
        rcases hg.inv.shape.tiles.eq_or_apart hb hx with rfl | happart | happart
        · omega
        · omega
        · have := (hg.inv.shape.tiles.mem_bounds hx).2.1
          omega
    have hmem : mem < o :=
      hlags.elim (fun heq ↦ absurd (hlfree.symm.trans heq) (settled_ne hg)) And.right
    rw [hat.next]
    obtain ⟨s', hs', hclaims⟩ := adjust_inv hg hlfree hmem hroom
      (hg.inv.shape.tiles.stop_eq_start hb) hstop
    exact ⟨s', hs', hclaims.1, Or.inr ⟨mem, Or.inr hheld, hclaims⟩⟩

/-- **Every enabled step is possible**, and keeps the invariant. -/
theorem step_inv (hs : s.Inv) (hl : Enabled l s) : ∃ s', step l s = some s' ∧ s'.Inv := by
  cases l with
  | resume =>
    obtain ⟨s', hs', hinv, -⟩ := resume_inv hs hl
    exact ⟨s', hs', hinv⟩
  | call c =>
    cases c with
    | malloc size =>
      obtain ⟨s', hs', hinv, -⟩ := memMalloc_inv hs hl size
      exact ⟨s', hs', hinv⟩
    | free p =>
      obtain ⟨s', hs', hinv, -⟩ := other_inv (c := .free p) hs hl fun _ ↦ nofun
      exact ⟨s', hs', hinv⟩
    | trim p newsize =>
      obtain ⟨s', hs', hinv, -⟩ := other_inv (c := .trim p newsize) hs hl fun _ ↦ nofun
      exact ⟨s', hs', hinv⟩
    | write p i v =>
      obtain ⟨s', hs', hinv, -⟩ := other_inv (c := .write p i v) hs hl fun _ ↦ nofun
      exact ⟨s', hs', hinv⟩

/-- What happens is enabled. -/
theorem enabled_of_step (hstep : step l s = some s') : Enabled l s := by
  have hother : ∀ c, s.other c = some s' → s.toMemSys.Permitted c := fun c hc ↦ by
    by_contra hno
    rw [other, MemSys.step, if_neg hno] at hc
    cases hc
  cases l with
  | resume =>
    intro hw
    simp only [step, resume, hw] at hstep
    cases hstep
  | call c =>
    cases c with
    | malloc size =>
      show s.window = none
      by_contra hw
      obtain ⟨w, hw⟩ := Option.ne_none_iff_exists'.1 hw
      simp only [step, memMalloc, hw] at hstep
      cases hstep
    | free p => exact hother _ hstep
    | trim p newsize => exact hother _ hstep
    | write p i v => exact hother _ hstep

theorem inv_init (ram : ByteMem) : (init ram).Inv :=
  show ∃ bs, (MemSys.init ram).Good bs from ⟨_, MemSys.good_init ram⟩

/-- **Every run** keeps the invariant. -/
theorem inv_of_run {ram : ByteMem} (h : runLabels step ls (init ram) = some s) : s.Inv := by
  refine runLabels_invariant (inv_init ram) (fun l s s' hs hstep ↦ ?_) h
  obtain ⟨s'', hs'', hinv⟩ := step_inv hs (enabled_of_step hstep)
  obtain rfl := Option.some.inj (hs''.symm.trans hstep)
  exact hinv

/-! ### The theorem -/

/-- **A free block** among those that following `next` meets, apart from the live ones. -/
def FreeBlock (s : SharedMem) (mem : ℕ) : Prop :=
  (∃ os, s.heap.follow (memSizeAligned + 1) 0 = some os ∧ mem ∈ os) ∧ (s.heap.header mem).used = 0 ∧
    ∀ p ∈ s.live, p + s.heap.dataSize p ≤ mem ∨ (s.heap.header mem).next ≤ p

/-- **Where blocks come from**: a block that `mem_malloc` keeps after a step is the one that it claims in
the step, or was kept before; and so is a block that it returns. -/
def HandsOut (s s' : SharedMem) : Prop :=
  (∀ mem, s'.held = some mem → s.chosen = some mem ∨ s.held = some mem) ∧
    ∀ p ∈ s'.live, p ∉ s.live → s'.window = none ∧ s'.live = p :: s.live ∧
      ∃ mem, p = mem + sizeofStructMem ∧ (s.chosen = some mem ∨ s.held = some mem)

/-- **The block that `mem_malloc` claims is free**, whatever happened in the windows before. -/
theorem freeBlock_of_chosen (hs : s.Inv) (hmem : s.chosen = some mem) : s.FreeBlock mem := by
  rw [chosen] at hmem
  split at hmem
  swap
  · cases hmem
  next size ptr hw =>
  split_ifs at hmem with hcond
  obtain rfl := Option.some.inj hmem
  simp only [Inv, hw] at hs
  obtain ⟨bs, hg, -, hptr⟩ := hs
  obtain ⟨b, hb, rfl⟩ := hptr hcond.1
  have hat := hg.inv.shape.blockAt hb
  have hfree := hat.used_eq_zero.1 hcond.2.1
  refine ⟨⟨_, hg.inv.follow, List.mem_map_of_mem hb⟩, hcond.2.1, fun p hp ↦ ?_⟩
  obtain ⟨x, hx, hxu, rfl, hxat⟩ := hg.exists_block hp
  have hroom := hxat.room
  rw [hxat.dataSize_eq, hat.next]
  rcases hg.inv.shape.tiles.eq_or_apart hx hb with rfl | happart | happart
  · rw [hfree] at hxu
    cases hxu
  · exact Or.inl (by omega)
  · exact Or.inr (by omega)

/-- `mem_trim` returns the pointer it is given, or a null pointer. -/
theorem memTrim_pointer {h : MemHeap} {r : ℤ} {newsize : ℕ} {y : Option ℤ × MemHeap}
    (hy : h.memTrim r newsize = some y) : y.1 = none ∨ y.1 = some r := by
  simp only [MemHeap.memTrim] at hy
  split_ifs at hy <;> obtain rfl := Option.some.inj hy <;> simp

/-- No other call makes a pointer live, or claims a block. -/
theorem other_live {c : MemCall} (hc : ∀ n, c ≠ .malloc n) (hother : s.other c = some s') :
    (∀ p ∈ s'.live, p ∈ s.live) ∧ s'.held = s.held := by
  obtain ⟨m, hm, rfl⟩ := Option.map_eq_some_iff.1 hother
  refine ⟨?_, rfl⟩
  show ∀ p ∈ m.live, p ∈ s.live
  rw [MemSys.step] at hm
  split_ifs at hm with hp
  cases c with
  | malloc n => exact absurd rfl (hc n)
  | free p =>
    obtain ⟨h', -, rfl⟩ := Option.map_eq_some_iff.1 hm
    exact fun q hq ↦ List.mem_of_mem_erase hq
  | trim p newsize =>
    obtain ⟨y, hy, rfl⟩ := Option.map_eq_some_iff.1 hm
    intro q hq
    obtain ⟨a, ha, rfl⟩ := List.mem_map.1 hq
    rcases memTrim_pointer hy with hnull | hsame
    · rw [hnull]
      simpa using ha
    · rw [hsame]
      by_cases hap : a = p
      · simpa [hap] using hap ▸ ha
      · simpa [hap] using ha
  | write p i v =>
    obtain rfl := Option.some.inj hm
    exact fun q hq ↦ hq

theorem step_handsOut (hs : s.Inv) (hstep : step l s = some s') : s.HandsOut s' := by
  have hother : ∀ c : MemCall, (∀ n, c ≠ .malloc n) → s.other c = some s' → s.HandsOut s' := by
    intro c hc hother
    obtain ⟨hlive, hheld⟩ := other_live hc hother
    exact ⟨fun mem hmem ↦ Or.inr (hheld ▸ hmem), fun p hp hnot ↦ absurd (hlive p hp) hnot⟩
  cases l with
  | resume =>
    obtain ⟨s'', hs'', -, hcases⟩ := resume_inv hs (enabled_of_step hstep)
    obtain rfl := Option.some.inj (hs''.symm.trans hstep)
    rw [HandsOut]
    rcases hcases with ⟨hlive, hheld⟩ | ⟨mem, hpicks, -, ⟨hlive, hheld⟩ | ⟨hlive, hw⟩⟩
    · rw [hheld, hlive]
      exact ⟨nofun, fun p hp hnot ↦ absurd hp hnot⟩
    · rw [hheld, hlive]
      refine ⟨fun mem' hmem ↦ ?_, fun p hp hnot ↦ absurd hp hnot⟩
      obtain rfl := Option.some.inj hmem
      exact hpicks
    · have hheld : s''.held = none := by rw [held, hw]
      rw [hheld, hlive]
      refine ⟨nofun, fun p hp hnot ↦ ?_⟩
      obtain rfl := (List.mem_cons.1 hp).resolve_right hnot
      exact ⟨hw, rfl, mem, rfl, hpicks⟩
  | call c =>
    cases c with
    | malloc size =>
      obtain ⟨s'', hs'', -, hlive, hheld⟩ := memMalloc_inv hs (enabled_of_step hstep) size
      obtain rfl := Option.some.inj (hs''.symm.trans hstep)
      rw [HandsOut, hheld, hlive]
      exact ⟨nofun, fun p hp hnot ↦ absurd hp hnot⟩
    | free p => exact hother (.free p) (fun _ ↦ nofun) hstep
    | trim p newsize => exact hother (.trim p newsize) (fun _ ↦ nofun) hstep
    | write p i v => exact hother (.write p i v) (fun _ ↦ nofun) hstep

/-- **`mem_malloc` with windows**, after every run of calls in which `mem_free` and `mem_trim` run in its
windows: the block it claims is free and apart from all live blocks; what it returns is the block it has
claimed; when no call of it is going on, the heap is well formed, with `lfree` the lowest free block, and
the live blocks lie apart from each other; and no call fails. -/
theorem malloc_in_windows {ram : ByteMem} (h : runLabels step ls (init ram) = some s) :
    (∀ mem, s.chosen = some mem → s.FreeBlock mem) ∧
    (∀ l s', step l s = some s' → s.HandsOut s') ∧
    (s.window = none → s.toMemSys.Laid ∧ ∃ os, s.heap.WellFormed os) ∧
    ∀ l, Enabled l s → ∃ s', step l s = some s' := by
  have hs := inv_of_run h
  refine ⟨fun mem hmem ↦ freeBlock_of_chosen hs hmem, fun l s' hstep ↦ step_handsOut hs hstep,
    fun hw ↦ ?_, fun l hl ↦ (step_inv hs hl).imp fun _ ↦ And.left⟩
  simp only [Inv, hw] at hs
  obtain ⟨bs, hg⟩ := hs
  exact ⟨hg.laid, _, hg.inv.wellFormed⟩

/-- In the window of a call that has found the free block behind the first one, the first one is freed, and
the header found is gone: the call begins again. -/
theorem malloc_in_windows_freed : ∃ s, runLabels step
      [.call (.malloc 40), .resume, .resume, .call (.malloc 20), .call (.free 8), .resume, .resume, .resume]
      (init fun _ ↦ 0) = some s ∧ s.window = none ∧ ∃ os, s.heap.WellFormed os := by
  refine exists_run_of_observe (fun s ↦ s.window) none (by decide) fun s hs hw ↦ ?_
  exact ⟨hw, ((malloc_in_windows hs).2.2.1 hw).2⟩

end SharedMem

end Lwip.Core
