import LwipPoc.Core.Mem.Malloc
import LwipPoc.Foundation.Execution

/-!
# The heap over whole runs

The callers of the heap hold pointers that `mem_malloc` returned. `Sys` is the heap together with
these **live** pointers, and a step is a call — of `mem_malloc` with any size, of `mem_trim` and
`mem_free` on a live pointer — or a byte that an owner writes to its own block. What a caller may do
is `Permitted`; nothing else is assumed of it.

* `wellFormed_of_run`: after any run, following the headers from offset 0 shows a well-formed heap,
  and no permitted call makes an assertion fail.
* `heap_refines`: the heap is a map from live pointers to byte blocks, and every call does to this map
  what it says and nothing else.
-/

namespace Lwip.Core

open Block (Tiles LowestFree NoAdjacentFree)

/-- The heap and the live pointers. -/
structure MemSys where
  heap : MemHeap
  live : List ℕ

/-- A call of a caller of the heap, or a write of a byte by the owner of a block. -/
inductive MemCall
  | malloc (size : ℕ)
  | trim (p newsize : ℕ)
  | free (p : ℕ)
  | write (p i : ℕ) (v : BitVec 8)

namespace MemHeap

/-- The size of the data of the block at `p`, by its header. -/
def dataSize (h : MemHeap) (p : ℕ) : ℕ := (h.header (p - sizeofStructMem)).next - p

/-- The bytes of the block at `p`. -/
def data (h : MemHeap) (p : ℕ) : List (BitVec 8) :=
  (List.range (h.dataSize p)).map fun i ↦ h.ram (p + i)

/-- The offsets one meets when following `next`, up to the end marker. -/
def follow (h : MemHeap) : ℕ → ℕ → Option (List ℕ)
  | 0, _ => none
  | fuel + 1, o =>
    if o = memSizeAligned then some []
    else (follow h fuel (h.header o).next).map (o :: ·)

end MemHeap

namespace MemSys

/-- After `mem_init`, on memory that holds anything. -/
def init (ram : ByteMem) : MemSys := ⟨MemHeap.memInit ram, []⟩

/-- **What callers may do**: trim and free live blocks, the former not above the size of the block,
and write inside of them. -/
def Permitted (s : MemSys) : MemCall → Prop
  | .malloc _ => True
  | .trim p newsize => p ∈ s.live ∧ newsize ≤ s.heap.dataSize p
  | .free p => p ∈ s.live
  | .write p i _ => p ∈ s.live ∧ i < s.heap.dataSize p

instance (s : MemSys) : (c : MemCall) → Decidable (s.Permitted c)
  | .malloc _ => inferInstanceAs (Decidable True)
  | .trim _ _ => inferInstanceAs (Decidable (_ ∧ _))
  | .free p => inferInstanceAs (Decidable (p ∈ s.live))
  | .write _ _ _ => inferInstanceAs (Decidable (_ ∧ _))

/-- A call, and what it makes of the live pointers. -/
def call (s : MemSys) : MemCall → Option MemSys
  | .malloc size => (s.heap.memMalloc size).map fun r ↦
      ⟨r.2, (r.1.map Int.toNat).toList ++ s.live⟩
  | .trim p newsize => (s.heap.memTrim p newsize).map fun r ↦
      ⟨r.2, s.live.map fun q ↦ if q = p then (r.1.map Int.toNat).getD q else q⟩
  | .free p => (s.heap.memFree (some p)).map fun h ↦ ⟨h, s.live.erase p⟩
  | .write p i v => some { s with heap := { s.heap with ram := Function.update s.heap.ram (p + i) v } }

/-- A step of the callers. -/
def step (c : MemCall) (s : MemSys) : Option MemSys := if s.Permitted c then s.call c else none

/-! ### The invariant of the system -/

variable {s s' : MemSys} {bs : List Block} {c : MemCall} {ls : List MemCall} {p : ℕ}

/-- **The invariant**: the live pointers are those to the data of the used blocks. -/
structure Good (s : MemSys) (bs : List Block) : Prop where
  inv : s.heap.Inv bs
  nodup : s.live.Nodup
  live : ∀ p, p ∈ s.live ↔ ∃ b ∈ bs, b.used = true ∧ b.start + sizeofStructMem = p

/-- **The map from live pointers to byte blocks** that the heap implements. -/
def contents (s : MemSys) (p : ℕ) : Option (List (BitVec 8)) :=
  if p ∈ s.live then some (s.heap.data p) else none

/-- **What a call does to the map.** A block that `mem_malloc` returns was not live; `mem_trim` keeps
the bytes up to the new size, and whatever of the block it does not give back. -/
def MapStep : MemCall → (ℕ → Option (List (BitVec 8))) → (ℕ → Option (List (BitVec 8))) → Prop
  | .malloc size, m, m' => m' = m ∨ ∃ p bytes, m p = none ∧ memBlockSize size ≤ bytes.length ∧
      m' = Function.update m p (some bytes)
  | .trim p newsize, m, m' => ∃ bytes k, m p = some bytes ∧ newsize ≤ k ∧ k ≤ bytes.length ∧
      m' = Function.update m p (some (bytes.take k))
  | .free p, m, m' => m p ≠ none ∧ m' = Function.update m p none
  | .write p i v, m, m' => ∃ bytes, m p = some bytes ∧ i < bytes.length ∧
      m' = Function.update m p (some (bytes.set i v))

theorem good_init (ram : ByteMem) : (init ram).Good [⟨0, memSizeAligned, false⟩] := by
  refine ⟨MemHeap.inv_memInit ram, List.nodup_nil, fun p ↦ ⟨nofun, ?_⟩⟩
  rintro ⟨b, hb, hu, -⟩
  rw [List.mem_singleton.1 hb] at hu
  cases hu

end MemSys

namespace MemHeap

variable {h h' : MemHeap} {bs xs ys : List Block} {b : Block} {e fuel : ℕ}

/-! ### The data of a block -/

theorem BlockAt.dataSize_eq (hat : h.BlockAt b) :
    h.dataSize (b.start + sizeofStructMem) = b.stop - (b.start + sizeofStructMem) := by
  rw [dataSize, Nat.add_sub_cancel, hat.next]

theorem BlockAt.data_eq (hat : h.BlockAt b) : h.data (b.start + sizeofStructMem) =
    (List.range (b.stop - (b.start + sizeofStructMem))).map
      fun i ↦ h.ram (b.start + sizeofStructMem + i) := by
  rw [data, hat.dataSize_eq]

@[simp] theorem length_data (h : MemHeap) (p : ℕ) : (h.data p).length = h.dataSize p := by
  simp [data]

/-- The bytes of a block whose data is as it was, up to where the block ends now. -/
theorem SameData.data_eq_take (hsame : SameData h h' ⟨b.start, e, true⟩) (hat : h.BlockAt b)
    (hat' : h'.BlockAt ⟨b.start, e, true⟩) (he : e ≤ b.stop) :
    h'.data (b.start + sizeofStructMem) =
      (h.data (b.start + sizeofStructMem)).take (e - (b.start + sizeofStructMem)) := by
  have hdata' : h'.data (b.start + sizeofStructMem) =
      (List.range (e - (b.start + sizeofStructMem))).map
        fun i ↦ h'.ram (b.start + sizeofStructMem + i) := hat'.data_eq
  rw [hdata', hat.data_eq, ← List.map_take, List.take_range, min_eq_left (by omega)]
  refine List.map_congr_left fun i hi ↦ hsame _ (Nat.le_add_right _ _) ?_
  have := List.mem_range.1 hi
  show b.start + sizeofStructMem + i < e
  omega

theorem SameData.data_eq (hsame : SameData h h' b) (hat : h.BlockAt b) (hat' : h'.BlockAt b) :
    h'.data (b.start + sizeofStructMem) = h.data (b.start + sizeofStructMem) := by
  rw [hat.data_eq, hat'.data_eq]
  refine List.map_congr_left fun i hi ↦ hsame _ (Nat.le_add_right _ _) ?_
  have := List.mem_range.1 hi
  omega

/-! ### Writing to a block -/

/-- **A write inside of a used block** is no matter of the allocator. -/
theorem Inv.write (hi : h.Inv bs) (hb : b ∈ bs) {i : ℕ} (hi₁ : b.start + sizeofStructMem ≤ i)
    (hi₂ : i < b.stop) (v : BitVec 8) :
    ({ h with ram := Function.update h.ram i v } : MemHeap).Inv bs ∧
      ∀ x ∈ bs, x ≠ b → SameData h { h with ram := Function.update h.ram i v } x := by
  set h' : MemHeap := { h with ram := Function.update h.ram i v } with hh'
  have hram : ∀ j, j ≠ i → h'.ram j = h.ram j := fun j hj ↦ Function.update_of_ne hj _ _
  have hsizes := mem_sizes
  -- no header contains the address
  have hheader : ∀ o ∈ boundary bs, h'.header o = h.header o := by
    intro o ho
    have hne : ∀ k < 8, o + k ≠ i := by
      rintro k hk rfl
      exact hi.shape.data_notMem hb hi₁ hi₂ ⟨o, ho, by omega, by omega⟩
    have h₀ := hram _ (hne 0 (by omega))
    have h₁ := hram _ (hne 1 (by omega))
    have h₂ := hram _ (hne 2 (by omega))
    have h₃ := hram _ (hne 3 (by omega))
    have h₄ := hram _ (hne 4 (by omega))
    simp only [header, ByteMem.load16, ByteMem.load8]
    rw [show o + 2 + 1 = o + 3 from rfl]
    rw [Nat.add_zero] at h₀
    rw [h₀, h₁, h₂, h₃, h₄]
  refine ⟨⟨⟨hi.shape.tiles, hi.shape.linked.of_header_eq fun x hx ↦
    hheader _ (start_mem_boundary hx), ?_⟩, hi.apart, hi.lfree⟩, fun x hx hne j hj₁ hj₂ ↦ hram j ?_⟩
  · rw [hheader _ (Or.inl rfl)]
    exact hi.shape.end_used
  · rcases hi.shape.tiles.eq_or_apart hx hb with heq | hlt | hlt
    · exact absurd heq hne
    · omega
    · omega

end MemHeap

namespace MemSys

variable {s s' : MemSys} {bs bs' : List Block} {b : Block} {c : MemCall} {ls : List MemCall} {p : ℕ}

/-! ### The calls, one by one -/

/-- A live pointer points to the data of a used block. -/
theorem Good.exists_block (hg : s.Good bs) (hp : p ∈ s.live) :
    ∃ b ∈ bs, b.used = true ∧ b.start + sizeofStructMem = p ∧ s.heap.BlockAt b := by
  obtain ⟨b, hb, hu, hbp⟩ := (hg.live p).1 hp
  exact ⟨b, hb, hu, hbp, hg.inv.shape.blockAt hb⟩

theorem contents_of_mem (hp : p ∈ s.live) : s.contents p = some (s.heap.data p) := if_pos hp

theorem contents_of_notMem (hp : p ∉ s.live) : s.contents p = none := if_neg hp

/-- **The frame rule.** A block that is still there, with its data as it was, is in the map as
before; and a pointer that was not live and is not live now is in neither map. -/
theorem Good.contents_eq (hg : s.Good bs) (hg' : s'.Good bs') (hiff : p ∈ s'.live ↔ p ∈ s.live)
    (hsame : ∀ b ∈ bs, b.used = true → b.start + sizeofStructMem = p →
      b ∈ bs' ∧ MemHeap.SameData s.heap s'.heap b) : s'.contents p = s.contents p := by
  by_cases hp : p ∈ s.live
  · obtain ⟨b, hb, hu, rfl, hat⟩ := hg.exists_block hp
    obtain ⟨hb', hdata⟩ := hsame b hb hu rfl
    rw [contents_of_mem hp, contents_of_mem (hiff.2 hp),
      hdata.data_eq hat (hg'.inv.shape.blockAt hb')]
  · rw [contents_of_notMem hp, contents_of_notMem fun hp' ↦ hp (hiff.1 hp')]

/-- Blocks that start at the same offset are the same. -/
theorem Good.eq_of_start (hg : s.Good bs) {b b' : Block} (hb : b ∈ bs) (hb' : b' ∈ bs)
    (heq : b.start + sizeofStructMem = b'.start + sizeofStructMem) : b = b' :=
  hg.inv.shape.tiles.eq_of_start hb hb' (Nat.add_right_cancel heq)

/-- A block was claimed: its pointer is live. -/
theorem Good.claimed {h' : MemHeap} {e : ℕ} (hg : s.Good bs) (hb : b ∈ bs) (hfree : b.used = false)
    (hinv : h'.Inv bs')
    (hmem : ∀ z, z.used = true → (z ∈ bs' ↔ z ∈ bs ∨ z = ⟨b.start, e, true⟩)) :
    b.start + sizeofStructMem ∉ s.live ∧ Good ⟨h', (b.start + sizeofStructMem) :: s.live⟩ bs' := by
  have hnot : b.start + sizeofStructMem ∉ s.live := fun hp ↦ by
    obtain ⟨x, hx, hxu, hxb, -⟩ := hg.exists_block hp
    rw [hg.eq_of_start hx hb hxb, hfree] at hxu
    cases hxu
  refine ⟨hnot, hinv, List.nodup_cons.2 ⟨hnot, hg.nodup⟩, fun p ↦ ?_⟩
  rw [List.mem_cons, hg.live p]
  constructor
  · rintro (rfl | ⟨x, hx, hxu, hxp⟩)
    · exact ⟨_, (hmem _ rfl).2 (Or.inr rfl), rfl, rfl⟩
    · exact ⟨x, (hmem x hxu).2 (Or.inl hx), hxu, hxp⟩
  · rintro ⟨x, hx, hxu, rfl⟩
    rcases (hmem x hxu).1 hx with hx' | rfl
    · exact Or.inr ⟨x, hx', hxu, rfl⟩
    · exact Or.inl rfl

theorem Good.malloc (hg : s.Good bs) (size : ℕ) :
    ∃ s' bs', s.call (.malloc size) = some s' ∧ s'.Good bs' ∧
      MapStep (.malloc size) s.contents s'.contents := by
  rcases hg.inv.memMalloc size with ⟨h', hcall, hram, hlfree⟩ | ⟨h', b, hcall, hb, hfree, hall⟩
  · have hg' : Good ⟨h', s.live⟩ bs :=
      ⟨⟨hg.inv.shape.of_ram_eq hram, hg.inv.apart, hlfree ▸ hg.inv.lfree⟩, hg.nodup, hg.live⟩
    refine ⟨⟨h', s.live⟩, bs, ?_, hg', Or.inl (funext fun p ↦ ?_)⟩
    · simp only [call, hcall]
      rfl
    · refine hg.contents_eq hg' Iff.rfl fun b hb _ _ ↦ ⟨hb, fun i _ _ ↦ ?_⟩
      show h'.ram i = _
      rw [hram]
  · obtain ⟨bs', e, hinv, hroom, hstop, hmem, hdata⟩ := hall
    set new : Block := ⟨b.start, e, true⟩ with hnew
    have hnew_mem : new ∈ bs' := (hmem new rfl).2 (Or.inr rfl)
    obtain ⟨hnot, hg'⟩ := hg.claimed hb hfree hinv hmem
    refine ⟨⟨h', (b.start + sizeofStructMem) :: s.live⟩, bs', ?_, hg', Or.inr
      ⟨b.start + sizeofStructMem, h'.data (b.start + sizeofStructMem), contents_of_notMem hnot,
        ?_, funext fun q ↦ ?_⟩⟩
    · simp only [call, hcall]
      rfl
    · have hsize : h'.dataSize (new.start + sizeofStructMem) = _ :=
        (hinv.shape.blockAt hnew_mem).dataSize_eq
      rw [MemHeap.length_data]
      simp only [hnew] at hsize
      omega
    · rcases eq_or_ne q (b.start + sizeofStructMem) with rfl | hq
      · rw [Function.update_self, contents_of_mem List.mem_cons_self]
      · rw [Function.update_of_ne hq]
        refine hg.contents_eq hg' ?_ fun x hx hxu _ ↦ ⟨(hmem x hxu).2 (Or.inl hx), hdata x hx hxu⟩
        rw [List.mem_cons, or_iff_right hq]

/-- A block was trimmed: the same pointers are live. -/
theorem Good.trimmed {h' : MemHeap} {e : ℕ} (hg : s.Good bs) (hb : b ∈ bs) (hu : b.used = true)
    (hinv : h'.Inv bs')
    (hmem : ∀ z, z.used = true → (z ∈ bs' ↔ z ∈ bs ∧ z ≠ b ∨ z = ⟨b.start, e, true⟩)) :
    Good ⟨h', s.live⟩ bs' := by
  refine ⟨hinv, hg.nodup, fun p ↦ ?_⟩
  rw [hg.live p]
  constructor
  · rintro ⟨x, hx, hxu, rfl⟩
    rcases eq_or_ne x b with rfl | hne
    · exact ⟨_, (hmem _ rfl).2 (Or.inr rfl), rfl, rfl⟩
    · exact ⟨x, (hmem x hxu).2 (Or.inl ⟨hx, hne⟩), hxu, rfl⟩
  · rintro ⟨x, hx, hxu, rfl⟩
    rcases (hmem x hxu).1 hx with ⟨hx', -⟩ | rfl
    · exact ⟨x, hx', hxu, rfl⟩
    · exact ⟨b, hb, hu, rfl⟩

/-- `mem_trim` returns the pointer it was given. -/
theorem map_live_trim (live : List ℕ) (p : ℕ) :
    (live.map fun q ↦ if q = p then p else q) = live :=
  (List.map_congr_left fun _ _ ↦ ite_eq_right_iff.2 Eq.symm).trans (List.map_id _)

theorem Good.trim {newsize : ℕ} (hg : s.Good bs) (hp : p ∈ s.live)
    (hn : newsize ≤ s.heap.dataSize p) :
    ∃ s' bs', s.call (.trim p newsize) = some s' ∧ s'.Good bs' ∧
      MapStep (.trim p newsize) s.contents s'.contents := by
  obtain ⟨b, hb, hu, rfl, hat⟩ := hg.exists_block hp
  rw [hat.dataSize_eq] at hn
  obtain ⟨h', hcall, bs', e, hinv, hroom, hstop, hmem, hdata, hkept⟩ := hg.inv.memTrim hb hu hn
  have hnew_mem : (⟨b.start, e, true⟩ : Block) ∈ bs' := (hmem _ rfl).2 (Or.inr rfl)
  have hg' : Good ⟨h', s.live⟩ bs' := hg.trimmed hb hu hinv hmem
  refine ⟨⟨h', s.live⟩, bs', ?_, hg', s.heap.data (b.start + sizeofStructMem),
    e - (b.start + sizeofStructMem), contents_of_mem hp, by omega, ?_, funext fun q ↦ ?_⟩
  · simp only [call, hcall, Option.map_some, Int.toNat_natCast, Option.getD_some]
    rw [map_live_trim]
  · rw [MemHeap.length_data, hat.dataSize_eq]
    omega
  · rcases eq_or_ne q (b.start + sizeofStructMem) with rfl | hq
    · rw [Function.update_self, contents_of_mem (show _ ∈ (⟨h', s.live⟩ : MemSys).live from hp)]
      exact congrArg some
        (hkept.data_eq_take hat (hinv.shape.blockAt hnew_mem) hstop)
    · rw [Function.update_of_ne hq]
      refine hg.contents_eq hg' Iff.rfl fun x hx hxu hxq ↦ ?_
      have hne : x ≠ b := by
        rintro rfl
        exact hq hxq.symm
      exact ⟨(hmem x hxu).2 (Or.inl ⟨hx, hne⟩), hdata x hx hxu hne⟩

/-- A block was freed: its pointer is no longer live. -/
theorem Good.freed {h' : MemHeap} (hg : s.Good bs) (hb : b ∈ bs) (hinv : h'.Inv bs')
    (hmem : ∀ z, z.used = true → (z ∈ bs' ↔ z ∈ bs ∧ z ≠ b)) :
    Good ⟨h', s.live.erase (b.start + sizeofStructMem)⟩ bs' := by
  have hne : ∀ x ∈ bs, x.start + sizeofStructMem ≠ b.start + sizeofStructMem ↔ x ≠ b := by
    refine fun x hx ↦ not_congr ⟨hg.eq_of_start hx hb, ?_⟩
    rintro rfl
    rfl
  refine ⟨hinv, hg.nodup.erase _, fun q ↦ ?_⟩
  rw [hg.nodup.mem_erase_iff, hg.live q]
  constructor
  · rintro ⟨hq, x, hx, hxu, rfl⟩
    exact ⟨x, (hmem x hxu).2 ⟨hx, (hne x hx).1 hq⟩, hxu, rfl⟩
  · rintro ⟨x, hx, hxu, rfl⟩
    obtain ⟨hx', hxb⟩ := (hmem x hxu).1 hx
    exact ⟨(hne x hx').2 hxb, x, hx', hxu, rfl⟩

theorem Good.free (hg : s.Good bs) (hp : p ∈ s.live) :
    ∃ s' bs', s.call (.free p) = some s' ∧ s'.Good bs' ∧
      MapStep (.free p) s.contents s'.contents := by
  obtain ⟨b, hb, hu, rfl, hat⟩ := hg.exists_block hp
  obtain ⟨h', bs', hcall, hinv, hmem, htouch⟩ := hg.inv.memFree hb hu
  have hlive : ∀ q, q ∈ s.live.erase (b.start + sizeofStructMem) ↔
      q ≠ b.start + sizeofStructMem ∧ q ∈ s.live := fun q ↦ hg.nodup.mem_erase_iff
  have hg' := hg.freed hb hinv hmem
  refine ⟨_, bs', ?_, hg', ?_, funext fun q ↦ ?_⟩
  · simp only [call, hcall]
    rfl
  · rw [contents_of_mem hp]
    exact Option.some_ne_none _
  · rcases eq_or_ne q (b.start + sizeofStructMem) with rfl | hq
    · rw [Function.update_self]
      exact contents_of_notMem fun hq ↦ ((hlive _).1 hq).1 rfl
    · rw [Function.update_of_ne hq]
      refine hg.contents_eq hg' ((hlive q).trans (and_iff_right hq)) fun x hx hxu hxq ↦
        ⟨(hmem x hxu).2 ⟨hx, ?_⟩, hg.inv.shape.sameData htouch hx⟩
      rintro rfl
      exact hq hxq.symm

theorem Good.write {i : ℕ} (hg : s.Good bs) (hp : p ∈ s.live) (hi : i < s.heap.dataSize p)
    (v : BitVec 8) :
    ∃ s' bs', s.call (.write p i v) = some s' ∧ s'.Good bs' ∧
      MapStep (.write p i v) s.contents s'.contents := by
  obtain ⟨b, hb, hu, rfl, hat⟩ := hg.exists_block hp
  have hi' := hi
  rw [hat.dataSize_eq] at hi'
  set a := b.start + sizeofStructMem + i with ha
  obtain ⟨hinv, hdata⟩ := hg.inv.write hb (i := a) (by omega) (by omega) v
  set h' : MemHeap := { s.heap with ram := Function.update s.heap.ram a v } with hh'
  have hg' : Good ⟨h', s.live⟩ bs := ⟨hinv, hg.nodup, hg.live⟩
  refine ⟨⟨h', s.live⟩, bs, rfl, hg', s.heap.data (b.start + sizeofStructMem), contents_of_mem hp,
    (MemHeap.length_data _ _).symm ▸ hi, funext fun q ↦ ?_⟩
  rcases eq_or_ne q (b.start + sizeofStructMem) with rfl | hq
  · rw [Function.update_self, contents_of_mem (show _ ∈ (⟨h', s.live⟩ : MemSys).live from hp)]
    refine congrArg some (List.ext_getElem ?_ fun k hk hk' ↦ ?_)
    · rw [List.length_set, MemHeap.length_data, MemHeap.length_data, hat.dataSize_eq,
        (hinv.shape.blockAt hb).dataSize_eq]
    · rw [List.getElem_set]
      simp only [MemHeap.data, List.getElem_map, List.getElem_range]
      split_ifs with hik
      · rw [← hik]
        exact Function.update_self _ _ _
      · exact Function.update_of_ne (by omega) _ _
  · rw [Function.update_of_ne hq]
    refine hg.contents_eq hg' Iff.rfl fun x hx hxu hxq ↦ ⟨hx, hdata x hx ?_⟩
    rintro rfl
    exact hq hxq.symm

/-- **One step**: a permitted call returns, keeps the invariant, and does to the map what it says. -/
theorem Good.call (hg : s.Good bs) (hp : s.Permitted c) :
    ∃ s' bs', s.call c = some s' ∧ s'.Good bs' ∧ MapStep c s.contents s'.contents := by
  cases c with
  | malloc size => exact hg.malloc size
  | trim p newsize => exact hg.trim hp.1 hp.2
  | free p => exact hg.free hp
  | write p i v => exact hg.write hp.1 hp.2 v

theorem Good.step (hg : s.Good bs) (hstep : step c s = some s') :
    (∃ bs', s'.Good bs') ∧ MapStep c s.contents s'.contents := by
  rw [MemSys.step] at hstep
  split_ifs at hstep with hp
  obtain ⟨s'', bs', hcall, hg', hmap⟩ := hg.call hp
  obtain rfl := Option.some.inj (hcall.symm.trans hstep)
  exact ⟨⟨bs', hg'⟩, hmap⟩

/-- **Every run** keeps the invariant. -/
theorem run_good {ram : ByteMem} (h : runLabels step ls (init ram) = some s) : ∃ bs, s.Good bs :=
  runLabels_invariant (I := fun s ↦ ∃ bs, s.Good bs) ⟨_, good_init ram⟩
    (fun _ _ _ ⟨_, hg⟩ hstep ↦ (hg.step hstep).1) h

end MemSys

/-! ### The heap is well formed -/

namespace MemHeap

variable {h : MemHeap} {bs xs ys : List Block} {fuel : ℕ}

/-- **A well-formed heap**, with headers at the offsets `os`, told from the headers alone. -/
structure WellFormed (h : MemHeap) (os : List ℕ) : Prop where
  /-- Following `next` from offset 0 ends at the end marker. -/
  follow : h.follow (memSizeAligned + 1) 0 = some os
  /-- The offsets increase. -/
  increasing : (os ++ [memSizeAligned]).Pairwise (· < ·)
  /-- Every block points back to the one before it, the first one to itself. -/
  prev : (0 :: os).IsChain fun o o' ↦ (h.header o').prev = o
  /-- Every block has room for the least data size. -/
  room : ∀ o ∈ os, o + sizeofStructMem + minSizeAligned ≤ (h.header o).next
  /-- `next - (ptr + SIZEOF_STRUCT_MEM)` does not underflow. -/
  room_eq : ∀ o ∈ os, h.room o = (h.header o).next - (o + sizeofStructMem)
  /-- No two blocks in a row are free. -/
  apart : os.IsChain fun o o' ↦ (h.header o).used ≠ 0 ∨ (h.header o').used ≠ 0
  /-- No free block is below `lfree`. -/
  lfree_le : ∀ o ∈ os, (h.header o).used = 0 → h.lfree ≤ o
  /-- `lfree` is a free block, or the end marker if there is none. -/
  lfree : h.lfree ∈ os ∧ (h.header h.lfree).used = 0 ∨
    h.lfree = memSizeAligned ∧ ∀ o ∈ os, (h.header o).used ≠ 0

/-- Following `next` meets every block. -/
theorem Shape.follow (hs : h.Shape (xs ++ ys)) (hfuel : ys.length < fuel) :
    h.follow fuel (Block.startOf memSizeAligned ys) = some (ys.map Block.start) := by
  induction fuel generalizing xs ys with
  | zero => exact absurd hfuel (Nat.not_lt_zero _)
  | succ fuel ih =>
    cases ys with
    | nil => exact if_pos rfl
    | cons y ys =>
      have hend : y.start ≠ memSizeAligned := by
        have := hs.stop_le (b := y) (by simp)
        have := (hs.blockAt (b := y) (by simp)).room
        have := mem_sizes
        omega
      have hs' : h.Shape ((xs ++ [y]) ++ ys) := by simpa using hs
      show (if y.start = memSizeAligned then some []
        else (h.follow fuel (h.header y.start).next).map (y.start :: ·)) = _
      rw [if_neg hend, hs.header_next, ih hs' (Nat.lt_of_succ_lt_succ hfuel)]
      rfl

theorem Linked.isChain_prev {p : ℕ} (hl : h.Linked p bs) :
    (p :: bs.map Block.start).IsChain fun o o' ↦ (h.header o').prev = o := by
  induction bs generalizing p with
  | nil => exact List.isChain_singleton p
  | cons b bs ih => exact List.isChain_cons_cons.2 ⟨hl.2.1, ih hl.2.2⟩

theorem Inv.follow (hi : h.Inv bs) :
    h.follow (memSizeAligned + 1) 0 = some (bs.map Block.start) := by
  have hlen := hi.shape.tiles.length_le
  have hfollow : h.follow (memSizeAligned + 1) _ = _ :=
    Shape.follow (show h.Shape ([] ++ bs) from hi.shape) (by omega)
  rwa [hi.shape.tiles.startOf_eq] at hfollow

/-- **The invariant as the headers show it.** -/
theorem Inv.wellFormed (hi : h.Inv bs) : h.WellFormed (bs.map Block.start) := by
  have hat : ∀ b ∈ bs, h.BlockAt b := fun b hb ↦ hi.shape.blockAt hb
  have hused : ∀ b ∈ bs, (h.header b.start).used ≠ 0 ↔ b.used = true := fun b hb ↦ by
    rw [Ne, (hat b hb).used_eq_zero, Bool.not_eq_false]
  refine ⟨hi.follow, ?_, hi.shape.linked.isChain_prev, ?_, ?_, ?_, ?_, ?_⟩
  · refine List.pairwise_append.2 ⟨?_, List.pairwise_singleton _ _, ?_⟩
    · refine List.pairwise_map.2 (hi.shape.tiles.pairwise.imp_of_mem fun {x y} hx _ hxy ↦ ?_)
      exact (hi.shape.tiles.mem_bounds hx).2.1.trans_le hxy
    · intro o ho e he
      obtain ⟨b, hb, rfl⟩ := List.mem_map.1 ho
      rw [List.mem_singleton.1 he]
      have := hi.shape.tiles.mem_bounds hb
      omega
  · intro o ho
    obtain ⟨b, hb, rfl⟩ := List.mem_map.1 ho
    exact (hat b hb).next ▸ (hat b hb).room
  · intro o ho
    obtain ⟨b, hb, rfl⟩ := List.mem_map.1 ho
    rw [(hat b hb).room_eq (hi.shape.stop_le hb), (hat b hb).next]
  · rw [List.isChain_map]
    exact hi.apart.imp_of_mem_imp fun x y hx hy hxy ↦ hxy.imp (hused x hx).2 (hused y hy).2
  · intro o ho hfree
    obtain ⟨b, hb, rfl⟩ := List.mem_map.1 ho
    exact hi.lfree.1 b hb ((hat b hb).used_eq_zero.1 hfree)
  · rcases hi.lfree.2 with hend | ⟨b, hb, hfree, hstart⟩
    · refine Or.inr ⟨hend, fun o ho hfree ↦ ?_⟩
      obtain ⟨b, hb, rfl⟩ := List.mem_map.1 ho
      have := hi.lfree.1 b hb ((hat b hb).used_eq_zero.1 hfree)
      have := hi.shape.tiles.mem_bounds hb
      omega
    · rw [← hstart]
      exact Or.inl ⟨List.mem_map_of_mem hb, (hat b hb).used_eq_zero.2 hfree⟩

/-- Without a used block the heap is one free block. -/
theorem Inv.eq_of_unused (hi : h.Inv bs) (hbs : ∀ b ∈ bs, b.used = false) :
    bs = [⟨0, memSizeAligned, false⟩] := by
  have hlen := hi.apart.length_le_one hbs
  match bs with
  | [] => exact absurd (Block.tiles_nil.1 hi.shape.tiles) (by decide)
  | [b] =>
    have hfree := hbs b (List.mem_singleton_self b)
    obtain ⟨hstart, -, hstop⟩ := hi.shape.tiles
    cases b
    simp_all
  | _ :: _ :: _ => exact absurd hlen (by simp)

end MemHeap

namespace MemSys

variable {s s' : MemSys} {bs : List Block} {b : Block} {c : MemCall} {ls : List MemCall} {p : ℕ}

/-- **The heap is well formed after every run**, no permitted call fails, and once all blocks are
freed the heap is one free block again. -/
theorem wellFormed_of_run {ram : ByteMem} (h : runLabels step ls (init ram) = some s) :
    (∃ os, s.heap.WellFormed os ∧
      (s.live = [] → os = [0] ∧ s.heap.header 0 = ⟨memSizeAligned, 0, 0⟩)) ∧
    ∀ c, s.Permitted c → ∃ s', step c s = some s' := by
  obtain ⟨bs, hg⟩ := run_good h
  refine ⟨⟨bs.map Block.start, hg.inv.wellFormed, fun hnil ↦ ?_⟩, fun c hp ↦ ?_⟩
  · have hbs : bs = [⟨0, memSizeAligned, false⟩] := by
      refine hg.inv.eq_of_unused fun b hb ↦ Bool.eq_false_iff.2 fun hu ↦ ?_
      have hp := (hg.live _).2 ⟨b, hb, hu, rfl⟩
      rw [hnil] at hp
      cases hp
    have hshape := hg.inv.shape
    rw [hbs] at hshape ⊢
    obtain ⟨hat, hprev, -⟩ := hshape.linked
    refine ⟨rfl, ?_⟩
    have hnext := hat.next
    have hused := hat.used
    simp only at hnext hprev hused
    cases hheader : s.heap.header 0
    simp_all
  · obtain ⟨s', _, hcall, -⟩ := hg.call hp
    exact ⟨s', (if_pos hp).trans hcall⟩

/-- Three blocks, the middle one freed, the first one trimmed and the freed space used again; then all
of them freed. -/
def roundTrip : List MemCall :=
  [.malloc 100, .malloc 40, .malloc 40, .free 116, .trim 8 20, .malloc 60, .free 8, .free 36,
    .free 164]

theorem wellFormed_of_run_roundTrip :
    ∃ s, runLabels step roundTrip (init fun _ ↦ 0) = some s ∧ s.heap.WellFormed [0] := by
  refine exists_run_of_observe (fun s ↦ s.live) [] (by decide) fun s hs hlive ↦ ?_
  obtain ⟨⟨os, hos, hfree⟩, -⟩ := wellFormed_of_run hs
  exact (hfree hlive).1 ▸ hos

/-! ### The heap is a map of byte blocks -/

/-- **How the live blocks lie in the heap**: inside, aligned, apart from each other, and apart from
every header that following `next` meets. -/
structure Laid (s : MemSys) : Prop where
  inside : ∀ p ∈ s.live, p + s.heap.dataSize p ≤ memSizeAligned
  aligned : ∀ p ∈ s.live, p % memAlignment = 0
  disjoint : s.live.Pairwise fun p q ↦ p + s.heap.dataSize p ≤ q ∨ q + s.heap.dataSize q ≤ p
  headers : ∃ os, s.heap.follow (memSizeAligned + 1) 0 = some os ∧
    ∀ p ∈ s.live, ∀ o ∈ os ++ [memSizeAligned],
      p + s.heap.dataSize p ≤ o ∨ o + sizeofStructMem ≤ p

theorem Good.laid (hg : s.Good bs) : s.Laid := by
  have hsizes := mem_sizes
  refine ⟨fun p hp ↦ ?_, fun p hp ↦ ?_, ?_, bs.map Block.start, hg.inv.follow, ?_⟩
  · obtain ⟨b, hb, -, rfl, hat⟩ := hg.exists_block hp
    have := hg.inv.shape.stop_le hb
    have := hat.room
    rw [hat.dataSize_eq]
    omega
  · obtain ⟨b, hb, -, rfl, hat⟩ := hg.exists_block hp
    have haligned := hat.aligned
    rw [hsizes.2.2.2] at haligned ⊢
    omega
  · refine hg.nodup.imp_of_mem fun {p q} hp hq hne ↦ ?_
    obtain ⟨b, hb, -, rfl, hat⟩ := hg.exists_block hp
    obtain ⟨x, hx, -, rfl, hxat⟩ := hg.exists_block hq
    have := hat.room
    have := hxat.room
    rw [hat.dataSize_eq, hxat.dataSize_eq]
    rcases hg.inv.shape.tiles.eq_or_apart hb hx with rfl | hlt | hlt
    · exact absurd rfl hne
    · exact Or.inl (by omega)
    · exact Or.inr (by omega)
  · intro p hp o ho
    obtain ⟨b, hb, -, rfl, hat⟩ := hg.exists_block hp
    have := hat.room
    rw [hat.dataSize_eq]
    rcases List.mem_append.1 ho with ho | ho
    · obtain ⟨x, hx, rfl⟩ := List.mem_map.1 ho
      have := (hg.inv.shape.blockAt hx).room
      rcases hg.inv.shape.tiles.eq_or_apart hb hx with rfl | hlt | hlt
      · exact Or.inr le_rfl
      · exact Or.inl (by omega)
      · exact Or.inr (by omega)
    · have := hg.inv.shape.stop_le hb
      rw [List.mem_singleton.1 ho]
      exact Or.inl (by omega)

/-- **The heap refines a map from live pointers to byte blocks**: every run of calls is a run of the
map, starting with the empty one, and in every state reached the live blocks lie where they should
and every further call does to the map what it says. -/
theorem heap_refines {ram : ByteMem} (h : runLabels step ls (init ram) = some s) :
    s.Laid ∧ RelRun MapStep (fun _ ↦ none) ls s.contents ∧
      ∀ c s', step c s = some s' → MapStep c s.contents s'.contents := by
  obtain ⟨bs, hg⟩ := run_good h
  have hempty : (init ram).contents = fun _ ↦ none := funext fun p ↦ contents_of_notMem List.not_mem_nil
  refine ⟨hg.laid, ?_, fun c s' hstep ↦ (hg.step hstep).2⟩
  rw [← hempty]
  exact runLabels_refines (I := fun s ↦ ∃ bs, s.Good bs) contents ⟨_, good_init ram⟩
    (fun _ _ _ ⟨_, hg⟩ hstep ↦ (hg.step hstep).1) (fun _ _ _ ⟨_, hg⟩ hstep ↦ (hg.step hstep).2) h

theorem heap_refines_roundTrip :
    ∃ s, runLabels step (roundTrip.take 6 ++ [.write 36 3 7]) (init fun _ ↦ 0) = some s ∧
      s.live = [36, 164, 8] ∧ s.Laid := by
  refine exists_run_of_observe (fun s ↦ s.live) [36, 164, 8] (by decide) fun s hs hlive ↦ ?_
  exact ⟨hlive, (heap_refines hs).1⟩

end MemSys

end Lwip.Core
