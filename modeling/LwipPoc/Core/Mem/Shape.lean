import LwipPoc.Core.Mem.Heap
import LwipPoc.Foundation.Tiling

/-!
# The shape of the heap

What the bytes of the heap say: `Shape h bs` holds when the headers, followed from offset 0, describe
the list of blocks `bs`, which tile the heap up to its end marker. Everything `mem.c` does to the
heap is one of two edits of this list — **merging** two blocks, and **putting a header** in the middle
of one or two of them — or a change of a `used` flag. Both edits replace a few consecutive blocks by
others that tile the same interval and touch no header outside of it but the next block's, and
`Shape.replace` is about any such edit.

The order of the free blocks is no matter of the shape; see `Inv` in `Operations`.
-/

namespace Lwip.Core

namespace MemHeap

open Block (Tiles tiles_cons tiles_append tiles_append_append)

variable {h h' : MemHeap} {bs xs ys mid mid' : List Block} {b b' : Block} {os : Set ℕ}
  {p q c e : ℕ}

/-- The header of the block is where and as it should be, and the block is large enough. -/
structure BlockAt (h : MemHeap) (b : Block) : Prop where
  room : b.start + sizeofStructMem + minSizeAligned ≤ b.stop
  aligned : b.start % memAlignment = 0
  next : (h.header b.start).next = b.stop
  used : (h.header b.start).used = if b.used = true then 1 else 0

/-- The headers of the blocks, each pointing back to the one before it, the first one to `p`. -/
def Linked (h : MemHeap) : ℕ → List Block → Prop
  | _, [] => True
  | p, b :: bs => h.BlockAt b ∧ (h.header b.start).prev = p ∧ Linked h b.start bs

/-- **The shape of the heap.** -/
structure Shape (h : MemHeap) (bs : List Block) : Prop where
  tiles : Tiles 0 memSizeAligned bs
  linked : h.Linked 0 bs
  end_used : (h.header memSizeAligned).used ≠ 0

/-! ### Blocks and their headers -/

/-- The start of the last block, or `p`. -/
def lastStart : ℕ → List Block → ℕ
  | p, [] => p
  | _, b :: bs => lastStart b.start bs

theorem linked_append : h.Linked p (xs ++ ys) ↔ h.Linked p xs ∧ h.Linked (lastStart p xs) ys := by
  induction xs generalizing p with
  | nil => exact (and_iff_right trivial).symm
  | cons x xs ih => simp [Linked, lastStart, ih, and_assoc]

theorem lastStart_append : lastStart p (xs ++ ys) = lastStart (lastStart p xs) ys := by
  induction xs generalizing p with
  | nil => rfl
  | cons x xs ih => exact ih

theorem lastStart_of_ne_nil (hne : xs ≠ []) : lastStart p xs = lastStart q xs := by
  cases xs with
  | nil => exact absurd rfl hne
  | cons x xs => rfl

theorem Linked.blockAt (hl : h.Linked p bs) (hb : b ∈ bs) : h.BlockAt b := by
  induction bs generalizing p with
  | nil => exact absurd hb List.not_mem_nil
  | cons x xs ih =>
    rcases List.mem_cons.1 hb with rfl | hb
    · exact hl.1
    · exact ih hl.2.2 hb

theorem Shape.blockAt (hs : h.Shape bs) (hb : b ∈ bs) : h.BlockAt b := hs.linked.blockAt hb

/-- A block is read from its header alone. -/
theorem BlockAt.of_header_eq (hb : h.BlockAt b) (heq : h'.header b.start = h.header b.start) :
    h'.BlockAt b :=
  ⟨hb.room, hb.aligned, heq ▸ hb.next, heq ▸ hb.used⟩

theorem Linked.of_header_eq (hl : h.Linked p bs)
    (heq : ∀ b ∈ bs, h'.header b.start = h.header b.start) : h'.Linked p bs := by
  induction bs generalizing p with
  | nil => trivial
  | cons x xs ih =>
    have hx := heq x List.mem_cons_self
    exact ⟨hl.1.of_header_eq hx, hx ▸ hl.2.1, ih hl.2.2 fun b hb ↦ heq b (List.mem_cons_of_mem x hb)⟩

theorem Shape.of_header_eq (hs : h.Shape bs) (heq : ∀ o, h'.header o = h.header o) :
    h'.Shape bs :=
  ⟨hs.tiles, hs.linked.of_header_eq fun b _ ↦ heq b.start, heq memSizeAligned ▸ hs.end_used⟩

theorem Shape.stop_le (hs : h.Shape bs) (hb : b ∈ bs) : b.stop ≤ memSizeAligned :=
  (hs.tiles.mem_bounds hb).2.2

/-- Different blocks have their headers apart. -/
theorem Shape.apart (hs : h.Shape bs) (hb : b ∈ bs) (hb' : b' ∈ bs) (hne : b.start ≠ b'.start) :
    Apart b.start b'.start := by
  have := (hs.blockAt hb).room
  have := (hs.blockAt hb').room
  rcases hs.tiles.eq_or_apart hb hb' with rfl | hlt | hlt
  · exact absurd rfl hne
  · exact Or.inl (by omega)
  · exact Or.inr (by omega)

/-! ### Replacing blocks -/

/-- **An edit of the heap**: the blocks `mid`, from `b` to `c`, become `mid'`. It touches headers
within `mid`'s interval, and possibly the next header, whose `prev` then is the last of `mid'`. -/
theorem Shape.replace (hs : h.Shape (xs ++ mid ++ ys)) (hmid : Tiles p c mid) (hne : mid ≠ [])
    (hmid' : Tiles p c mid') (htouch : Touches os h h')
    (hos : ∀ o ∈ os, p ≤ o ∧ o + sizeofStructMem ≤ c ∨ o = c)
    (hlinked : ∀ q, (h.header p).prev = q → h'.Linked q mid')
    (hnext : (h'.header c).next = (h.header c).next) (hused : (h'.header c).used = (h.header c).used)
    (hprev : c ≠ memSizeAligned → (h'.header c).prev = lastStart p mid') :
    h'.Shape (xs ++ mid' ++ ys) := by
  obtain ⟨p', c', hxs, hm, hys⟩ := tiles_append_append.1 hs.tiles
  obtain ⟨rfl, rfl⟩ := hm.unique hmid hne
  have hne' : mid' ≠ [] := by
    rintro rfl
    exact absurd (hmid.lt hne) (by simp [Block.tiles_nil.1 hmid'])
  obtain ⟨hl, hly⟩ := linked_append.1 hs.linked
  obtain ⟨hlx, hlm⟩ := linked_append.1 hl
  have hpc := hmid.le
  have hsizes := mem_sizes
  -- the headers in front of the edit and behind the next one are untouched
  have hbefore : ∀ x ∈ xs, h'.header x.start = h.header x.start := fun x hx ↦ by
    refine htouch.header_eq fun o ho ↦ Or.inl ?_
    have := (hxs.mem_bounds hx).2.2
    have := (hlx.blockAt hx).room
    have := hos o ho
    omega
  have hbehind : ∀ a, c' + sizeofStructMem + minSizeAligned ≤ a → h'.header a = h.header a :=
    fun a ha ↦ by
      refine htouch.header_eq fun o ho ↦ Or.inr ?_
      have := hos o ho
      omega
  have hprev_p : (h.header p').prev = lastStart 0 xs := by
    cases mid with
    | nil => exact absurd rfl hne
    | cons m ms =>
      obtain ⟨rfl, -⟩ := hmid
      exact hlm.2.1
  refine ⟨tiles_append_append.2 ⟨p', c', hxs, hmid', hys⟩, ?_, ?_⟩
  · refine linked_append.2 ⟨linked_append.2 ⟨hlx.of_header_eq hbefore, hlinked _ hprev_p⟩, ?_⟩
    rw [lastStart_append, lastStart_of_ne_nil hne']
    cases ys with
    | nil => trivial
    | cons y ys =>
      obtain ⟨rfl, -, hys⟩ := hys
      have hy := hly.1
      have hend : y.start ≠ memSizeAligned := by
        have := hys.le
        have := hy.room
        omega
      refine ⟨⟨hy.room, hy.aligned, hnext.trans hy.next, hused.trans hy.used⟩, hprev hend,
        hly.2.2.of_header_eq fun z hz ↦ hbehind _ ?_⟩
      have := (hys.mem_bounds hz).1
      have := hy.room
      omega
  · cases ys with
    | nil =>
      obtain rfl := Block.tiles_nil.1 hys
      rw [hused]
      exact hs.end_used
    | cons y ys =>
      obtain ⟨rfl, -, hys⟩ := hys
      have := hys.le
      have := hly.1.room
      rw [hbehind _ (by omega)]
      exact hs.end_used

/-- The block behind `mid` points back to the last block of `mid`. -/
theorem Shape.prev_eq (hs : h.Shape (xs ++ mid ++ ys)) (hmid : Tiles p c mid) (hne : mid ≠ [])
    (hc : c ≠ memSizeAligned) : (h.header c).prev = lastStart p mid := by
  obtain ⟨p', c', -, hm, hys⟩ := tiles_append_append.1 hs.tiles
  obtain ⟨rfl, rfl⟩ := hm.unique hmid hne
  cases ys with
  | nil => exact absurd (Block.tiles_nil.1 hys) hc
  | cons y ys =>
    obtain ⟨-, hly⟩ := linked_append.1 hs.linked
    obtain ⟨rfl, -⟩ := hys
    rw [hly.2.1, lastStart_append, lastStart_of_ne_nil hne]

/-- Offsets in the heap fit a `mem_size_t`. -/
theorem mod_eq_of_le (hle : e ≤ memSizeAligned) : e % 65536 = e := by
  have := mem_sizes
  omega

/-- **A change of a `used` flag.** -/
theorem Shape.setUsed (hs : h.Shape (xs ++ [b] ++ ys)) (u : Bool) :
    (h.setUsed b.start (if u = true then 1 else 0)).Shape (xs ++ [{ b with used := u }] ++ ys) := by
  have hb : b ∈ xs ++ [b] ++ ys := by simp
  have hat := hs.blockAt hb
  have hsizes := mem_sizes
  have hroom := hat.room
  have htiles : Tiles b.start b.stop [b] := ⟨rfl, by omega, rfl⟩
  have hstop : (h.setUsed b.start (if u = true then 1 else 0)).header b.stop = h.header b.stop :=
    header_setUsed_of_apart (Or.inr (by omega))
  refine hs.replace htiles (List.cons_ne_nil _ _) 
    (⟨rfl, htiles.2.1, rfl⟩ : Tiles b.start b.stop [{ b with used := u }]) touches_setUsed
    (fun o ho ↦ Or.inl ?_) (fun q hq ↦ ⟨⟨hroom, hat.aligned, ?_, ?_⟩, ?_, trivial⟩) (by rw [hstop]) (by rw [hstop]) fun hc ↦ ?_
  · rw [Set.mem_singleton_iff.1 ho]
    omega
  · rw [header_setUsed_self]
    exact hat.next
  · rw [header_setUsed_self]
    cases u <;> rfl
  · rw [header_setUsed_self]
    exact hq
  · rw [hstop]
    exact hs.prev_eq htiles (List.cons_ne_nil _ _) hc

/-- **Merging two blocks**: the first takes over the second. -/
theorem Shape.merge {a : Block} (hs : h.Shape (xs ++ [a, b] ++ ys)) :
    ((h.setNext a.start b.stop).setPrev b.stop a.start).Shape
      (xs ++ [⟨a.start, b.stop, a.used⟩] ++ ys) := by
  have ha := hs.blockAt (b := a) (by simp)
  have hb := hs.blockAt (b := b) (by simp)
  have hle := hs.stop_le (b := b) (by simp)
  have hsizes := mem_sizes
  have hra := ha.room
  have hrb := hb.room
  have hab : a.stop = b.start := by
    obtain ⟨_, _, -, hm, -⟩ := tiles_append_append.1 hs.tiles
    exact hm.2.2.1.symm
  have hapart : Apart a.start b.stop := Or.inl (by omega)
  have hstart : ((h.setNext a.start b.stop).setPrev b.stop a.start).header a.start =
      { h.header a.start with next := b.stop } := by
    rw [header_setPrev_of_apart hapart, header_setNext_self, mod_eq_of_le hle]
  have hstop : ((h.setNext a.start b.stop).setPrev b.stop a.start).header b.stop =
      { h.header b.stop with prev := a.start } := by
    rw [header_setPrev_self, header_setNext_of_apart (apart_comm.1 hapart),
      mod_eq_of_le (by omega)]
  refine hs.replace (⟨rfl, by omega, hab.symm, by omega, rfl⟩ : Tiles a.start b.stop [a, b])
    (List.cons_ne_nil _ _) ⟨rfl, show a.start < b.stop by omega, rfl⟩
    (touches_setNext.trans touches_setPrev) (fun o ho ↦ ?_)
    (fun q hq ↦ ⟨⟨show a.start + _ + _ ≤ b.stop by omega, ha.aligned, ?_, ?_⟩, ?_, trivial⟩)
    (by rw [hstop]) (by rw [hstop]) fun hc ↦ ?_
  · rcases ho with rfl | rfl
    · exact Or.inl ⟨le_rfl, by omega⟩
    · exact Or.inr rfl
  · rw [hstart]
  · rw [hstart]
    exact ha.used
  · rw [hstart]
    exact hq
  · rw [hstop]
    rfl

/-- Relinking touches the next header's `prev` only, and not the end marker. -/
theorem relink_touches (he : (h.header e).next = c) : Touches {c} h (h.relink e) := by
  rw [relink, he]
  split_ifs
  · exact touches_setPrev
  · exact ByteMem.SameExcept.refl _ _

theorem header_relink (he : (h.header e).next = c) (hle : e ≤ memSizeAligned) :
    (h.relink e).header c =
      if c = memSizeAligned then h.header c else { h.header c with prev := e } := by
  rw [relink, he]
  by_cases hc : c = memSizeAligned
  · rw [if_neg (not_not.2 hc), if_pos hc]
  · rw [if_pos hc, if_neg hc, header_setPrev_self, mod_eq_of_le hle]

/-- **Putting a header**: once the block at `p` ends at `e` and a free block from `e` to the end `c` of
the blocks edited points back to it, relinking the next block completes the edit. -/
theorem Shape.putHeader {u : Bool} (hs : h.Shape (xs ++ mid ++ ys)) (hmid : Tiles p c mid)
    (hne : mid ≠ []) (hpe : p + sizeofStructMem + minSizeAligned ≤ e)
    (hec : e + sizeofStructMem + minSizeAligned ≤ c) (hp : p % memAlignment = 0)
    (he : e % memAlignment = 0) (htouch : Touches {p, e} h h')
    (hheader_p : h'.header p = ⟨e, (h.header p).prev, if u = true then 1 else 0⟩)
    (hheader_e : h'.header e = ⟨c, p, 0⟩) :
    (h'.relink e).Shape (xs ++ [⟨p, e, u⟩, ⟨e, c, false⟩] ++ ys) := by
  obtain ⟨_, _, -, hm, hys⟩ := tiles_append_append.1 hs.tiles
  obtain ⟨rfl, rfl⟩ := hm.unique hmid hne
  rename_i p c
  have hcle := hys.le
  have hsizes := mem_sizes
  have hnext : (h'.header e).next = c := by rw [hheader_e]
  have hrelink := relink_touches hnext
  have hapart_p : Apart p c := Or.inl (by omega)
  have hapart_e : Apart e c := Or.inl (by omega)
  have hp' : (h'.relink e).header p = h'.header p :=
    hrelink.header_eq fun o ho ↦ Set.mem_singleton_iff.1 ho ▸ hapart_p
  have he' : (h'.relink e).header e = h'.header e :=
    hrelink.header_eq fun o ho ↦ Set.mem_singleton_iff.1 ho ▸ hapart_e
  have hc' : h'.header c = h.header c := by
    refine htouch.header_eq fun o ho ↦ ?_
    rcases ho with rfl | rfl
    · exact apart_comm.1 hapart_p
    · exact apart_comm.1 hapart_e
  have hheader_c := header_relink hnext (by omega)
  refine hs.replace hmid hne
    (⟨rfl, show p < e by omega, rfl, show e < c by omega, rfl⟩ :
      Tiles p c [⟨p, e, u⟩, ⟨e, c, false⟩])
    (htouch.trans hrelink) (fun o ho ↦ ?_) (fun q hq ↦ ?_) ?_ ?_ fun hc ↦ ?_
  · rcases ho with (rfl | rfl) | rfl
    · exact Or.inl ⟨le_rfl, by omega⟩
    · exact Or.inl ⟨by omega, by omega⟩
    · exact Or.inr rfl
  · refine ⟨⟨hpe, hp, ?_, ?_⟩, ?_, ⟨hec, he, ?_, ?_⟩, ?_, trivial⟩
    · rw [hp', hheader_p]
    · rw [hp', hheader_p]
    · rw [hp', hheader_p]
      exact hq
    · rw [he', hheader_e]
    · rw [he', hheader_e]
      rfl
    · rw [he', hheader_e]
  · rw [hheader_c]
    split_ifs <;> rw [hc']
  · rw [hheader_c]
    split_ifs <;> rw [hc']
  · rw [hheader_c, if_neg hc]
    rfl

end MemHeap

end Lwip.Core
