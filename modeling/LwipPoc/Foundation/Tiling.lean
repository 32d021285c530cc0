import Mathlib.Algebra.GroupWithZero.Nat
import Mathlib.Data.List.Chain
import Mathlib.Data.List.TakeWhile

/-!
# Tilings of an interval by blocks

An allocator that keeps its blocks back to back divides an interval of addresses into consecutive
blocks, some of them used. This module has the combinatorics of such divisions, over lists of
blocks: **tiling** (consecutive, nonempty, from one end to the other), **the lowest free block**, and
**no two free blocks in a row**. An allocator's edit replaces a few consecutive blocks by others that
tile the same interval, so the lemmas are about `xs ++ mid ++ ys`.
-/

/-- The addresses from `start` up to `stop`, in use or free. -/
structure Block where
  start : ℕ
  stop : ℕ
  used : Bool
  deriving DecidableEq, Repr

namespace Block

variable {a b c d : ℕ} {x y : Block} {xs ys mid mid' : List Block}

/-- The blocks follow each other from `a` to `b`. -/
def Tiles : ℕ → ℕ → List Block → Prop
  | a, b, [] => a = b
  | a, b, x :: xs => x.start = a ∧ x.start < x.stop ∧ Tiles x.stop b xs

@[simp] theorem tiles_nil : Tiles a b [] ↔ a = b := Iff.rfl

theorem tiles_cons :
    Tiles a b (x :: xs) ↔ x.start = a ∧ x.start < x.stop ∧ Tiles x.stop b xs := Iff.rfl

theorem tiles_append : Tiles a c (xs ++ ys) ↔ ∃ b, Tiles a b xs ∧ Tiles b c ys := by
  induction xs generalizing a with
  | nil => simp
  | cons x xs ih => simp [tiles_cons, ih, and_assoc]

/-- A middle piece, and what it tiles. -/
theorem tiles_append_append :
    Tiles a d (xs ++ mid ++ ys) ↔ ∃ b c, Tiles a b xs ∧ Tiles b c mid ∧ Tiles c d ys := by
  rw [tiles_append]
  constructor
  · rintro ⟨c, h, hys⟩
    obtain ⟨b, hxs, hmid⟩ := tiles_append.1 h
    exact ⟨b, c, hxs, hmid, hys⟩
  · rintro ⟨b, c, hxs, hmid, hys⟩
    exact ⟨c, tiles_append.2 ⟨b, hxs, hmid⟩, hys⟩

theorem Tiles.le (h : Tiles a b xs) : a ≤ b := by
  induction xs generalizing a with
  | nil => exact (tiles_nil.1 h).le
  | cons x xs ih =>
    obtain ⟨rfl, hlt, hxs⟩ := h
    have := ih hxs
    omega

theorem Tiles.lt (h : Tiles a b xs) (hne : xs ≠ []) : a < b := by
  cases xs with
  | nil => exact absurd rfl hne
  | cons x xs =>
    obtain ⟨rfl, hlt, hxs⟩ := h
    exact hlt.trans_le hxs.le

/-- Blocks determine the interval they tile. -/
theorem Tiles.unique (h : Tiles a b xs) (h' : Tiles c d xs) (hne : xs ≠ []) : a = c ∧ b = d := by
  induction xs generalizing a c with
  | nil => exact absurd rfl hne
  | cons x xs ih =>
    obtain ⟨rfl, -, hxs⟩ := h
    obtain ⟨rfl, -, hxs'⟩ := h'
    refine ⟨rfl, ?_⟩
    rcases eq_or_ne xs [] with rfl | hxs_ne
    · rw [← tiles_nil.1 hxs, ← tiles_nil.1 hxs']
    · exact (ih hxs hxs' hxs_ne).2

/-- The blocks lie in the interval and are nonempty. -/
theorem Tiles.mem_bounds (h : Tiles a b xs) (hx : x ∈ xs) :
    a ≤ x.start ∧ x.start < x.stop ∧ x.stop ≤ b := by
  induction xs generalizing a with
  | nil => exact absurd hx List.not_mem_nil
  | cons y ys ih =>
    obtain ⟨rfl, hlt, hys⟩ := h
    rcases List.mem_cons.1 hx with rfl | hx
    · exact ⟨le_rfl, hlt, hys.le⟩
    · obtain ⟨h₁, h₂, h₃⟩ := ih hys hx
      exact ⟨by omega, h₂, h₃⟩

/-- Earlier blocks end before later ones begin. -/
theorem Tiles.pairwise (h : Tiles a b xs) : xs.Pairwise fun x y ↦ x.stop ≤ y.start := by
  induction xs generalizing a with
  | nil => exact List.Pairwise.nil
  | cons x xs ih => exact List.pairwise_cons.2 ⟨fun y hy ↦ (h.2.2.mem_bounds hy).1, ih h.2.2⟩

/-- Two blocks of a tiling are the same or apart. -/
theorem Tiles.eq_or_apart (h : Tiles a b xs) (hx : x ∈ xs) (hy : y ∈ xs) :
    x = y ∨ x.stop ≤ y.start ∨ y.stop ≤ x.start := by
  induction xs generalizing a with
  | nil => exact absurd hx List.not_mem_nil
  | cons z zs ih =>
    obtain ⟨-, -, hzs⟩ := h
    rcases List.mem_cons.1 hx with rfl | hx' <;> rcases List.mem_cons.1 hy with rfl | hy'
    · exact Or.inl rfl
    · exact Or.inr (Or.inl (hzs.mem_bounds hy').1)
    · exact Or.inr (Or.inr (hzs.mem_bounds hx').1)
    · exact ih hzs hx' hy'

theorem Tiles.eq_of_start (h : Tiles a b xs) (hx : x ∈ xs) (hy : y ∈ xs)
    (hxy : x.start = y.start) : x = y := by
  have := h.mem_bounds hx
  have := h.mem_bounds hy
  rcases h.eq_or_apart hx hy with heq | hlt | hlt
  · exact heq
  · omega
  · omega

/-- Where a block ends, the next one begins, unless it is the last. -/
theorem Tiles.stop_eq_start (h : Tiles a b xs) (hx : x ∈ xs) :
    x.stop = b ∨ ∃ y ∈ xs, y.start = x.stop := by
  induction xs generalizing a with
  | nil => exact absurd hx List.not_mem_nil
  | cons y ys ih =>
    obtain ⟨-, -, hys⟩ := h
    rcases List.mem_cons.1 hx with rfl | hx
    · cases ys with
      | nil => exact Or.inl hys
      | cons z zs => exact Or.inr ⟨z, by simp, hys.1⟩
    · exact (ih hys hx).imp_right fun ⟨z, hz, heq⟩ ↦ ⟨z, List.mem_cons_of_mem y hz, heq⟩

theorem Tiles.length_le (h : Tiles a b xs) : a + xs.length ≤ b := by
  induction xs generalizing a with
  | nil => exact (tiles_nil.1 h).le
  | cons x xs ih =>
    obtain ⟨rfl, hlt, hxs⟩ := h
    have := ih hxs
    rw [List.length_cons]
    omega

/-- Every point of the interval is in one of the blocks. -/
theorem Tiles.exists_covering (h : Tiles a b xs) {i : ℕ} (ha : a ≤ i) (hb : i < b) :
    ∃ x ∈ xs, x.start ≤ i ∧ i < x.stop := by
  induction xs generalizing a with
  | nil =>
    have := tiles_nil.1 h
    omega
  | cons x xs ih =>
    obtain ⟨rfl, -, hxs⟩ := h
    by_cases hi : i < x.stop
    · exact ⟨x, List.mem_cons_self, ha, hi⟩
    · obtain ⟨y, hy, hcover⟩ := ih hxs (Nat.le_of_not_lt hi)
      exact ⟨y, List.mem_cons_of_mem x hy, hcover⟩

/-- **Used blocks that stay leave no room**: if all blocks below `c` are used and stay, then all blocks
below `c` are used afterwards. -/
theorem Tiles.used_below {c : ℕ} (h : Tiles a b xs) (h' : Tiles a b ys)
    (hused : ∀ x ∈ xs, x.start < c → x.used = true) (hkept : ∀ x ∈ xs, x.start < c → x ∈ ys) :
    ∀ y ∈ ys, y.start < c → y.used = true := by
  intro y hy hlt
  obtain ⟨hay, hlt', hyb⟩ := h'.mem_bounds hy
  obtain ⟨x, hx, hle, hcover⟩ := h.exists_covering hay (hlt'.trans_le hyb)
  have hxc : x.start < c := hle.trans_lt hlt
  rcases h'.eq_or_apart (hkept x hx hxc) hy with rfl | happart | happart
  · exact hused x hx hxc
  · omega
  · omega

/-- Where the blocks start, or `e` if there are none. -/
def startOf (e : ℕ) : List Block → ℕ
  | [] => e
  | x :: _ => x.start

theorem Tiles.startOf_eq (h : Tiles a b xs) : startOf b xs = a := by
  cases xs with
  | nil => exact (tiles_nil.1 h).symm
  | cons x xs => exact h.1

/-! ### The lowest free block -/

/-- `o` is the start of the lowest free block, or `e` if there is none. -/
def LowestFree (e : ℕ) (xs : List Block) (o : ℕ) : Prop :=
  (∀ x ∈ xs, x.used = false → o ≤ x.start) ∧ (o = e ∨ ∃ x ∈ xs, x.used = false ∧ x.start = o)

/-- A used block with none but used blocks below it is below the lowest free one. -/
theorem LowestFree.lt_of_used {e o : ℕ} (h : LowestFree e xs o) (ht : Tiles a e xs) (hx : x ∈ xs)
    (hu : x.used = true) (hbelow : ∀ y ∈ xs, y.start < x.start → y.used = true) : x.start < o := by
  have hbounds := ht.mem_bounds hx
  rcases h.2 with rfl | ⟨y, hy, hfree, rfl⟩
  · omega
  · by_contra hle
    rcases (Nat.le_of_not_lt hle).lt_or_eq with hlt | heq
    · exact absurd (hbelow y hy hlt) (by simp [hfree])
    · rw [ht.eq_of_start hy hx heq, hu] at hfree
      cases hfree

/-- The blocks from the lowest free one on; those before it are used. -/
theorem LowestFree.split {e o : ℕ} (h : LowestFree e xs o) (ht : Tiles a e xs) :
    ∃ us vs, xs = us ++ vs ∧ startOf e vs = o ∧ ∀ x ∈ us, x.used = true := by
  rcases h.2 with rfl | ⟨x, hx, -, rfl⟩
  · refine ⟨xs, [], by simp, rfl, fun x hx ↦ ?_⟩
    by_contra hfree
    have := h.1 x hx (Bool.eq_false_iff.2 hfree)
    have := ht.mem_bounds hx
    omega
  · obtain ⟨us, vs, rfl⟩ := List.append_of_mem hx
    refine ⟨us, x :: vs, rfl, rfl, fun y hy ↦ ?_⟩
    by_contra hfree
    have hle := h.1 y (List.mem_append_left _ hy) (Bool.eq_false_iff.2 hfree)
    have := (List.pairwise_append.1 ht.pairwise).2.2 y hy x List.mem_cons_self
    have := ht.mem_bounds (List.mem_append_left _ hy)
    omega

/-- Past used blocks, the lowest free block is the first free one. -/
theorem lowestFree_dropWhile {e : ℕ} (ht : Tiles a e (xs ++ ys)) (hxs : ∀ x ∈ xs, x.used = true) :
    LowestFree e (xs ++ ys) (startOf e (ys.dropWhile Block.used)) := by
  have hsplit : ys = ys.takeWhile Block.used ++ ys.dropWhile Block.used :=
    List.takeWhile_append_dropWhile.symm
  have hused : ∀ x ∈ xs ++ ys.takeWhile Block.used, x.used = true := fun x hx ↦
    (List.mem_append.1 hx).elim (hxs x) List.mem_takeWhile_imp
  rw [hsplit, ← List.append_assoc] at ht ⊢
  rw [← hsplit]
  cases hdrop : ys.dropWhile Block.used with
  | nil =>
    refine ⟨fun x hx hfree ↦ ?_, Or.inl rfl⟩
    rw [List.append_nil] at hx
    exact absurd (hused x hx) (by simp [hfree])
  | cons z zs =>
    have hz : z.used = false := by
      have hhead := List.head?_dropWhile_not Block.used ys
      rw [hdrop] at hhead
      simpa using hhead
    rw [hdrop] at ht
    refine ⟨fun x hx hfree ↦ ?_, Or.inr ⟨z, by simp, hz, rfl⟩⟩
    rcases List.mem_append.1 hx with hx | hx
    · exact absurd (hused x hx) (by simp [hfree])
    · rcases List.mem_cons.1 hx with rfl | hx
      · exact le_rfl
      · have hpair := (List.pairwise_append.1 ht.pairwise).2.1
        have := (List.pairwise_cons.1 hpair).1 x hx
        have := ht.mem_bounds (List.mem_append_right _ (List.mem_cons_self (a := z) (l := zs)))
        show z.start ≤ x.start
        omega

/-- Merging a free block with the next one keeps the lowest free block. -/
theorem LowestFree.merge {e o : ℕ} (h : LowestFree e (xs ++ [x, y] ++ ys) o)
    (hxy : x.start < y.start) (hfree : x.used = false) :
    LowestFree e (xs ++ [⟨x.start, y.stop, false⟩] ++ ys) o ∧ o ≠ y.start := by
  have hle : o ≤ x.start := h.1 x (by simp) hfree
  refine ⟨⟨fun z hz hz' ↦ ?_, ?_⟩, by omega⟩
  · simp only [List.append_assoc, List.mem_append, List.mem_cons, List.not_mem_nil, or_false] at hz
    rcases hz with hz | rfl | hz
    · exact h.1 z (by simp [hz]) hz'
    · exact hle
    · exact h.1 z (by simp [hz]) hz'
  · refine h.2.imp_right fun ⟨z, hz, hz', hzo⟩ ↦ ?_
    simp only [List.append_assoc, List.mem_append, List.mem_cons, List.not_mem_nil, or_false] at hz
    rcases hz with hz | (rfl | rfl) | hz
    · exact ⟨z, by simp [hz], hz', hzo⟩
    · exact ⟨⟨z.start, y.stop, false⟩, by simp, rfl, hzo⟩
    · omega
    · exact ⟨z, by simp [hz], hz', hzo⟩

/-! ### No two free blocks in a row -/

/-- No two blocks in a row are free. -/
def NoAdjacentFree (xs : List Block) : Prop :=
  xs.IsChain fun x y ↦ x.used = true ∨ y.used = true

theorem noAdjacentFree_append : NoAdjacentFree (xs ++ ys) ↔ NoAdjacentFree xs ∧
    NoAdjacentFree ys ∧ ∀ x ∈ xs.getLast?, ∀ y ∈ ys.head?, x.used = true ∨ y.used = true :=
  List.isChain_append

/-- A block between used ones. -/
theorem noAdjacentFree_between (hxs : NoAdjacentFree xs) (hys : NoAdjacentFree ys)
    (hlast : ∀ z ∈ xs.getLast?, z.used = true) (hhead : ∀ z ∈ ys.head?, z.used = true) :
    NoAdjacentFree (xs ++ [x] ++ ys) := by
  refine noAdjacentFree_append.2 ⟨noAdjacentFree_append.2 ⟨hxs, List.isChain_singleton x, ?_⟩, hys, ?_⟩
  · exact fun z hz _ _ ↦ Or.inl (hlast z hz)
  · exact fun _ _ z hz ↦ Or.inr (hhead z hz)

/-- If no two blocks in a row are free and all blocks are free, then there is at most one. -/
theorem NoAdjacentFree.length_le_one (h : NoAdjacentFree xs) (hxs : ∀ x ∈ xs, x.used = false) :
    xs.length ≤ 1 := by
  match xs with
  | [] => exact Nat.zero_le _
  | [_] => exact le_rfl
  | x :: y :: ys =>
    have hxy := (List.isChain_cons_cons.1 h).1
    simp [hxs x, hxs y] at hxy

/-! ### The space in use -/

/-- The size of the used blocks. -/
def usedSize (xs : List Block) : ℕ := ((xs.filter used).map fun x ↦ x.stop - x.start).sum

theorem Tiles.nodup (h : Tiles a b xs) : xs.Nodup := by
  refine h.pairwise.imp_of_mem fun {x y} hx _ hle heq ↦ ?_
  have := (h.mem_bounds hx).2.1
  rw [← heq] at hle
  omega

theorem Tiles.usedSize_le (h : Tiles a b xs) : a + usedSize xs ≤ b := by
  induction xs generalizing a with
  | nil => exact (tiles_nil.1 h).le
  | cons x xs ih =>
    obtain ⟨rfl, hlt, hxs⟩ := h
    have hle := ih hxs
    rw [usedSize] at hle ⊢
    cases hu : x.used
    · rw [List.filter_cons_of_neg (by simp [hu])]
      omega
    · rw [List.filter_cons_of_pos hu, List.map_cons, List.sum_cons]
      omega

/-- **One more used block.** -/
theorem usedSize_insert (hxs : xs.Nodup) (hys : ys.Nodup) (hx : x ∉ xs) (hu : x.used = true)
    (hmem : ∀ z, z.used = true → (z ∈ ys ↔ z ∈ xs ∨ z = x)) : usedSize ys = usedSize xs + (x.stop - x.start) := by
  have hnodup : (x :: xs.filter used).Nodup :=
    List.nodup_cons.2 ⟨fun h ↦ hx (List.mem_filter.1 h).1, hxs.filter _⟩
  have hperm : (ys.filter used).Perm (x :: xs.filter used) := by
    refine (List.perm_ext_iff_of_nodup (hys.filter _) hnodup).2 fun z ↦ ?_
    rw [List.mem_filter, List.mem_cons, List.mem_filter]
    constructor
    · rintro ⟨hz, hzu⟩
      exact ((hmem z hzu).1 hz).symm.imp_right fun hz' ↦ ⟨hz', hzu⟩
    · rintro (rfl | ⟨hz, hzu⟩)
      · exact ⟨(hmem _ hu).2 (Or.inr rfl), hu⟩
      · exact ⟨(hmem z hzu).2 (Or.inl hz), hzu⟩
  rw [usedSize, (hperm.map _).sum_nat, List.map_cons, List.sum_cons, Nat.add_comm]
  rfl

/-- **Another used block at the place of one.** -/
theorem usedSize_replace (hxs : xs.Nodup) (hys : ys.Nodup) (hx : x ∈ xs) (hu : x.used = true) (hy : y.used = true)
    (hne : y ∈ xs → y = x) (hmem : ∀ z, z.used = true → (z ∈ ys ↔ z ∈ xs ∧ z ≠ x ∨ z = y)) :
    usedSize ys + (x.stop - x.start) = usedSize xs + (y.stop - y.start) := by
  have herase : ∀ z, z ∈ xs.erase x ↔ z ∈ xs ∧ z ≠ x := fun z ↦ by rw [hxs.mem_erase_iff, and_comm]
  have hold : usedSize xs = usedSize (xs.erase x) + (x.stop - x.start) := by
    refine usedSize_insert (hxs.erase _) hxs (fun h ↦ ((herase x).1 h).2 rfl) hu fun z _ ↦ ?_
    rw [herase z]
    constructor
    · exact fun hz ↦ (eq_or_ne z x).symm.imp_left fun h ↦ ⟨hz, h⟩
    · rintro (⟨hz, -⟩ | rfl)
      · exact hz
      · exact hx
  have hnew : usedSize ys = usedSize (xs.erase x) + (y.stop - y.start) := by
    refine usedSize_insert (hxs.erase _) hys (fun h ↦ ?_) hy fun z hz ↦ by rw [hmem z hz, herase z]
    obtain ⟨hmem', hne'⟩ := (herase y).1 h
    exact hne' (hne hmem')
  omega

end Block
