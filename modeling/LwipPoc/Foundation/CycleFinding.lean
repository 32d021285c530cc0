import Mathlib.Data.Fintype.Pigeonhole

/-!
# Finding a cycle with two pointers

Cells link to one another by `next`, `none` being the null pointer. From a pointer, `walk` follows the links. A slow
pointer goes one link at a time and a fast one two; the fast one starts one link ahead (`race`).

* Where the walk ends, the pointers are never at the same cell, since no cell comes twice (`Ends.walk_injective`).
* Where it does not end, it comes round among finitely many cells, and the distance between the pointers grows by one
  link at a time until it is a multiple of the way round (`exists_meet`).

So as many steps as there are cells are enough (`race_eq`).
-/

namespace Lwip

variable {α : Type*} {next : α → Option α} {p : Option α} {a : α} {i j m n : ℕ}

/-- The pointer after `n` links. -/
def walk (next : α → Option α) : ℕ → Option α → Option α
  | 0, p => p
  | n + 1, p => walk next n (p.bind next)

@[simp] theorem walk_zero (p : Option α) : walk next 0 p = p := rfl

theorem walk_succ (n : ℕ) (p : Option α) : walk next (n + 1) p = walk next n (p.bind next) := rfl

@[simp] theorem walk_none (n : ℕ) : walk next n none = none := by
  induction n with
  | zero => rfl
  | succ n ih => exact ih

theorem walk_add (m n : ℕ) (p : Option α) : walk next (m + n) p = walk next n (walk next m p) := by
  induction m generalizing p with
  | zero => rw [Nat.zero_add, walk_zero]
  | succ m ih => rw [Nat.succ_add, walk_succ, walk_succ, ih]

theorem walk_succ' (n : ℕ) (p : Option α) : walk next (n + 1) p = (walk next n p).bind next := by
  rw [walk_add]
  rfl

/-- Behind the end there is nothing. -/
theorem walk_mono (h : walk next m p = none) (hmn : m ≤ n) : walk next n p = none := by
  obtain ⟨k, rfl⟩ := Nat.exists_eq_add_of_le hmn
  rw [walk_add, h, walk_none]

/-- The walk ends with the null pointer. -/
def Ends (next : α → Option α) (p : Option α) : Prop := ∃ n, walk next n p = none

/-- **There is a cycle** on the way: a cell from which some links lead back to it. -/
def Cyclic (next : α → Option α) (p : Option α) : Prop :=
  ∃ i a d, walk next i p = some a ∧ 0 < d ∧ walk next d (some a) = some a

/-! ### Coming round -/

/-- From where a cell comes again, it comes again and again. -/
theorem walk_round {d : ℕ} (h : walk next (i + d) p = walk next i p) (him : i ≤ m) (k : ℕ) :
    walk next (m + d * k) p = walk next m p := by
  obtain ⟨j, rfl⟩ := Nat.exists_eq_add_of_le him
  have honce : walk next (i + j + d) p = walk next (i + j) p := by
    rw [Nat.add_right_comm, walk_add, h, ← walk_add]
  induction k with
  | zero => rw [Nat.mul_zero, Nat.add_zero]
  | succ k ih =>
    rw [Nat.mul_succ, ← Nat.add_assoc, Nat.add_right_comm, walk_add (i + j + d), honce, ← walk_add, ih]

/-- **No cell comes twice** on a walk that ends. -/
theorem Ends.walk_injective (h : Ends next p) (hi : walk next i p = some a) (hj : walk next j p = some a) : i = j := by
  have hle : ∀ i j, walk next i p = some a → walk next j p = some a → i ≤ j → i = j := by
    intro i j hi hj hij
    obtain ⟨d, rfl⟩ := Nat.exists_eq_add_of_le hij
    obtain ⟨n, hn⟩ := h
    by_contra hne
    have hround := walk_round (hj.trans hi.symm) le_rfl n
    have hfar : n ≤ i + d * n := (Nat.le_mul_of_pos_left n (by omega)).trans (Nat.le_add_left _ _)
    rw [walk_mono hn hfar, hi] at hround
    cases hround
  rcases le_total i j with hij | hij
  · exact hle i j hi hj hij
  · exact (hle j i hj hi hij).symm

/-- A cycle is a cell that comes twice. -/
theorem cyclic_iff : Cyclic next p ↔ ∃ i d a, 0 < d ∧ walk next i p = some a ∧ walk next (i + d) p = some a := by
  constructor
  · rintro ⟨i, a, d, hi, hd, hround⟩
    exact ⟨i, d, a, hd, hi, by rw [walk_add, hi, hround]⟩
  · rintro ⟨i, d, a, hd, hi, hround⟩
    refine ⟨i, a, d, hi, hd, ?_⟩
    rwa [walk_add, hi] at hround

theorem Cyclic.not_ends (h : Cyclic next p) : ¬Ends next p := by
  intro hends
  obtain ⟨i, d, a, hd, hi, hround⟩ := cyclic_iff.1 h
  have hsame := hends.walk_injective hi hround
  omega

/-- **Among finitely many cells** a walk is at an end, or at a cell for the second time, after so many links. -/
theorem exists_round [Fintype α] (h : walk next (Fintype.card α) p ≠ none) :
    ∃ i d a, 0 < d ∧ i + d ≤ Fintype.card α ∧ walk next i p = some a ∧ walk next (i + d) p = some a := by
  have hsome : ∀ k : Fin (Fintype.card α + 1), ∃ a, walk next k p = some a := by
    intro k
    refine Option.ne_none_iff_exists'.1 fun hk ↦ h (walk_mono hk (Nat.le_of_lt_succ k.isLt))
  choose cell hcell using hsome
  obtain ⟨x, y, hxy, hsame⟩ := Fintype.exists_ne_map_eq_of_card_lt cell (by rw [Fintype.card_fin]; exact Nat.lt_succ_self _)
  have hle : ∀ x y : Fin (Fintype.card α + 1), x < y → cell x = cell y →
      ∃ i d a, 0 < d ∧ i + d ≤ Fintype.card α ∧ walk next i p = some a ∧ walk next (i + d) p = some a := by
    intro x y hlt hsame
    have hlt' : (x : ℕ) < y := hlt
    refine ⟨x, y - x, cell x, by omega, by omega, hcell x, ?_⟩
    rw [Nat.add_sub_cancel' hlt'.le, hsame]
    exact hcell y
  rcases lt_or_gt_of_ne hxy with hlt | hlt
  · exact hle x y hlt hsame
  · exact hle y x hlt hsame.symm

theorem Ends.walk_card [Fintype α] (h : Ends next p) : walk next (Fintype.card α) p = none := by
  by_contra hne
  obtain ⟨i, d, a, hd, -, hi, hround⟩ := exists_round hne
  have hsame := h.walk_injective hi hround
  omega

theorem ends_or_cyclic [Fintype α] (next : α → Option α) (p : Option α) : Ends next p ∨ Cyclic next p := by
  by_cases hend : walk next (Fintype.card α) p = none
  · exact .inl ⟨_, hend⟩
  · obtain ⟨i, d, a, hd, -, hi, hround⟩ := exists_round hend
    exact .inr (cyclic_iff.2 ⟨i, d, a, hd, hi, hround⟩)

/-- Where finitely many cells are met, the walk ends or comes round. -/
theorem ends_or_cyclic_of_finite {S : Set α} (hS : S.Finite) (h : ∀ n a, walk next n p = some a → a ∈ S) :
    Ends next p ∨ Cyclic next p := by
  by_cases hend : Ends next p
  · exact .inl hend
  have hsome : ∀ n, ∃ a, walk next n p = some a := fun n ↦ Option.ne_none_iff_exists'.1 fun hn ↦ hend ⟨n, hn⟩
  choose cell hcell using hsome
  have : Finite S := hS
  obtain ⟨x, y, hne, hsame⟩ := Finite.exists_ne_map_eq_of_infinite fun n ↦ (⟨cell n, h n _ (hcell n)⟩ : S)
  have hcell' : cell x = cell y := congrArg Subtype.val hsame
  refine .inr (cyclic_iff.2 ?_)
  rcases lt_or_gt_of_ne hne with hlt | hlt
  · exact ⟨x, y - x, cell x, by omega, hcell x, by rw [Nat.add_sub_cancel' hlt.le, hcell y, hcell']⟩
  · exact ⟨y, x - y, cell y, by omega, hcell y, by rw [Nat.add_sub_cancel' hlt.le, hcell x, hcell']⟩

/-! ### The two pointers -/

/-- The slow pointer and the fast one: whether they meet, or nothing if `fuel` steps were not enough. -/
def race [DecidableEq α] (next : α → Option α) : ℕ → Option α → Option α → Option Bool
  | 0, _, _ => none
  | fuel + 1, t, h =>
    match t, h with
    | some a, some b => if a = b then some true else race next fuel (next a) ((next b).bind next)
    | _, _ => some false

/-- After `k` steps the slow pointer has gone `k` links, and the fast one is one link further than twice as many. -/
theorem race_walk [DecidableEq α] (fuel k : ℕ) {t h : α} (ht : walk next k p = some t)
    (hh : walk next (2 * k + 1) p = some h) (hne : t ≠ h) :
    race next (fuel + 1) (walk next k p) (walk next (2 * k + 1) p) =
      race next fuel (walk next (k + 1) p) (walk next (2 * (k + 1) + 1) p) := by
  have hfast : walk next (2 * (k + 1) + 1) p = ((walk next (2 * k + 1) p).bind next).bind next := by
    rw [← walk_succ', ← walk_succ']
    congr 1
  rw [walk_succ' k, hfast, ht, hh, race, if_neg hne]
  rfl

/-- **The pointers meet** where the walk comes round: at a place on the way round that many links behind the start, as
often as the distance takes to be all the way round. -/
theorem exists_meet [Fintype α] (h : Cyclic next p) :
    ∃ k < Fintype.card α, ∃ a, walk next k p = some a ∧ walk next (2 * k + 1) p = some a := by
  have hcard : walk next (Fintype.card α) p ≠ none := fun hnone ↦ h.not_ends ⟨_, hnone⟩
  obtain ⟨i, d, a, hd, hle, hi, hround⟩ := exists_round hcard
  -- the last multiple of `d` that is at most `i + d`
  obtain ⟨q, hq⟩ : ∃ q, d * q ≤ i + d ∧ i < d * q := by
    refine ⟨(i + d) / d, Nat.mul_div_le _ _, ?_⟩
    have hlt := Nat.lt_mul_div_succ (i + d) hd
    rw [Nat.mul_succ] at hlt
    omega
  obtain ⟨b, hb⟩ := Option.ne_none_iff_exists'.1 fun hnone ↦ h.not_ends ⟨d * q - 1, hnone⟩
  refine ⟨d * q - 1, by omega, b, hb, ?_⟩
  rw [show 2 * (d * q - 1) + 1 = d * q - 1 + d * q by omega, walk_round (hround.trans hi.symm) (by omega), hb]

/-- **As many steps as there are cells are enough**: the pointers meet exactly where there is a cycle. -/
theorem race_eq [Fintype α] [DecidableEq α] (next : α → Option α) (p : Option α) (fuel : ℕ) :
    ∃ b, race next (Fintype.card α + 1 + fuel) p (p.bind next) = some b ∧ (b = true ↔ Cyclic next p) := by
  -- by induction on the steps that are left; up to now the pointers were at different cells
  have hrun : ∀ n k, k + n = Fintype.card α + 1 →
      (∀ j < k, ∃ t h, walk next j p = some t ∧ walk next (2 * j + 1) p = some h ∧ t ≠ h) →
      ∃ b, race next (n + fuel) (walk next k p) (walk next (2 * k + 1) p) = some b ∧ (b = true ↔ Cyclic next p) := by
    intro n
    induction n with
    | zero =>
      intro k hk hbefore
      exfalso
      obtain ⟨t, h, -, hh, -⟩ := hbefore (Fintype.card α) (by omega)
      rcases ends_or_cyclic next p with hends | hcyclic
      · rw [walk_mono hends.walk_card (by omega)] at hh
        cases hh
      · obtain ⟨j, hj, a, ha, ha'⟩ := exists_meet hcyclic
        obtain ⟨t, h, ht, hh, hne⟩ := hbefore j (by omega)
        exact hne (Option.some.inj ((ht.symm.trans ha).trans (ha'.symm.trans hh)))
    | succ n ih =>
      intro k hk hbefore
      rw [Nat.add_right_comm]
      rcases ht : walk next k p with - | t
      · exact ⟨false, rfl, iff_of_false nofun fun hcyclic ↦ hcyclic.not_ends ⟨k, ht⟩⟩
      rcases hh : walk next (2 * k + 1) p with - | h
      · exact ⟨false, rfl, iff_of_false nofun fun hcyclic ↦ hcyclic.not_ends ⟨_, hh⟩⟩
      by_cases hmeet : t = h
      · refine ⟨true, by rw [race, if_pos hmeet], iff_of_true rfl (cyclic_iff.2 ⟨k, k + 1, t, by omega, ht, ?_⟩)⟩
        rw [show k + (k + 1) = 2 * k + 1 by omega, hh, hmeet]
      · rw [← ht, ← hh, race_walk (n + fuel) k ht hh hmeet]
        refine ih (k + 1) (by omega) fun j hj ↦ ?_
        rcases Nat.lt_succ_iff_lt_or_eq.1 hj with hj | rfl
        · exact hbefore j hj
        · exact ⟨t, h, ht, hh, hmeet⟩
  exact hrun (Fintype.card α + 1) 0 (Nat.zero_add _) fun j hj ↦ absurd hj (Nat.not_lt_zero j)

end Lwip
