import Mathlib.Data.List.Sort
import Mathlib.Data.List.TakeWhile

/-!
# Consecutive pieces, kept on several queues

A stream is cut into pieces, and every piece knows where it starts (`lo`) and where it stops (`hi`).
`Pieces lo hi p xs e` says that the pieces `xs` follow each other from position `p` to position `e`.

The pieces may be spread over several queues, in any order. Then what survives an exchange between the
queues is that no two pieces overlap (`Separate`), since this does not depend on their order, and that the
pieces of all queues together are **a permutation of consecutive ones**. What is behind some position
is a `filter` in both descriptions (`Pieces.filter`).
-/

variable {α : Type*} {lo hi : α → ℕ} {p e a m : ℕ} {x y : α} {xs ys : List α}

/-! ### Pieces -/

/-- The pieces follow each other from `p` to `e`. -/
def Pieces (lo hi : α → ℕ) : ℕ → List α → ℕ → Prop
  | p, [], e => p = e
  | p, x :: xs, e => lo x = p ∧ Pieces lo hi (hi x) xs e

@[simp] theorem pieces_nil : Pieces lo hi p [] e ↔ p = e := Iff.rfl

theorem pieces_cons : Pieces lo hi p (x :: xs) e ↔ lo x = p ∧ Pieces lo hi (hi x) xs e := Iff.rfl

theorem pieces_append :
    Pieces lo hi p (xs ++ ys) e ↔ ∃ m, Pieces lo hi p xs m ∧ Pieces lo hi m ys e := by
  induction xs generalizing p with
  | nil => simp
  | cons x xs ih => simp [pieces_cons, ih, and_assoc]

theorem Pieces.le (h : Pieces lo hi p xs e) (hle : ∀ x ∈ xs, lo x ≤ hi x) : p ≤ e := by
  induction xs generalizing p with
  | nil => exact (pieces_nil.1 h).le
  | cons x xs ih =>
    have hx : lo x ≤ hi x := hle x List.mem_cons_self
    have hxs := ih h.2 fun y hy ↦ hle y (List.mem_cons_of_mem x hy)
    have := h.1
    omega

/-- The pieces lie between the two ends. -/
theorem Pieces.mem (h : Pieces lo hi p xs e) (hle : ∀ x ∈ xs, lo x ≤ hi x) (hx : x ∈ xs) :
    p ≤ lo x ∧ hi x ≤ e := by
  obtain ⟨us, vs, rfl⟩ := List.append_of_mem hx
  obtain ⟨m, hus, hlo, hvs⟩ := pieces_append.1 h
  have hpm : p ≤ m := hus.le fun y hy ↦ hle y (by simp [hy])
  have hxe : hi x ≤ e := hvs.le fun y hy ↦ hle y (by simp [hy])
  exact ⟨hpm.trans hlo.ge, hxe⟩

/-- Every piece stops before the next ones start. -/
theorem Pieces.pairwise (h : Pieces lo hi p xs e) (hle : ∀ x ∈ xs, lo x ≤ hi x) :
    xs.Pairwise fun x y ↦ hi x ≤ lo y := by
  induction xs generalizing p with
  | nil => exact List.Pairwise.nil
  | cons x xs ih =>
    have htail : ∀ y ∈ xs, lo y ≤ hi y := fun y hy ↦ hle y (List.mem_cons_of_mem x hy)
    exact List.pairwise_cons.2 ⟨fun y hy ↦ (h.2.mem htail hy).1, ih h.2 htail⟩

/-- What is behind a position is consecutive again, and starts there or before. -/
theorem Pieces.filter (h : Pieces lo hi p xs e) (hle : ∀ x ∈ xs, lo x ≤ hi x) (hpa : p ≤ a) :
    ∃ q, p ≤ q ∧ q ≤ a ∧ Pieces lo hi q (xs.filter fun x ↦ a < hi x) e := by
  induction xs generalizing p with
  | nil => exact ⟨p, le_rfl, hpa, h⟩
  | cons x xs ih =>
    have hx : lo x ≤ hi x := hle x List.mem_cons_self
    have htail : ∀ y ∈ xs, lo y ≤ hi y := fun y hy ↦ hle y (List.mem_cons_of_mem x hy)
    rcases le_or_gt (hi x) a with hxa | hxa
    · obtain ⟨q, hq, hqa, hxs⟩ := ih h.2 htail hxa
      refine ⟨q, by have := h.1; omega, hqa, ?_⟩
      rwa [List.filter_cons_of_neg (by simpa using hxa)]
    · refine ⟨p, le_rfl, hpa, ?_⟩
      have hall : ∀ y ∈ x :: xs, decide (a < hi y) = true := by
        intro y hy
        rcases List.mem_cons.1 hy with rfl | hy
        · exact decide_eq_true hxa
        · have h1 := (h.2.mem htail hy).1
          have h2 := htail y hy
          exact decide_eq_true (by omega)
      rwa [List.filter_eq_self.2 hall]

/-- Where the pieces start. -/
theorem Pieces.start_unique (h : Pieces lo hi p xs e) (h' : Pieces lo hi m xs e) : p = m := by
  cases xs with
  | nil => exact (pieces_nil.1 h).trans (pieces_nil.1 h').symm
  | cons x xs => exact h.1.symm.trans h'.1

/-- The piece that stops at the end is the last one. -/
theorem Pieces.eq_concat (h : Pieces lo hi p xs e) (hlt : ∀ x ∈ xs, lo x < hi x) (hx : x ∈ xs)
    (hxe : hi x = e) : ∃ ys, xs = ys ++ [x] ∧ Pieces lo hi p ys (lo x) := by
  obtain ⟨us, vs, rfl⟩ := List.append_of_mem hx
  obtain ⟨m, hus, rfl, hvs⟩ := pieces_append.1 h
  cases vs with
  | nil => exact ⟨us, rfl, hus⟩
  | cons y vs =>
    have hy : lo y < hi y := hlt y (by simp)
    have hye := (hvs.mem (fun z hz ↦ (hlt z (by simp [List.mem_cons.1 hz])).le)
      List.mem_cons_self).2
    have := hvs.1
    omega

/-! ### Pieces that do not overlap -/

/-- One of the pieces stops before the other one starts. -/
def Separate (lo hi : α → ℕ) (x y : α) : Prop := hi x ≤ lo y ∨ hi y ≤ lo x

theorem Separate.symm (h : Separate lo hi x y) : Separate lo hi y x := Or.symm h

theorem pairwise_separate_perm (h : xs.Perm ys) :
    xs.Pairwise (Separate lo hi) ↔ ys.Pairwise (Separate lo hi) :=
  h.pairwise_iff Separate.symm

/-! ### Queues in order -/

/-- Pieces in the order of their starts. -/
def NotAfter (lo : α → ℕ) (x y : α) : Prop := lo x ≤ lo y

instance : DecidableRel (NotAfter lo) := fun x y ↦ inferInstanceAs (Decidable (lo x ≤ lo y))

instance : Std.Total (NotAfter lo) := ⟨fun x y ↦ le_total (lo x) (lo y)⟩

instance : IsTrans α (NotAfter lo) := ⟨fun _ _ _ ↦ le_trans⟩

/-- What is in order, and does not overlap, stops before the next ones start. -/
theorem pairwise_stop_le (hsorted : xs.Pairwise (NotAfter lo)) (hseparate : xs.Pairwise (Separate lo hi))
    (hlt : ∀ x ∈ xs, lo x < hi x) : xs.Pairwise fun x y ↦ hi x ≤ lo y := by
  refine (hsorted.and hseparate).imp_of_mem fun {x y} hx hy h ↦ ?_
  obtain ⟨hle, h | h⟩ := h
  · exact h
  · have h1 : lo x ≤ lo y := hle
    have h2 := hlt y hy
    omega

/-- In such a queue, what is behind a position is what remains when the rest is taken off the front. -/
theorem dropWhile_eq_filter (h : xs.Pairwise fun x y ↦ hi x ≤ lo y) (hlt : ∀ x ∈ xs, lo x < hi x) :
    (xs.dropWhile fun x ↦ hi x ≤ a) = xs.filter fun x ↦ a < hi x := by
  induction xs with
  | nil => rfl
  | cons x xs ih =>
    obtain ⟨hx, hxs⟩ := List.pairwise_cons.1 h
    rcases le_or_gt (hi x) a with hxa | hxa
    · rw [List.dropWhile_cons_of_pos (by simpa using hxa),
        List.filter_cons_of_neg (by simpa using hxa),
        ih hxs fun y hy ↦ hlt y (List.mem_cons_of_mem x hy)]
    · have hall : ∀ y ∈ x :: xs, decide (a < hi y) = true := by
        intro y hy
        rcases List.mem_cons.1 hy with rfl | hy
        · exact decide_eq_true hxa
        · have h1 := hx y hy
          have h2 := hlt y (List.mem_cons_of_mem x hy)
          exact decide_eq_true (by omega)
      rw [List.dropWhile_cons_of_neg (by simpa using hxa), List.filter_eq_self.2 hall]

section OrderedInsert

variable {r : α → α → Prop} [DecidableRel r]

/-- Insertion in front of a part that comes after the new element. -/
theorem orderedInsert_append (h : ∀ y ∈ ys, r x y) :
    (xs ++ ys).orderedInsert r x = xs.orderedInsert r x ++ ys := by
  induction xs with
  | nil =>
    cases ys with
    | nil => rfl
    | cons y ys => exact List.orderedInsert_cons_of_le r ys (h y List.mem_cons_self)
  | cons z xs ih =>
    rw [List.cons_append, List.orderedInsert_cons, List.orderedInsert_cons, ih]
    split_ifs <;> rfl

/-- Insertion behind a queue that comes before the new element. -/
theorem orderedInsert_eq_concat (h : ∀ y ∈ xs, ¬r x y) : xs.orderedInsert r x = xs ++ [x] := by
  induction xs with
  | nil => rfl
  | cons z xs ih =>
    rw [List.orderedInsert_of_not_le r xs (h z List.mem_cons_self),
      ih fun y hy ↦ h y (List.mem_cons_of_mem z hy), List.cons_append]

end OrderedInsert

/-- Where two tests agree, they cut a queue at the same place. -/
theorem takeWhile_dropWhile_congr {f g : α → Bool} (h : ∀ x ∈ xs, f x = g x) :
    xs.takeWhile f = xs.takeWhile g ∧ xs.dropWhile f = xs.dropWhile g := by
  induction xs with
  | nil => exact ⟨rfl, rfl⟩
  | cons x xs ih =>
    obtain ⟨htake, hdrop⟩ := ih fun y hy ↦ h y (List.mem_cons_of_mem x hy)
    rw [List.takeWhile_cons, List.takeWhile_cons, List.dropWhile_cons, List.dropWhile_cons,
      h x List.mem_cons_self, htake, hdrop]
    exact ⟨rfl, rfl⟩
