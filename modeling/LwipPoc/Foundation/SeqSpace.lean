import Mathlib.Data.BitVec
import Mathlib.Tactic.Linarith

/-!
# Serial number arithmetic

Sequence numbers of 32 bits are compared by the sign of their difference, so that the order survives
the wrap from `2 ^ 32 - 1` to `0`. It is an order only **locally**: on numbers that are less than
`2 ^ 31` apart.

Every comparison has a characterization by the distance `(a - b).toNat`. What proofs mostly use is one by
**positions**: the numbers of a stream's positions, which are natural numbers, compare like the positions
as long as these are less than `2 ^ 31` apart (`seqLt_seqAt`).
-/

/-- A sequence number. -/
abbrev SeqNum := BitVec 32

/-- `a` before `b`: the difference is negative. -/
def SeqLt (a b : SeqNum) : Prop := (a - b).toInt < 0

/-- `a` before `b`, or the same. -/
def SeqLeq (a b : SeqNum) : Prop := (a - b).toInt ≤ 0

/-- `a` after `b`. -/
def SeqGt (a b : SeqNum) : Prop := 0 < (a - b).toInt

/-- `a` after `b`, or the same. -/
def SeqGeq (a b : SeqNum) : Prop := 0 ≤ (a - b).toInt

/-- `a` from `b` to `c`, as the conjunction of two comparisons. -/
def SeqBetween (a b c : SeqNum) : Prop := SeqGeq a b ∧ SeqLeq a c

instance (a b : SeqNum) : Decidable (SeqLt a b) := inferInstanceAs (Decidable (_ < _))

instance (a b : SeqNum) : Decidable (SeqLeq a b) := inferInstanceAs (Decidable (_ ≤ _))

instance (a b : SeqNum) : Decidable (SeqGt a b) := inferInstanceAs (Decidable (_ < _))

instance (a b : SeqNum) : Decidable (SeqGeq a b) := inferInstanceAs (Decidable (_ ≤ _))

instance (a b c : SeqNum) : Decidable (SeqBetween a b c) := inferInstanceAs (Decidable (_ ∧ _))

variable {a b : SeqNum}

/-! ### Comparisons by distance -/

theorem seqLt_iff : SeqLt a b ↔ 2 ^ 31 ≤ (a - b).toNat := by
  rw [SeqLt, BitVec.toInt_eq_toNat_cond]
  split_ifs <;> omega

theorem seqLeq_iff : SeqLeq a b ↔ a = b ∨ 2 ^ 31 ≤ (a - b).toNat := by
  have hzero : a = b ↔ (a - b).toNat = 0 := by bv_omega
  rw [SeqLeq, BitVec.toInt_eq_toNat_cond, hzero]
  split_ifs <;> omega

theorem seqGt_iff : SeqGt a b ↔ a ≠ b ∧ (a - b).toNat < 2 ^ 31 := by
  have hzero : a = b ↔ (a - b).toNat = 0 := by bv_omega
  rw [SeqGt, BitVec.toInt_eq_toNat_cond, Ne, hzero]
  split_ifs <;> omega

theorem seqGeq_iff : SeqGeq a b ↔ (a - b).toNat < 2 ^ 31 := by
  rw [SeqGeq, BitVec.toInt_eq_toNat_cond]
  split_ifs <;> omega

/-! ### Positions

A stream gives its positions sequence numbers from some start on. The numbers repeat, the positions do
not; positions that are near each other are compared by their numbers. -/

/-- The sequence number of a position. -/
def seqAt (start : SeqNum) (q : ℕ) : SeqNum := start + BitVec.ofNat 32 q

variable {start : SeqNum} {q r t : ℕ}

theorem seqAt_add (start : SeqNum) (q n : ℕ) : seqAt start (q + n) = seqAt start q + BitVec.ofNat 32 n := by
  rw [seqAt, seqAt, BitVec.ofNat_add, BitVec.add_assoc]

theorem seqAt_succ (start : SeqNum) (q : ℕ) : seqAt start (q + 1) = seqAt start q + 1 := seqAt_add start q 1

theorem seqAt_sub (h : r ≤ q) (hq : q < r + 2 ^ 32) : (seqAt start q - seqAt start r).toNat = q - r := by
  rw [seqAt, seqAt]
  bv_omega

theorem seqAt_inj (hq : q < r + 2 ^ 32) (hr : r < q + 2 ^ 32) :
    seqAt start q = seqAt start r ↔ q = r := by
  rw [seqAt, seqAt]
  bv_omega

theorem seqLt_seqAt (hq : q < r + 2 ^ 31) (hr : r < q + 2 ^ 31) :
    SeqLt (seqAt start q) (seqAt start r) ↔ q < r := by
  rw [seqLt_iff, seqAt, seqAt]
  bv_omega

theorem seqLeq_seqAt (hq : q < r + 2 ^ 31) (hr : r < q + 2 ^ 31) :
    SeqLeq (seqAt start q) (seqAt start r) ↔ q ≤ r := by
  rw [seqLeq_iff, seqAt, seqAt]
  bv_omega

theorem seqGeq_seqAt (hq : q < r + 2 ^ 31) (hr : r < q + 2 ^ 31) :
    SeqGeq (seqAt start q) (seqAt start r) ↔ r ≤ q := by
  rw [seqGeq_iff, seqAt, seqAt]
  bv_omega

theorem seqGt_seqAt (hq : q < r + 2 ^ 31) (hr : r < q + 2 ^ 31) :
    SeqGt (seqAt start q) (seqAt start r) ↔ r < q := by
  rw [seqGt_iff, seqAt, seqAt]
  bv_omega

/-- Every number ahead of a position is the number of a position ahead of it. -/
theorem exists_seqAt (start a : SeqNum) (r : ℕ) :
    ∃ q, r ≤ q ∧ q < r + 2 ^ 32 ∧ a = seqAt start q := by
  refine ⟨r + (a - seqAt start r).toNat, by omega, by have := (a - seqAt start r).isLt; omega, ?_⟩
  rw [seqAt_add, BitVec.ofNat_toNat, BitVec.setWidth_eq]
  bv_omega
