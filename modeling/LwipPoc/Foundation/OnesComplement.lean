import Mathlib.Data.BitVec
import Mathlib.Data.Nat.ModEq

/-!
# Ones' complement sums

Sixteen-bit **ones' complement addition** adds with an end-around carry. It is arithmetic modulo
`2 ^ 16 - 1`, but for one thing: zero has two representations, and a sum is the first of them only if
all that was added is zero. The relation `OnesEq` says exactly that two natural numbers stand for the
same ones' complement sum. It is a congruence, so that the sums of a program may be taken as sums of
natural numbers, in any word size, with carries folded back at any time; and two numbers of sixteen
bits that are related are equal (`OnesEq.eq_of_lt`).

A string of bytes is summed with **two alternating weights**, `altSum`: which of the two the first byte
has is the byte order, and the parity of the address.
-/

/-- Ones' complement addition of sixteen-bit numbers: the carry goes around. -/
def onesAdd (x y : ℕ) : ℕ := if x + y < 2 ^ 16 then x + y else x + y - (2 ^ 16 - 1)

/-- The ones' complement sum of a list of words. -/
def onesSum (ws : List ℕ) : ℕ := ws.foldl onesAdd 0

/-- Add the upper half of a number to its lower half. -/
def foldHalves (n : ℕ) : ℕ := n / 2 ^ 16 + n % 2 ^ 16

/-- Swap the two lower bytes. -/
def swapBytes (n : ℕ) : ℕ := n % 2 ^ 8 * 2 ^ 8 + n / 2 ^ 8 % 2 ^ 8

/-- **Two numbers stand for the same sum**: they are congruent, and both or none of them is zero. -/
structure OnesEq (m n : ℕ) : Prop where
  mod_eq : m % (2 ^ 16 - 1) = n % (2 ^ 16 - 1)
  zero_iff : m = 0 ↔ n = 0

namespace OnesEq

variable {m n k l : ℕ}

theorem refl (n : ℕ) : OnesEq n n := ⟨rfl, Iff.rfl⟩

theorem symm (h : OnesEq m n) : OnesEq n m := ⟨h.mod_eq.symm, h.zero_iff.symm⟩

theorem trans (h : OnesEq m n) (h' : OnesEq n k) : OnesEq m k :=
  ⟨h.mod_eq.trans h'.mod_eq, h.zero_iff.trans h'.zero_iff⟩

theorem add (h : OnesEq m n) (h' : OnesEq k l) : OnesEq (m + k) (n + l) := by
  obtain ⟨hm, hz⟩ := h
  obtain ⟨hm', hz'⟩ := h'
  exact ⟨Nat.ModEq.add hm hm', by omega⟩

theorem mul_left (k : ℕ) (h : OnesEq m n) : OnesEq (k * m) (k * n) :=
  ⟨Nat.ModEq.mul_left k h.mod_eq, by simp [h.zero_iff]⟩

/-- **Sixteen bits are enough**: the two numbers are equal. -/
theorem eq_of_lt (h : OnesEq m n) (hm : m < 2 ^ 16) (hn : n < 2 ^ 16) : m = n := by
  obtain ⟨hmod, hzero⟩ := h
  omega

/-- **What verifies**: the complement is zero if and only if the sum is a multiple of `2 ^ 16 - 1` other than
zero. -/
theorem compl_eq_zero_iff (h : OnesEq m n) (hm : m < 2 ^ 16) :
    2 ^ 16 - 1 - m = 0 ↔ n % (2 ^ 16 - 1) = 0 ∧ n ≠ 0 := by
  obtain ⟨hmod, hzero⟩ := h
  omega

end OnesEq

variable {m n : ℕ}

theorem onesEq_onesAdd (hm : m < 2 ^ 16) (hn : n < 2 ^ 16) :
    OnesEq (onesAdd m n) (m + n) ∧ onesAdd m n < 2 ^ 16 := by
  rw [onesAdd]
  split_ifs with h
  · exact ⟨OnesEq.refl _, h⟩
  · exact ⟨⟨by omega, by omega⟩, by omega⟩

/-- **The ones' complement sum** stands for the sum of the words. -/
theorem onesEq_onesSum {ws : List ℕ} (h : ∀ w ∈ ws, w < 2 ^ 16) :
    OnesEq (onesSum ws) ws.sum ∧ onesSum ws < 2 ^ 16 := by
  have hfold : ∀ (ws : List ℕ) (a : ℕ), (∀ w ∈ ws, w < 2 ^ 16) → a < 2 ^ 16 →
      OnesEq (ws.foldl onesAdd a) (a + ws.sum) ∧ ws.foldl onesAdd a < 2 ^ 16 := by
    intro ws
    induction ws with
    | nil => exact fun a _ ha ↦ ⟨OnesEq.refl a, ha⟩
    | cons w ws ih =>
      intro a hws ha
      obtain ⟨hadd, hlt⟩ := onesEq_onesAdd ha (hws w List.mem_cons_self)
      obtain ⟨hsum, hlt'⟩ := ih (onesAdd a w) (fun x hx ↦ hws x (List.mem_cons_of_mem w hx)) hlt
      refine ⟨hsum.trans ?_, hlt'⟩
      rw [List.sum_cons, ← Nat.add_assoc]
      exact hadd.add (OnesEq.refl _)
  have := hfold ws 0 h (by decide)
  rwa [Nat.zero_add] at this

/-! ### Folding and swapping -/

theorem onesEq_foldHalves (n : ℕ) : OnesEq (foldHalves n) n := by
  rw [foldHalves]
  exact ⟨by omega, by omega⟩

/-- One fold is enough behind an addition of two sixteen-bit numbers. -/
theorem foldHalves_lt (h : n ≤ 2 * (2 ^ 16 - 1)) : foldHalves n < 2 ^ 16 := by
  rw [foldHalves]
  omega

theorem foldHalves_le (h : n < 2 ^ 32) : foldHalves n ≤ 2 * (2 ^ 16 - 1) := by
  rw [foldHalves]
  omega

/-- **Two folds** are enough for thirty-two bits. -/
theorem foldHalves_foldHalves_lt (h : n < 2 ^ 32) : foldHalves (foldHalves n) < 2 ^ 16 :=
  foldHalves_lt (foldHalves_le h)

theorem swapBytes_lt (n : ℕ) : swapBytes n < 2 ^ 16 := by
  rw [swapBytes]
  omega

/-- **Swapping the bytes** is multiplication. -/
theorem onesEq_swapBytes (h : n < 2 ^ 16) : OnesEq (swapBytes n) (2 ^ 8 * n) := by
  rw [swapBytes]
  -- the upper byte goes around
  have hround : 2 ^ 8 * n = n % 2 ^ 8 * 2 ^ 8 + n / 2 ^ 8 % 2 ^ 8 + (2 ^ 16 - 1) * (n / 2 ^ 8) := by
    omega
  refine ⟨?_, by omega⟩
  rw [hround, Nat.add_mul_mod_self_left]

/-- Swapping twice is doing nothing. -/
theorem onesEq_swap_swap (n : ℕ) : OnesEq (2 ^ 8 * (2 ^ 8 * n)) n := ⟨by omega, by omega⟩

/-- The complement is swapped with the sum. -/
theorem swapBytes_compl (h : n < 2 ^ 16) :
    swapBytes (2 ^ 16 - 1 - n) = 2 ^ 16 - 1 - swapBytes n := by
  rw [swapBytes, swapBytes]
  omega

/-- A thirty-two bit addition whose carry is added back. -/
def addCarry (sum w : ℕ) : ℕ :=
  if (sum + w) % 2 ^ 32 < sum then ((sum + w) % 2 ^ 32 + 1) % 2 ^ 32 else (sum + w) % 2 ^ 32

theorem onesEq_addCarry (hm : m < 2 ^ 32) (hn : n < 2 ^ 32) :
    OnesEq (addCarry m n) (m + n) ∧ addCarry m n < 2 ^ 32 := by
  rw [addCarry]
  split_ifs with h
  · exact ⟨⟨by omega, by omega⟩, by omega⟩
  · exact ⟨⟨by omega, by omega⟩, by omega⟩

/-! ### Bytes with alternating weights -/

/-- **The sum of a string of bytes**, with the weights `v` and `w` by turns. -/
def altSum (v w : ℕ) : List (BitVec 8) → ℕ
  | [] => 0
  | b :: bs => v * b.toNat + altSum w v bs

/-- The bytes as words in network order, the last one filled up with zero. -/
def netWords : List (BitVec 8) → List ℕ
  | [] => []
  | [x] => [x.toNat * 2 ^ 8]
  | x :: y :: bs => (x.toNat * 2 ^ 8 + y.toNat) :: netWords bs

attribute [local simp] altSum

variable {v w : ℕ} {bs cs : List (BitVec 8)}

theorem netWords_lt (bs : List (BitVec 8)) : ∀ x ∈ netWords bs, x < 2 ^ 16 := by
  induction bs using netWords.induct with
  | case1 => simp [netWords]
  | case2 x =>
    have hx := x.isLt
    simp only [netWords, List.mem_singleton, forall_eq]
    omega
  | case3 x y bs ih =>
    have hx := x.isLt
    have hy := y.isLt
    simp only [netWords, List.mem_cons, forall_eq_or_imp]
    exact ⟨by omega, ih⟩

theorem sum_netWords (bs : List (BitVec 8)) : (netWords bs).sum = altSum (2 ^ 8) 1 bs := by
  induction bs using netWords.induct with
  | case1 => rfl
  | case2 x => simp [netWords, altSum, Nat.mul_comm]
  | case3 x y bs ih =>
    rw [netWords, List.sum_cons, ih, altSum, altSum]
    omega

/-- Behind an odd number of bytes the weights change places. -/
theorem altSum_append (v w : ℕ) (bs cs : List (BitVec 8)) :
    altSum v w (bs ++ cs) =
      altSum v w bs + if bs.length % 2 = 0 then altSum v w cs else altSum w v cs := by
  induction bs generalizing v w with
  | nil => simp [altSum]
  | cons b bs ih =>
    rw [List.cons_append, altSum, ih, altSum, List.length_cons, Nat.add_assoc]
    congr 2
    rcases Nat.mod_two_eq_zero_or_one bs.length with h | h
    · rw [if_pos h, if_neg (by omega)]
    · rw [if_neg (by omega), if_pos (by omega)]

/-- **The weights change places** when the sum is multiplied. -/
theorem onesEq_altSum (bs : List (BitVec 8)) :
    OnesEq (altSum (2 ^ 8) 1 bs) (2 ^ 8 * altSum 1 (2 ^ 8) bs) ∧
      OnesEq (2 ^ 8 * altSum (2 ^ 8) 1 bs) (altSum 1 (2 ^ 8) bs) := by
  induction bs with
  | nil => exact ⟨OnesEq.refl 0, OnesEq.refl 0⟩
  | cons b bs ih =>
    simp only [altSum, Nat.mul_add, Nat.one_mul]
    exact ⟨(OnesEq.refl _).add ih.2.symm, (onesEq_swap_swap _).add ih.1.symm⟩

theorem altSum_le (hv : v ≤ 2 ^ 8) (hw : w ≤ 2 ^ 8) (bs : List (BitVec 8)) :
    altSum v w bs ≤ 2 ^ 8 * (2 ^ 8 - 1) * bs.length := by
  induction bs generalizing v w with
  | nil => exact Nat.zero_le _
  | cons b bs ih =>
    have hb : v * b.toNat ≤ 2 ^ 8 * (2 ^ 8 - 1) := Nat.mul_le_mul hv (by have := b.isLt; omega)
    have := ih hw hv
    rw [altSum, List.length_cons]
    omega

/-- With weights that are not zero, a sum is zero only for zeros. -/
theorem altSum_eq_zero_iff (hv : 0 < v) (hw : 0 < w) (bs : List (BitVec 8)) :
    altSum v w bs = 0 ↔ ∀ b ∈ bs, b = 0 := by
  induction bs generalizing v w with
  | nil => simp [altSum]
  | cons b bs ih =>
    have hb : v * b.toNat = 0 ↔ b = 0 := by
      rw [Nat.mul_eq_zero, ← BitVec.toNat_inj]
      simp [hv.ne']
    rw [altSum, Nat.add_eq_zero_iff, hb, ih hw hv, List.forall_mem_cons]

/-- **The checksum of a string of bytes**: the complement of its ones' complement sum, as words in
network order. -/
def internetChecksum (bs : List (BitVec 8)) : ℕ := 2 ^ 16 - 1 - onesSum (netWords bs)

/-- In the byte order of a little-endian memory, the sum is that with the other weights. -/
theorem onesEq_swap_onesSum (bs : List (BitVec 8)) :
    OnesEq (swapBytes (onesSum (netWords bs))) (altSum 1 (2 ^ 8) bs) := by
  obtain ⟨hsum, hlt⟩ := onesEq_onesSum (netWords_lt bs)
  rw [sum_netWords] at hsum
  exact (onesEq_swapBytes hlt).trans ((hsum.mul_left _).trans (onesEq_altSum bs).2)
