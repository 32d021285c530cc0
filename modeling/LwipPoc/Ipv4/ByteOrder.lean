import LwipPoc.Ipv4.InetChksum

/-!
# Byte orders

What depends on `BYTE_ORDER` in the checksums: how a `u16_t` lies in memory, `PP_HTONS`, and `inet_chksum` as
it is compiled for either order (`LWIP_CHKSUM_ALGORITHM` is 2). In a little-endian memory it is the one of
`InetChksum`. In both orders the checksum **verifies** if the sum of the bytes, with the weights of the order, is
a multiple of `0xffff`, but not zero.
-/

namespace Lwip.Ipv4

open Lwip.Core IpHdr

/-- `BYTE_ORDER`. -/
inductive ByteOrder
  | little
  | big
  deriving DecidableEq, Repr

namespace ByteOrder

/-- The weight of the first byte of a `u16_t`. -/
def fst : ByteOrder → ℕ
  | little => 1
  | big => 2 ^ 8

/-- The weight of the second byte. -/
def snd : ByteOrder → ℕ
  | little => 2 ^ 8
  | big => 1

/-- `PP_HTONS`. -/
def htons : ByteOrder → ℕ → ℕ
  | little, n => swap16 n
  | big, n => n

/-- A `u16_t` in memory. -/
def load (o : ByteOrder) (x y : BitVec 8) : ℕ := x.toNat * o.fst + y.toNat * o.snd

/-- A `u16_t` as it is stored: its first byte, and its second one. -/
def store (o : ByteOrder) (n : ℕ) : BitVec 8 × BitVec 8 :=
  (BitVec.ofNat 8 (n / o.fst), BitVec.ofNat 8 (n / o.snd))

end ByteOrder

/-- The loop over words of sixteen bits, and the bytes left over. -/
def sumWordsIn (o : ByteOrder) (sum : ℕ) : List (BitVec 8) → ℕ × List (BitVec 8)
  | [] => (sum, [])
  | [x] => (sum, [x])
  | x :: y :: bs => sumWordsIn o ((sum + o.load x y) % 2 ^ 32) bs

/-- The bytes behind the one that an odd address starts with. -/
def evenBytes (b : Buffer) : List (BitVec 8) := if b.addr % 2 = 1 then b.bytes.tail else b.bytes

/-- `t`: the first byte at an odd address is its second byte, and the left-over byte its first. -/
def endBytes (o : ByteOrder) (b : Buffer) (rest : List (BitVec 8)) : ℕ :=
  o.load (rest.headD 0) (if b.addr % 2 = 1 then b.bytes.headD 0 else 0)

/-- `lwip_standard_chksum`, version 2, in either byte order. -/
def standardChksumIn (o : ByteOrder) (b : Buffer) : ℕ :=
  let r := sumWordsIn o 0 (evenBytes b)
  let sum := foldU32 (foldU32 ((r.1 + endBytes o b r.2) % 2 ^ 32))
  (if b.addr % 2 = 1 then swap16 sum else sum) % 2 ^ 16

/-- `inet_chksum`, in either byte order. -/
def inetChksumIn (o : ByteOrder) (b : Buffer) : ℕ := 2 ^ 16 - 1 - standardChksumIn o b

/-! ### The sum -/

variable {o : ByteOrder} {b : Buffer} {bs : List (BitVec 8)} {sum c : ℕ}

/-- The sum of a buffer in the byte order of the memory. -/
def memSumIn (o : ByteOrder) (bs : List (BitVec 8)) : ℕ := altSum o.fst o.snd bs

theorem sumWordsIn_eq (h : sum + memSumIn o bs < 2 ^ 32) :
    (sumWordsIn o sum bs).1 + ((sumWordsIn o sum bs).2.headD 0).toNat * o.fst = sum + memSumIn o bs := by
  induction sum, bs using sumWordsIn.induct o with
  | case1 sum => simp [sumWordsIn, memSumIn, altSum]
  | case2 sum x => simp [sumWordsIn, memSumIn, altSum, Nat.mul_comm]
  | case3 sum x y bs ih =>
    simp only [memSumIn, altSum] at h ih ⊢
    have hload : o.load x y = o.fst * x.toNat + o.snd * y.toNat := by
      rw [ByteOrder.load, Nat.mul_comm, Nat.mul_comm y.toNat]
    have hmod : (sum + o.load x y) % 2 ^ 32 = sum + o.load x y := Nat.mod_eq_of_lt (by omega)
    rw [hmod] at ih
    rw [sumWordsIn, hmod, ih (by omega), hload]
    omega

/-- The weights change places when the sum is multiplied. -/
theorem onesEq_memSumIn (o : ByteOrder) (bs : List (BitVec 8)) :
    OnesEq (2 ^ 8 * altSum o.snd o.fst bs) (memSumIn o bs) := by
  rcases o with _ | _
  · exact (onesEq_altSum bs).2
  · exact (onesEq_altSum bs).1.symm

theorem memSumIn_le (o : ByteOrder) (bs : List (BitVec 8)) :
    memSumIn o bs ≤ 2 ^ 8 * (2 ^ 8 - 1) * bs.length ∧
      altSum o.snd o.fst bs ≤ 2 ^ 8 * (2 ^ 8 - 1) * bs.length := by
  rcases o with _ | _
  · exact ⟨altSum_le (by decide) (by decide) bs, altSum_le (by decide) (by decide) bs⟩
  · exact ⟨altSum_le (by decide) (by decide) bs, altSum_le (by decide) (by decide) bs⟩

/-- **What is folded**: at an odd address the weights have changed places. -/
theorem sumWordsIn_endBytes (o : ByteOrder) (hlen : b.bytes.length < 2 ^ 16) :
    (sumWordsIn o 0 (evenBytes b)).1 + endBytes o b (sumWordsIn o 0 (evenBytes b)).2 =
      if b.addr % 2 = 1 then altSum o.snd o.fst b.bytes else memSumIn o b.bytes := by
  have heven : (evenBytes b).length < 2 ^ 16 := by
    rw [evenBytes]
    split_ifs
    · rw [List.length_tail]
      omega
    · exact hlen
  have hle := (memSumIn_le o (evenBytes b)).1
  have hsum := @sumWordsIn_eq o (evenBytes b) 0 (by omega)
  rw [endBytes, ByteOrder.load, ← Nat.add_assoc, hsum, Nat.zero_add, evenBytes]
  split_ifs with hodd
  · obtain ⟨addr, bs⟩ := b
    rcases bs with _ | ⟨x, bs⟩
    · simp [memSumIn, altSum]
    · simp only [List.tail_cons, List.headD_cons, altSum, memSumIn]
      rw [Nat.mul_comm, Nat.add_comm]
  · simp

/-- **`lwip_standard_chksum`** returns sixteen bits that stand for the sum of the bytes in memory order. -/
theorem onesEq_standardChksumIn (o : ByteOrder) (hlen : b.bytes.length < 2 ^ 16) :
    OnesEq (standardChksumIn o b) (memSumIn o b.bytes) ∧ standardChksumIn o b < 2 ^ 16 := by
  have hsum := sumWordsIn_endBytes o hlen
  obtain ⟨hle, hle'⟩ := memSumIn_le o b.bytes
  have hlt : (if b.addr % 2 = 1 then altSum o.snd o.fst b.bytes else memSumIn o b.bytes) < 2 ^ 32 := by
    split_ifs <;> omega
  have hfold := foldHalves_foldHalves_lt hlt
  have heq := (onesEq_foldHalves (foldHalves
    (if b.addr % 2 = 1 then altSum o.snd o.fst b.bytes else memSumIn o b.bytes))).trans (onesEq_foldHalves _)
  simp only [standardChksumIn, hsum, Nat.mod_eq_of_lt hlt, foldU32_eq, swap16_eq]
  split_ifs at hfold heq ⊢
  · rw [Nat.mod_eq_of_lt (swapBytes_lt _)]
    refine ⟨?_, swapBytes_lt _⟩
    exact (onesEq_swapBytes hfold).trans ((heq.mul_left _).trans (onesEq_memSumIn o b.bytes))
  · rw [Nat.mod_eq_of_lt hfold]
    exact ⟨heq, hfold⟩

/-- **What verifies**: the sum is a multiple of `0xffff`, but not zero. -/
theorem inetChksumIn_eq_zero_iff (o : ByteOrder) (hlen : b.bytes.length < 2 ^ 16) :
    inetChksumIn o b = 0 ↔ memSumIn o b.bytes % (2 ^ 16 - 1) = 0 ∧ memSumIn o b.bytes ≠ 0 := by
  obtain ⟨heq, hlt⟩ := onesEq_standardChksumIn o hlen
  rw [inetChksumIn]
  exact heq.compl_eq_zero_iff hlt

/-- In a little-endian memory this is the checksum that was modelled before. -/
theorem inetChksumIn_little (hlen : b.bytes.length < 2 ^ 16) :
    inetChksumIn .little b = inetChksum .two b := by
  obtain ⟨heq, hlt⟩ := onesEq_standardChksumIn .little hlen
  obtain ⟨heq', hlt'⟩ := onesEq_lwipChksum .two (b := b) (Nat.le_pred_of_lt hlen)
  rw [inetChksumIn, inetChksum, (heq.trans heq'.symm).eq_of_lt hlt hlt']

theorem load_store (o : ByteOrder) (hc : c < 2 ^ 16) : o.load (o.store c).1 (o.store c).2 = c := by
  rcases o with _ | _
  · simp only [ByteOrder.load, ByteOrder.store, ByteOrder.fst, ByteOrder.snd, BitVec.toNat_ofNat]
    omega
  · simp only [ByteOrder.load, ByteOrder.store, ByteOrder.fst, ByteOrder.snd, BitVec.toNat_ofNat]
    omega

theorem load_lt (o : ByteOrder) (x y : BitVec 8) : o.load x y < 2 ^ 16 := by
  have hx := x.isLt
  have hy := y.isLt
  rcases o with _ | _
  · simp only [ByteOrder.load, ByteOrder.fst, ByteOrder.snd]
    omega
  · simp only [ByteOrder.load, ByteOrder.fst, ByteOrder.snd]
    omega

end Lwip.Ipv4
