import LwipPoc.Ipv4.Header
import LwipPoc.Foundation.OnesComplement

/-!
# Checksums

`ipv4/inet_chksum.c` on a little-endian machine: the three versions of `lwip_standard_chksum`, and the
checksums over a buffer, a chain of pbufs, and a chain with its pseudo header. A buffer is its address,
which decides how the faster versions begin, and its bytes. The accumulators are `u32_t`s.

**The versions agree to the bit**, not only as ones' complement sums: each returns a number of sixteen
bits, `OnesEq` to the sum of the bytes with the weights of the memory's byte order, and there is one
such number (`OnesEq.eq_of_lt`). The same goes for chains: the state of the loop over the pbufs is
`OnesEq` to the sum of the bytes so far, multiplied if the bytes are swapped.
-/

namespace Lwip.Ipv4

open Lwip.Core IpHdr

/-- A buffer: its address, and the bytes from there on. -/
structure Buffer where
  addr : ℕ
  bytes : List (BitVec 8)
  deriving DecidableEq, Repr

/-- A `u16_t` in memory. -/
def loadU16 (x y : BitVec 8) : ℕ := x.toNat + y.toNat * 2 ^ 8

/-- A `u32_t` in memory. -/
def loadU32 (a b c d : BitVec 8) : ℕ := loadU16 a b + loadU16 c d * 2 ^ 16

/-! ### Version 1 -/

/-- The loop of version 1, and the byte behind it. -/
def sumOctets (acc : ℕ) : List (BitVec 8) → ℕ
  | [] => acc
  | [x] => (acc + x.toNat * 2 ^ 8) % 2 ^ 32
  | x :: y :: bs => sumOctets ((acc + (x.toNat * 2 ^ 8 + y.toNat)) % 2 ^ 32) bs

/-- `lwip_standard_chksum`, version 1. -/
def lwipStandardChksum1 (b : Buffer) : ℕ :=
  let acc := foldU32 (sumOctets 0 b.bytes)
  let acc := if acc / 2 ^ 16 ≠ 0 then foldU32 acc else acc
  swap16 (acc % 2 ^ 16)

/-! ### Versions 2 and 3 -/

/-- The start at an odd address: the byte for the upper half of `t`, and the rest of the buffer. -/
def headByte (b : Buffer) : ℕ × Buffer :=
  match b.bytes with
  | x :: bs => if b.addr % 2 = 1 then (x.toNat * 2 ^ 8, ⟨b.addr + 1, bs⟩) else (0, b)
  | [] => (0, b)

/-- The loop over words of sixteen bits, and the bytes left over. -/
def sumWords (sum : ℕ) : List (BitVec 8) → ℕ × List (BitVec 8)
  | [] => (sum, [])
  | [x] => (sum, [x])
  | x :: y :: bs => sumWords ((sum + loadU16 x y) % 2 ^ 32) bs

/-- The left-over byte, for the lower half of `t`. -/
def tailByte (bs : List (BitVec 8)) : ℕ := (bs.head?.map BitVec.toNat).getD 0

/-- The end of versions 2 and 3: sum up words, add the end bytes, fold twice, and swap if the
alignment was odd. -/
def finish (odd : Bool) (t sum : ℕ) (bs : List (BitVec 8)) : ℕ :=
  let r := sumWords sum bs
  let sum := (r.1 + (t + tailByte r.2)) % 2 ^ 32
  let sum := foldU32 (foldU32 sum)
  (if odd = true then swap16 sum else sum) % 2 ^ 16

/-- `lwip_standard_chksum`, version 2. -/
def lwipStandardChksum2 (b : Buffer) : ℕ :=
  let r := headByte b
  finish (b.addr % 2 = 1) r.1 0 r.2.bytes

/-- A word of sixteen bits, if the buffer is not aligned to `u32_t`. -/
def alignWord (b : Buffer) : ℕ × List (BitVec 8) :=
  match b.bytes with
  | x :: y :: bs => if b.addr % 4 ≠ 0 then (loadU16 x y, bs) else (0, b.bytes)
  | bs => (0, bs)

/-- The loop over eight bytes at a time: ping, and pong. -/
def sumLongs (sum : ℕ) : List (BitVec 8) → ℕ × List (BitVec 8)
  | a :: b :: c :: d :: e :: f :: g :: h :: bs =>
    sumLongs (addCarry (addCarry sum (loadU32 a b c d)) (loadU32 e f g h)) bs
  | bs => (sum, bs)

/-- `lwip_standard_chksum`, version 3. -/
def lwipStandardChksum3 (b : Buffer) : ℕ :=
  let r := headByte b
  let w := alignWord r.2
  let l := sumLongs w.1 w.2
  finish (b.addr % 2 = 1) r.1 (foldU32 l.1) l.2

/-- `LWIP_CHKSUM_ALGORITHM`. -/
inductive ChksumAlgorithm
  | one
  | two
  | three
  deriving DecidableEq, Repr

/-- `LWIP_CHKSUM`. -/
def lwipChksum : ChksumAlgorithm → Buffer → ℕ
  | .one => lwipStandardChksum1
  | .two => lwipStandardChksum2
  | .three => lwipStandardChksum3

/-- `inet_chksum`. -/
def inetChksum (alg : ChksumAlgorithm) (b : Buffer) : ℕ := 2 ^ 16 - 1 - lwipChksum alg b

/-! ### Chains of pbufs -/

/-- The loop over the pbufs of a chain: the accumulator, and whether its bytes are swapped. -/
def sumPbufs (alg : ChksumAlgorithm) : ℕ → Bool → List Buffer → ℕ × Bool
  | acc, swapped, [] => (acc, swapped)
  | acc, swapped, q :: qs =>
    let acc := foldU32 ((acc + lwipChksum alg q) % 2 ^ 32)
    if q.bytes.length % 2 ≠ 0 then sumPbufs alg (swap16 acc) (!swapped) qs
    else sumPbufs alg acc swapped qs

/-- The sum of a chain, with its bytes the right way round. -/
def chainSum (alg : ChksumAlgorithm) (p : List Buffer) : ℕ :=
  let r := sumPbufs alg 0 false p
  if r.2 = true then swap16 r.1 else r.1

/-- `inet_chksum_pbuf`. -/
def inetChksumPbuf (alg : ChksumAlgorithm) (p : List Buffer) : ℕ := 2 ^ 16 - 1 - chainSum alg p % 2 ^ 16

/-- `inet_chksum_pseudo`, with the addresses as they lie in memory. -/
def inetChksumPseudo (alg : ChksumAlgorithm) (p : List Buffer) (src dest : BitVec 32)
    (proto : BitVec 8) (protoLen : BitVec 16) : ℕ :=
  let acc := chainSum alg p
  let acc := (acc + src.toNat % 2 ^ 16) % 2 ^ 32
  let acc := (acc + src.toNat / 2 ^ 16 % 2 ^ 16) % 2 ^ 32
  let acc := (acc + dest.toNat % 2 ^ 16) % 2 ^ 32
  let acc := (acc + dest.toNat / 2 ^ 16 % 2 ^ 16) % 2 ^ 32
  let acc := (acc + swap16 proto.toNat) % 2 ^ 32
  let acc := (acc + swap16 protoLen.toNat) % 2 ^ 32
  2 ^ 16 - 1 - foldU32 (foldU32 acc) % 2 ^ 16

/-! ### The versions agree -/

variable {alg : ChksumAlgorithm} {b : Buffer} {bs : List (BitVec 8)} {sum t : ℕ}

theorem foldU32_eq (n : ℕ) : foldU32 n = foldHalves n := rfl

theorem swap16_eq (n : ℕ) : swap16 n = swapBytes n := rfl

/-- The sum of a buffer in the byte order of the memory. -/
def memSum (bs : List (BitVec 8)) : ℕ := altSum 1 (2 ^ 8) bs

theorem memSum_le (bs : List (BitVec 8)) : memSum bs ≤ 2 ^ 8 * (2 ^ 8 - 1) * bs.length :=
  altSum_le (by decide) (by decide) bs

theorem sumOctets_eq (h : sum + altSum (2 ^ 8) 1 bs < 2 ^ 32) :
    sumOctets sum bs = sum + altSum (2 ^ 8) 1 bs := by
  induction sum, bs using sumOctets.induct with
  | case1 sum => rfl
  | case2 sum x =>
    simp only [altSum] at h ⊢
    rw [sumOctets, Nat.mod_eq_of_lt (by omega)]
    omega
  | case3 sum x y bs ih =>
    simp only [altSum] at h ih ⊢
    have hmod : (sum + (x.toNat * 2 ^ 8 + y.toNat)) % 2 ^ 32 = sum + (x.toNat * 2 ^ 8 + y.toNat) :=
      Nat.mod_eq_of_lt (by omega)
    rw [hmod] at ih
    rw [sumOctets, hmod, ih (by omega)]
    omega

theorem sumWords_eq (h : sum + memSum bs < 2 ^ 32) :
    (sumWords sum bs).1 + tailByte (sumWords sum bs).2 = sum + memSum bs := by
  induction sum, bs using sumWords.induct with
  | case1 sum => rfl
  | case2 sum x => simp [sumWords, tailByte, memSum, altSum]
  | case3 sum x y bs ih =>
    simp only [memSum, altSum] at h ih ⊢
    have hmod : (sum + loadU16 x y) % 2 ^ 32 = sum + loadU16 x y := by
      rw [loadU16]
      exact Nat.mod_eq_of_lt (by omega)
    rw [hmod] at ih
    rw [sumWords, hmod, ih (by rw [loadU16]; omega), loadU16]
    omega

/-- **The end of versions 2 and 3.** -/
theorem onesEq_finish (odd : Bool) (h : t + sum + memSum bs < 2 ^ 32) :
    OnesEq (finish odd t sum bs)
        (if odd = true then 2 ^ 8 * (t + sum + memSum bs) else t + sum + memSum bs) ∧
      finish odd t sum bs < 2 ^ 16 := by
  have hrest : sum + memSum bs < 2 ^ 32 := by omega
  have hwords := sumWords_eq hrest
  have hmod : ((sumWords sum bs).1 + (t + tailByte (sumWords sum bs).2)) % 2 ^ 32 =
      t + sum + memSum bs := by
    rw [Nat.mod_eq_of_lt] <;> omega
  have hfold := foldHalves_foldHalves_lt h
  have heq := (onesEq_foldHalves (foldHalves (t + sum + memSum bs))).trans (onesEq_foldHalves _)
  simp only [finish, hmod, foldU32_eq, swap16_eq]
  split_ifs
  · rw [Nat.mod_eq_of_lt (swapBytes_lt _)]
    exact ⟨(onesEq_swapBytes hfold).trans (heq.mul_left _), swapBytes_lt _⟩
  · rw [Nat.mod_eq_of_lt hfold]
    exact ⟨heq, hfold⟩

/-- What the first byte leaves: at an odd address the weights have changed places. -/
theorem headByte_eq (b : Buffer) :
    (headByte b).1 + memSum (headByte b).2.bytes =
        (if b.addr % 2 = 1 then altSum (2 ^ 8) 1 b.bytes else memSum b.bytes) ∧
      (headByte b).2.bytes.length ≤ b.bytes.length := by
  obtain ⟨addr, bs⟩ := b
  cases bs with
  | nil => simp [headByte, memSum, altSum]
  | cons x bs =>
    simp only [headByte]
    split_ifs with h
    · exact ⟨by rw [altSum, Nat.mul_comm, memSum], by simp⟩
    · exact ⟨Nat.zero_add _, le_refl _⟩

theorem alignWord_eq (b : Buffer) :
    (alignWord b).1 + memSum (alignWord b).2 = memSum b.bytes ∧ (alignWord b).1 < 2 ^ 32 := by
  rw [alignWord]
  split
  · next x y bs hbs =>
    have hx := x.isLt
    have hy := y.isLt
    split_ifs
    · rw [hbs]
      simp only [memSum, altSum, loadU16]
      exact ⟨by omega, by omega⟩
    · exact ⟨Nat.zero_add _, Nat.two_pow_pos 32⟩
  · exact ⟨Nat.zero_add _, Nat.two_pow_pos 32⟩

theorem loadU32_lt (a b c d : BitVec 8) : loadU32 a b c d < 2 ^ 32 := by
  have ha := a.isLt
  have hb := b.isLt
  have hc := c.isLt
  have hd := d.isLt
  simp only [loadU32, loadU16]
  omega

/-- A `u32_t` stands for its four bytes. -/
theorem onesEq_loadU32 (a b c d : BitVec 8) (bs : List (BitVec 8)) :
    OnesEq (loadU32 a b c d + memSum bs) (memSum (a :: b :: c :: d :: bs)) := by
  simp only [loadU32, loadU16, memSum, altSum]
  exact ⟨by omega, by omega⟩

theorem exists_eight {bs : List (BitVec 8)} (h : 8 ≤ bs.length) :
    ∃ a b c d e f g h cs, bs = a :: b :: c :: d :: e :: f :: g :: h :: cs := by
  obtain ⟨a, bs, rfl⟩ := List.exists_cons_of_length_pos (l := bs) (by omega)
  obtain ⟨b, bs, rfl⟩ := List.exists_cons_of_length_pos (l := bs) (by simp at h; omega)
  obtain ⟨c, bs, rfl⟩ := List.exists_cons_of_length_pos (l := bs) (by simp at h; omega)
  obtain ⟨d, bs, rfl⟩ := List.exists_cons_of_length_pos (l := bs) (by simp at h; omega)
  obtain ⟨e, bs, rfl⟩ := List.exists_cons_of_length_pos (l := bs) (by simp at h; omega)
  obtain ⟨f, bs, rfl⟩ := List.exists_cons_of_length_pos (l := bs) (by simp at h; omega)
  obtain ⟨g, bs, rfl⟩ := List.exists_cons_of_length_pos (l := bs) (by simp at h; omega)
  obtain ⟨h', bs, rfl⟩ := List.exists_cons_of_length_pos (l := bs) (by simp at h; omega)
  exact ⟨a, b, c, d, e, f, g, h', bs, rfl⟩

/-- **The loop of version 3**, with its carries added back. -/
theorem onesEq_sumLongs (bs : List (BitVec 8)) (h : sum < 2 ^ 32) :
    OnesEq ((sumLongs sum bs).1 + memSum (sumLongs sum bs).2) (sum + memSum bs) ∧
      (sumLongs sum bs).1 < 2 ^ 32 ∧ (sumLongs sum bs).2.length < 8 := by
  induction sum, bs using sumLongs.induct with
  | case1 sum a b c d e f g h' bs ih =>
    obtain ⟨hping, hping_lt⟩ := onesEq_addCarry h (loadU32_lt a b c d)
    obtain ⟨hpong, hpong_lt⟩ := onesEq_addCarry hping_lt (loadU32_lt e f g h')
    obtain ⟨heq, hlt, hlen⟩ := ih hpong_lt
    rw [sumLongs]
    refine ⟨heq.trans ?_, hlt, hlen⟩
    -- pong, then ping, then the eight bytes
    refine (hpong.add (OnesEq.refl _)).trans ?_
    rw [Nat.add_assoc]
    refine (hping.add (onesEq_loadU32 e f g h' bs)).trans ?_
    rw [Nat.add_assoc]
    exact (OnesEq.refl sum).add (onesEq_loadU32 a b c d _)
  | case2 sum bs hbs =>
    rw [sumLongs]
    · refine ⟨OnesEq.refl _, h, ?_⟩
      by_contra hlen
      obtain ⟨a, b, c, d, e, f, g, h', cs, rfl⟩ := exists_eight (Nat.le_of_not_lt hlen)
      exact hbs a b c d e f g h' cs rfl
    · exact hbs

theorem onesEq_chksum1 (hlen : b.bytes.length ≤ 2 ^ 16 - 1) :
    OnesEq (lwipStandardChksum1 b) (memSum b.bytes) ∧ lwipStandardChksum1 b < 2 ^ 16 := by
  have hsum : altSum (2 ^ 8) 1 b.bytes < 2 ^ 32 := by
    have := altSum_le (v := 2 ^ 8) (w := 1) (by decide) (by decide) b.bytes
    omega
  have hlt := foldHalves_foldHalves_lt hsum
  -- the second fold does nothing when there is no carry
  have hfold : (if foldU32 (altSum (2 ^ 8) 1 b.bytes) / 2 ^ 16 ≠ 0 then
      foldU32 (foldU32 (altSum (2 ^ 8) 1 b.bytes)) else foldU32 (altSum (2 ^ 8) 1 b.bytes)) =
      foldHalves (foldHalves (altSum (2 ^ 8) 1 b.bytes)) := by
    by_cases hcarry : foldU32 (altSum (2 ^ 8) 1 b.bytes) / 2 ^ 16 = 0
    · rw [if_neg (not_not.2 hcarry), foldU32_eq, foldHalves.eq_1 (foldHalves _)]
      rw [foldU32_eq] at hcarry
      omega
    · rw [if_pos hcarry, foldU32_eq, foldU32_eq]
  have hchksum : lwipStandardChksum1 b =
      swapBytes (foldHalves (foldHalves (altSum (2 ^ 8) 1 b.bytes))) := by
    simp only [lwipStandardChksum1]
    rw [sumOctets_eq (by omega), Nat.zero_add, hfold, Nat.mod_eq_of_lt hlt, swap16_eq]
  rw [hchksum]
  refine ⟨(onesEq_swapBytes hlt).trans ?_, swapBytes_lt _⟩
  exact (((onesEq_foldHalves _).trans (onesEq_foldHalves _)).mul_left _).trans
    (onesEq_altSum b.bytes).2

/-- What versions 2 and 3 return, when they end with a sum that stands for all but the first byte. -/
theorem onesEq_of_finish (t sum : ℕ) (bs : List (BitVec 8)) {n : ℕ} (hlt : t + sum + memSum bs < 2 ^ 32)
    (heq : OnesEq (t + sum + memSum bs)
      (if b.addr % 2 = 1 then altSum (2 ^ 8) 1 b.bytes else memSum b.bytes))
    (hn : n = finish (b.addr % 2 = 1) t sum bs) : OnesEq n (memSum b.bytes) ∧ n < 2 ^ 16 := by
  obtain ⟨hfin, hfin_lt⟩ := onesEq_finish (b.addr % 2 = 1) hlt
  rw [hn]
  refine ⟨hfin.trans ?_, hfin_lt⟩
  simp only [decide_eq_true_eq]
  split_ifs at heq ⊢
  · exact (heq.mul_left _).trans (onesEq_altSum b.bytes).2
  · exact heq

theorem onesEq_chksum2 (hlen : b.bytes.length ≤ 2 ^ 16 - 1) :
    OnesEq (lwipStandardChksum2 b) (memSum b.bytes) ∧ lwipStandardChksum2 b < 2 ^ 16 := by
  obtain ⟨hhead, -⟩ := headByte_eq b
  have hsum : altSum (2 ^ 8) 1 b.bytes < 2 ^ 32 := by
    have := altSum_le (v := 2 ^ 8) (w := 1) (by decide) (by decide) b.bytes
    omega
  refine onesEq_of_finish (headByte b).1 0 (headByte b).2.bytes ?_ ?_ rfl
  · rw [Nat.add_zero, hhead]
    split_ifs
    · exact hsum
    · have := memSum_le b.bytes
      omega
  · rw [Nat.add_zero, hhead]
    exact OnesEq.refl _

theorem onesEq_chksum3 (b : Buffer) :
    OnesEq (lwipStandardChksum3 b) (memSum b.bytes) ∧ lwipStandardChksum3 b < 2 ^ 16 := by
  obtain ⟨hhead, -⟩ := headByte_eq b
  obtain ⟨halign, halign_lt⟩ := alignWord_eq (headByte b).2
  obtain ⟨hlongs, hlongs_lt, hlongs_len⟩ :=
    onesEq_sumLongs (alignWord (headByte b).2).2 halign_lt
  rw [halign] at hlongs
  set l := sumLongs (alignWord (headByte b).2).1 (alignWord (headByte b).2).2
  have hhead_lt : (headByte b).1 < 2 ^ 16 := by
    rw [headByte]
    split
    · next x bs _ =>
      have hx := x.isLt
      split_ifs
      · show x.toNat * 2 ^ 8 < 2 ^ 16
        omega
      · exact Nat.two_pow_pos 16
    · exact Nat.two_pow_pos 16
  refine onesEq_of_finish (headByte b).1 (foldU32 l.1) l.2 ?_ ?_ rfl
  · have hfold := foldHalves_le hlongs_lt
    have hrest := memSum_le l.2
    rw [foldU32_eq]
    omega
  · rw [Nat.add_assoc, ← hhead]
    exact (OnesEq.refl _).add (((onesEq_foldHalves _).add (OnesEq.refl _)).trans hlongs)

/-- **Every version** returns sixteen bits that stand for the sum of the bytes in memory order. -/
theorem onesEq_lwipChksum (alg : ChksumAlgorithm) (hlen : b.bytes.length ≤ 2 ^ 16 - 1) :
    OnesEq (lwipChksum alg b) (memSum b.bytes) ∧ lwipChksum alg b < 2 ^ 16 := by
  cases alg with
  | one => exact onesEq_chksum1 hlen
  | two => exact onesEq_chksum2 hlen
  | three => exact onesEq_chksum3 b

/-- The sum in memory order, as sixteen bits. -/
theorem lwipChksum_eq (alg : ChksumAlgorithm) (hlen : b.bytes.length ≤ 2 ^ 16 - 1) :
    lwipChksum alg b = swapBytes (onesSum (netWords b.bytes)) := by
  obtain ⟨heq, hlt⟩ := onesEq_lwipChksum alg hlen
  exact (heq.trans (onesEq_swap_onesSum b.bytes).symm).eq_of_lt hlt (swapBytes_lt _)

/-- **The three versions agree**, for every string of bytes that has a sixteen-bit length, at every
address: they return the ones' complement sum of its words in network order, with the bytes swapped for
the memory; and `inet_chksum` is the Internet checksum, in the byte order of the memory. -/
theorem chksum_versions_agree {b : Buffer} (hlen : b.bytes.length < 2 ^ 16) :
    lwipStandardChksum1 b = swapBytes (onesSum (netWords b.bytes)) ∧
      lwipStandardChksum2 b = lwipStandardChksum1 b ∧
      lwipStandardChksum3 b = lwipStandardChksum1 b ∧
      ∀ alg, inetChksum alg b = swapBytes (internetChecksum b.bytes) := by
  have hle : b.bytes.length ≤ 2 ^ 16 - 1 := by omega
  have hone := lwipChksum_eq .one hle
  refine ⟨hone, (lwipChksum_eq .two hle).trans hone.symm, (lwipChksum_eq .three hle).trans hone.symm,
    fun alg ↦ ?_⟩
  rw [inetChksum, lwipChksum_eq alg hle, internetChecksum, swapBytes_compl]
  exact (onesEq_onesSum (netWords_lt _)).2

/-- Five bytes at an odd address. -/
theorem chksum_versions_agree_odd :
    lwipStandardChksum2 ⟨1, [0x45, 0, 0xff, 0xfe, 0x80]⟩ =
      lwipStandardChksum1 ⟨1, [0x45, 0, 0xff, 0xfe, 0x80]⟩ ∧
    lwipStandardChksum1 ⟨1, [0x45, 0, 0xff, 0xfe, 0x80]⟩ = 0xffc4 :=
  ⟨(chksum_versions_agree (b := ⟨1, [0x45, 0, 0xff, 0xfe, 0x80]⟩) (by decide)).2.1, by decide⟩

end Lwip.Ipv4
