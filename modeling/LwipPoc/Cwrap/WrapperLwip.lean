import LwipPoc.Ipv4.InetChksum

/-!
# The exported wrappers

`lwip_inet_chksum_wrapper` of `cwrap/wrapper_lwip.c`. The wrapper declares `inet_chksum` with an `int` for the length,
where the function has a `u16_t`: it takes the lower sixteen bits of what it is passed. **Of a buffer of `2 ^ 16` bytes
or more only a part is summed**, and the result is right if the bytes behind that part add nothing to the sum.
-/

namespace Lwip.Cwrap

open Lwip.Ipv4

variable {alg : ChksumAlgorithm} {v w : ℕ} {bs cs : List (BitVec 8)}

/-- `lwip_inet_chksum_wrapper`. -/
def lwipInetChksumWrapper (alg : ChksumAlgorithm) (data : Buffer) (len : ℕ) : ℕ :=
  inetChksum alg ⟨data.addr, data.bytes.take (len % 2 ^ 16)⟩

/-! ### Sums of a part -/

theorem altSum_eq_zero (hv : 0 < v) (hw : 0 < w) : altSum v w bs = 0 ↔ ∀ b ∈ bs, b = 0 := by
  induction bs generalizing v w with
  | nil => simp [altSum]
  | cons b bs ih =>
    have hb : b.toNat = 0 ↔ b = 0 := by
      rw [← BitVec.toNat_inj]
      rfl
    rw [altSum, Nat.add_eq_zero_iff, ih hw hv, Nat.mul_eq_zero, or_iff_right hv.ne', hb, List.forall_mem_cons]

/-- Two strings of bytes have the same checksum if their sums are the same. -/
theorem internetChecksum_eq_iff :
    internetChecksum bs = internetChecksum cs ↔ OnesEq (altSum (2 ^ 8) 1 bs) (altSum (2 ^ 8) 1 cs) := by
  obtain ⟨hbs, hbs_lt⟩ := onesEq_onesSum (netWords_lt bs)
  obtain ⟨hcs, hcs_lt⟩ := onesEq_onesSum (netWords_lt cs)
  rw [sum_netWords] at hbs hcs
  rw [internetChecksum, internetChecksum]
  constructor
  · intro h
    have heq : onesSum (netWords bs) = onesSum (netWords cs) := by omega
    exact hbs.symm.trans (heq ▸ hcs)
  · intro h
    rw [((hbs.trans h).trans hcs.symm).eq_of_lt hbs_lt hcs_lt]

theorem swapBytes_internetChecksum_inj :
    swapBytes (internetChecksum bs) = swapBytes (internetChecksum cs) ↔ internetChecksum bs = internetChecksum cs := by
  have hbs : internetChecksum bs < 2 ^ 16 := by
    rw [internetChecksum]
    omega
  have hcs : internetChecksum cs < 2 ^ 16 := by
    rw [internetChecksum]
    omega
  rw [swapBytes, swapBytes]
  omega

/-- `inet_chksum` of what fits into its length. -/
theorem inetChksum_eq {b : Buffer} (hlen : b.bytes.length < 2 ^ 16) :
    inetChksum alg b = swapBytes (internetChecksum b.bytes) := by
  rw [inetChksum, lwipChksum_eq alg (by omega), internetChecksum, swapBytes_compl]
  exact (onesEq_onesSum (netWords_lt _)).2

/-! ### The wrapper -/

/-- **The bytes behind the first `len % 2 ^ 16` add nothing**: with the weights they have in the sum of all bytes,
theirs is a multiple of `2 ^ 16 - 1`, and it is not the only one that is not zero. -/
def RestAddsNothing (bs : List (BitVec 8)) : Prop :=
  let rest := bs.drop (bs.length % 2 ^ 16)
  let sum := if bs.length % 2 = 0 then altSum (2 ^ 8) 1 rest else altSum 1 (2 ^ 8) rest
  sum % (2 ^ 16 - 1) = 0 ∧ ((∃ b ∈ bs.take (bs.length % 2 ^ 16), b ≠ 0) ∨ sum = 0)

/-- **When the wrapper returns the Internet checksum** of all bytes of a buffer, in the byte order of the memory: if
and only if the bytes behind the part that is summed add nothing. -/
theorem wrapper_checksum_iff (alg : ChksumAlgorithm) (data : Buffer) :
    lwipInetChksumWrapper alg data data.bytes.length = swapBytes (internetChecksum data.bytes) ↔
      RestAddsNothing data.bytes := by
  obtain ⟨addr, bs⟩ := data
  have hmod : bs.length % 2 ^ 16 ≤ bs.length := Nat.mod_le _ _
  have hlen : (bs.take (bs.length % 2 ^ 16)).length = bs.length % 2 ^ 16 := by
    rw [List.length_take]
    omega
  have hlt : (bs.take (bs.length % 2 ^ 16)).length < 2 ^ 16 := by
    rw [hlen]
    exact Nat.mod_lt _ (Nat.two_pow_pos 16)
  have hparity : bs.length % 2 ^ 16 % 2 = bs.length % 2 := by omega
  -- the sum of all bytes is the sum of both parts
  have hsum := altSum_append (2 ^ 8) 1 (bs.take (bs.length % 2 ^ 16)) (bs.drop (bs.length % 2 ^ 16))
  rw [List.take_append_drop, hlen, hparity] at hsum
  have hzero : altSum (2 ^ 8) 1 (bs.take (bs.length % 2 ^ 16)) ≠ 0 ↔ ∃ b ∈ bs.take (bs.length % 2 ^ 16), b ≠ 0 := by
    rw [Ne, altSum_eq_zero (by decide) (by decide)]
    push Not
    rfl
  rw [lwipInetChksumWrapper, inetChksum_eq hlt, swapBytes_internetChecksum_inj, internetChecksum_eq_iff, hsum,
    RestAddsNothing, ← hzero]
  generalize altSum (2 ^ 8) 1 (bs.take (bs.length % 2 ^ 16)) = m
  generalize (if bs.length % 2 = 0 then altSum (2 ^ 8) 1 (bs.drop (bs.length % 2 ^ 16))
    else altSum 1 (2 ^ 8) (bs.drop (bs.length % 2 ^ 16))) = n
  constructor
  · rintro ⟨hmod, hiff⟩
    exact ⟨by omega, by omega⟩
  · rintro ⟨hmod, hne⟩
    exact ⟨by omega, by omega⟩

/-- **A buffer of `2 ^ 16` bytes** is taken for an empty one. -/
theorem wrapper_checksum_truncated :
    lwipInetChksumWrapper .two ⟨0, List.replicate (2 ^ 16) 1⟩ (2 ^ 16) ≠
      swapBytes (internetChecksum (List.replicate (2 ^ 16) 1)) := by
  have hempty : lwipInetChksumWrapper .two ⟨0, List.replicate (2 ^ 16) 1⟩ (2 ^ 16) =
      swapBytes (internetChecksum []) := by
    rw [lwipInetChksumWrapper, Nat.mod_self, List.take_zero]
    decide
  rw [hempty, Ne, swapBytes_internetChecksum_inj, internetChecksum_eq_iff]
  rintro ⟨-, hiff⟩
  have hone := (altSum_eq_zero (v := 2 ^ 8) (w := 1) (by decide) (by decide)).1 (hiff.1 rfl) 1
    (List.mem_replicate.2 ⟨by decide, rfl⟩)
  exact absurd hone (by decide)

end Lwip.Cwrap
