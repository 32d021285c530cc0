import LwipPoc.Ipv4.InetChksumChain

/-!
# Checksums of a part of a chain

`inet_chksum_pseudo_partial` of `ipv4/inet_chksum.c`, which sums the first `chksum_len` bytes of a chain for
UDP-Lite. It has the loop of `inet_chksum_pseudo` with a cut in it: the parity is that of the whole last pbuf
even if only a part of it was summed. This swaps the bytes of the accumulator and swaps them back behind the
loop, so that the sum is right wherever the cut is.

**What is left behind the first pbuf** decides about the assertion "delete me": it fails from `0x7fff` bytes on
(`pseudoPartial_iff`), and behind the other pbufs there is less.
-/

namespace Lwip.Ipv4

open Lwip.Core IpHdr

variable {alg : ChksumAlgorithm} {p p' qs : List Buffer} {q : Buffer} {acc n : ℕ} {swapped : Bool}
  {pre bs : List (BitVec 8)}

/-- The loop of `inet_chksum_pseudo_partial`, with so many bytes to go: the accumulator, and whether its bytes
are swapped. The assertion "delete me" may fail. -/
def sumPartial (alg : ChksumAlgorithm) : ℕ → ℕ → Bool → List Buffer → Option (ℕ × Bool)
  | _, acc, swapped, [] => some (acc, swapped)
  | chksumLen, acc, swapped, q :: qs =>
    if 0 < chksumLen then
      let chklen := if chksumLen < q.bytes.length then chksumLen else q.bytes.length
      let acc := (acc + lwipChksum alg ⟨q.addr, q.bytes.take chklen⟩) % 2 ^ 32
      let chksumLen := chksumLen - chklen
      if chksumLen < 0x7fff then
        let acc := foldU32 acc
        if q.bytes.length % 2 ≠ 0 then sumPartial alg chksumLen (swap16 acc) (!swapped) qs
        else sumPartial alg chksumLen acc swapped qs
      else none
    else some (acc, swapped)

/-- The end of `inet_chksum_pseudo` and `inet_chksum_pseudo_partial`: the pseudo header is added. -/
def pseudoEnd (acc : ℕ) (src dest : BitVec 32) (proto : BitVec 8) (protoLen : BitVec 16) : ℕ :=
  let acc := (acc + src.toNat % 2 ^ 16) % 2 ^ 32
  let acc := (acc + src.toNat / 2 ^ 16 % 2 ^ 16) % 2 ^ 32
  let acc := (acc + dest.toNat % 2 ^ 16) % 2 ^ 32
  let acc := (acc + dest.toNat / 2 ^ 16 % 2 ^ 16) % 2 ^ 32
  let acc := (acc + swap16 proto.toNat) % 2 ^ 32
  let acc := (acc + swap16 protoLen.toNat) % 2 ^ 32
  2 ^ 16 - 1 - foldU32 (foldU32 acc) % 2 ^ 16

/-- `inet_chksum_pseudo_partial`. -/
def inetChksumPseudoPartial (alg : ChksumAlgorithm) (p : List Buffer) (src dest : BitVec 32)
    (proto : BitVec 8) (protoLen chksumLen : BitVec 16) : Option ℕ :=
  (sumPartial alg chksumLen.toNat 0 false p).map fun r ↦
    pseudoEnd (if r.2 = true then swap16 r.1 else r.1) src dest proto protoLen

/-- What the first pbuf holds. -/
def firstLen (p : List Buffer) : ℕ := (p.head?.map fun q ↦ q.bytes.length).getD 0

/-! ### The pseudo header -/

section PseudoHeader

variable (src dest : BitVec 32) (proto : BitVec 8) (protoLen : BitVec 16)

theorem inetChksumPseudo_eq_pseudoEnd (alg : ChksumAlgorithm) (p : List Buffer) :
    inetChksumPseudo alg p src dest proto protoLen =
      pseudoEnd (chainSum alg p) src dest proto protoLen := rfl

/-- **The end of both functions**, behind a sum that stands for that of the bytes. -/
theorem pseudoEnd_spec (hlt : acc < 2 ^ 16) (heq : OnesEq acc (memSum bs)) :
    ∃ sum < 2 ^ 16, pseudoEnd acc src dest proto protoLen = 2 ^ 16 - 1 - sum ∧
      OnesEq sum (memSum (pseudoHeader src dest proto protoLen ++ bs)) := by
  have hproto := swapBytes_lt proto.toNat
  have hlen := swapBytes_lt protoLen.toNat
  have hheader := memSum_pseudoHeader src dest proto protoLen
  rw [swap16_eq, swap16_eq] at hheader
  set total := acc + memSum (pseudoHeader src dest proto protoLen) with htotal
  have htotal_lt : total < 2 ^ 32 := by omega
  have hfold_lt : foldHalves (foldHalves total) < 2 ^ 16 := foldHalves_foldHalves_lt htotal_lt
  refine ⟨_, hfold_lt, ?_, ?_⟩
  · -- none of the additions wraps
    have hacc : (((((((acc + src.toNat % 2 ^ 16) % 2 ^ 32 + src.toNat / 2 ^ 16 % 2 ^ 16) % 2 ^ 32 +
        dest.toNat % 2 ^ 16) % 2 ^ 32 + dest.toNat / 2 ^ 16 % 2 ^ 16) % 2 ^ 32 +
        swap16 proto.toNat) % 2 ^ 32 + swap16 protoLen.toNat) % 2 ^ 32) = total := by
      rw [swap16_eq, swap16_eq]
      omega
    rw [pseudoEnd]
    simp only [hacc]
    exact congrArg _ (Nat.mod_eq_of_lt hfold_lt)
  · rw [memSum_append_of_even (by rw [length_pseudoHeader]), Nat.add_comm (memSum (pseudoHeader _ _ _ _))]
    exact ((onesEq_foldHalves _).trans (onesEq_foldHalves _)).trans (heq.add (OnesEq.refl _))

theorem pseudoEnd_eq (hlt : acc < 2 ^ 16) (heq : OnesEq acc (memSum bs)) :
    pseudoEnd acc src dest proto protoLen =
      swapBytes (internetChecksum (pseudoHeader src dest proto protoLen ++ bs)) := by
  obtain ⟨sum, hsum, hend, hbytes⟩ := pseudoEnd_spec src dest proto protoLen hlt heq
  have hnet := onesEq_swap_onesSum (pseudoHeader src dest proto protoLen ++ bs)
  rw [hend, (hbytes.trans hnet.symm).eq_of_lt hsum (swapBytes_lt _), internetChecksum, swapBytes_compl]
  exact (onesEq_onesSum (netWords_lt _)).2

end PseudoHeader

/-! ### The loop -/

/-- What stands for the sum of the bytes `pre`, when the loop has come to a pbuf or to the cut: the parity is
that of the bytes, unless nothing is left to sum. -/
structure SumsTo (n acc : ℕ) (swapped : Bool) (pre : List (BitVec 8)) : Prop where
  lt : acc < 2 ^ 16
  eq : OnesEq acc (turned swapped (memSum pre))
  parity : 0 < n → swapped = decide (pre.length % 2 = 1)

/-- **One pbuf**, of which up to `n` bytes are summed. -/
theorem SumsTo.step (alg : ChksumAlgorithm) (h : SumsTo n acc swapped pre) (hn : 0 < n)
    (hq : q.bytes.length < 2 ^ 16) {acc' : ℕ}
    (hacc' : acc' = foldU32 ((acc + lwipChksum alg ⟨q.addr, q.bytes.take n⟩) % 2 ^ 32)) :
    (q.bytes.length % 2 ≠ 0 →
      SumsTo (n - q.bytes.length) (swap16 acc') (!swapped) (pre ++ q.bytes.take n)) ∧
    (¬q.bytes.length % 2 ≠ 0 →
      SumsTo (n - q.bytes.length) acc' swapped (pre ++ q.bytes.take n)) := by
  have htake : (q.bytes.take n).length = min n q.bytes.length := List.length_take
  obtain ⟨hsum, hsum_lt⟩ := onesEq_lwipChksum alg (b := ⟨q.addr, q.bytes.take n⟩) (by
    rw [htake]
    omega)
  have hlt := h.lt
  have hmod : (acc + lwipChksum alg ⟨q.addr, q.bytes.take n⟩) % 2 ^ 32 =
      acc + lwipChksum alg ⟨q.addr, q.bytes.take n⟩ := Nat.mod_eq_of_lt (by omega)
  rw [hmod] at hacc'
  have hfold : acc' < 2 ^ 16 := hacc' ▸ foldHalves_lt (by omega)
  have hparity := h.parity hn
  have hnext : OnesEq acc' (turned swapped (memSum (pre ++ q.bytes.take n))) := by
    rw [hacc', hparity]
    refine (onesEq_foldHalves _).trans (OnesEq.trans ?_ (onesEq_turned_append pre (q.bytes.take n)))
    rw [← hparity]
    exact h.eq.add hsum
  -- if something is left, the whole pbuf was summed
  have hlen : 0 < n - q.bytes.length →
      (pre ++ q.bytes.take n).length = pre.length + q.bytes.length := fun hpos ↦ by
    rw [List.length_append, htake, min_eq_right (by omega)]
  refine ⟨fun hodd ↦ ⟨swapBytes_lt _, ?_, fun hpos ↦ ?_⟩, fun heven ↦ ⟨hfold, hnext, fun hpos ↦ ?_⟩⟩
  · exact (onesEq_swapBytes hfold).trans ((hnext.mul_left _).trans (onesEq_turned _ _))
  · rw [hparity, ← decide_not, decide_eq_decide, hlen hpos]
    omega
  · rw [hparity, decide_eq_decide, hlen hpos]
    omega

/-- The length that is summed of a pbuf. -/
theorem take_chklen (n : ℕ) (bs : List (BitVec 8)) :
    bs.take (if n < bs.length then n else bs.length) = bs.take n ∧
      n - (if n < bs.length then n else bs.length) = n - bs.length := by
  split_ifs with h
  · exact ⟨rfl, by omega⟩
  · exact ⟨by rw [List.take_of_length_le (le_refl _), List.take_of_length_le (by omega)], rfl⟩

/-- The loop at a pbuf, as long as there is something to sum. -/
theorem sumPartial_cons (alg : ChksumAlgorithm) (qs : List Buffer) (h : SumsTo n acc swapped pre)
    (hn : 0 < n) (hassert : n - q.bytes.length < 0x7fff) (hq : q.bytes.length < 2 ^ 16) :
    ∃ acc' swapped', sumPartial alg n acc swapped (q :: qs) =
        sumPartial alg (n - q.bytes.length) acc' swapped' qs ∧
      SumsTo (n - q.bytes.length) acc' swapped' (pre ++ q.bytes.take n) := by
  obtain ⟨htake, hsub⟩ := take_chklen n q.bytes
  simp only [sumPartial, htake, hsub, if_pos hn, if_pos hassert]
  split_ifs with hodd
  · exact ⟨_, _, rfl, (h.step alg hn hq rfl).1 hodd⟩
  · exact ⟨_, _, rfl, (h.step alg hn hq rfl).2 hodd⟩

/-- **The loop** sums the bytes in front of the cut, once the assertion cannot fail any more. -/
theorem sumPartial_spec (alg : ChksumAlgorithm) (h : SumsTo n acc swapped pre) (hn : n < firstLen qs + 0x7fff)
    (hle : n ≤ (chainBytes qs).length) (hlen : (chainBytes qs).length < 2 ^ 16) :
    ∃ acc' swapped', sumPartial alg n acc swapped qs = some (acc', swapped') ∧
      SumsTo 0 acc' swapped' (pre ++ (chainBytes qs).take n) := by
  induction qs generalizing n acc swapped pre with
  | nil =>
    obtain rfl : n = 0 := Nat.le_zero.1 hle
    refine ⟨acc, swapped, rfl, ?_⟩
    rw [List.take_zero, List.append_nil]
    exact h
  | cons q qs ih =>
    have hbytes : chainBytes (q :: qs) = q.bytes ++ chainBytes qs := List.flatMap_cons
    rw [hbytes, List.length_append] at hle hlen
    rcases Nat.eq_zero_or_pos n with rfl | hpos
    · refine ⟨acc, swapped, rfl, ?_⟩
      rw [List.take_zero, List.append_nil]
      exact h
    · have hassert : n - q.bytes.length < 0x7fff := by
        have : n < q.bytes.length + 0x7fff := hn
        omega
      obtain ⟨acc', swapped', hstep, hsums⟩ := sumPartial_cons alg qs h hpos hassert (by omega)
      rw [hstep, hbytes, List.take_append, ← List.append_assoc]
      exact ih hsums (by omega) (by omega) (by omega)

/-- The bytes are swapped back behind the loop. -/
theorem SumsTo.swapBack (h : SumsTo n acc swapped pre) :
    OnesEq (if swapped = true then swap16 acc else acc) (memSum pre) ∧
      (if swapped = true then swap16 acc else acc) < 2 ^ 16 := by
  obtain ⟨hlt, heq, -⟩ := h
  cases swapped with
  | false => exact ⟨heq, hlt⟩
  | true => exact ⟨(onesEq_swapBytes hlt).trans ((heq.mul_left _).trans (onesEq_turned true _)), swapBytes_lt _⟩

/-- **A header in the first pbuf**, and only that is summed. -/
theorem pseudoPartial_header (alg : ChksumAlgorithm) (qs : List Buffer) (src dest : BitVec 32) (proto : BitVec 8)
    (protoLen : BitVec 16) {hdr pay : List (BitVec 8)} (hbytes : q.bytes = hdr ++ pay) (hne : hdr ≠ [])
    (hq : q.bytes.length < 2 ^ 16) :
    ∃ sum < 2 ^ 16, inetChksumPseudoPartial alg (q :: qs) src dest proto protoLen (BitVec.ofNat 16 hdr.length) =
        some (2 ^ 16 - 1 - sum) ∧ OnesEq sum (memSum (pseudoHeader src dest proto protoLen ++ hdr)) := by
  have hle : hdr.length ≤ q.bytes.length := by
    rw [hbytes, List.length_append]
    exact Nat.le_add_right _ _
  have hinit : SumsTo hdr.length 0 false [] := ⟨Nat.two_pow_pos 16, OnesEq.refl 0, fun _ ↦ rfl⟩
  obtain ⟨acc, swapped, hloop, hsums⟩ := sumPartial_cons alg qs hinit (List.length_pos_iff.2 hne) (by omega) hq
  -- nothing is left behind the header
  rw [Nat.sub_eq_zero_of_le hle] at hloop hsums
  rw [List.nil_append, hbytes, List.take_left] at hsums
  have hend : sumPartial alg 0 acc swapped qs = some (acc, swapped) := by
    rcases qs with - | ⟨q, qs⟩
    · rfl
    · rw [sumPartial, if_neg (lt_irrefl 0)]
  obtain ⟨hback, hback_lt⟩ := hsums.swapBack
  obtain ⟨sum, hsum, hpseudo, heq⟩ := pseudoEnd_spec src dest proto protoLen hback_lt hback
  refine ⟨sum, hsum, ?_, heq⟩
  rw [inetChksumPseudoPartial, BitVec.toNat_ofNat, Nat.mod_eq_of_lt (by omega), hloop, hend, Option.map_some, hpseudo]

/-- The assertion fails behind the first pbuf. -/
theorem sumPartial_none (hn : firstLen p + 0x7fff ≤ n) (hp : p ≠ []) :
    sumPartial alg n acc swapped p = none := by
  obtain ⟨q, qs, rfl⟩ := List.exists_cons_of_ne_nil hp
  have hle : q.bytes.length + 0x7fff ≤ n := hn
  obtain ⟨-, hsub⟩ := take_chklen n q.bytes
  simp only [sumPartial, hsub]
  rw [if_pos (by omega), if_neg (by omega)]

/-- The function does what it is for: no assertion fails, and the checksum is that of the pseudo header and the
first `chksumLen` bytes, as `inet_chksum_pseudo` computes it for every chain that holds just these. -/
def PartialOk (alg : ChksumAlgorithm) (p : List Buffer) (src dest : BitVec 32) (proto : BitVec 8)
    (protoLen chksumLen : BitVec 16) : Prop :=
  ∃ c, inetChksumPseudoPartial alg p src dest proto protoLen chksumLen = some c ∧
    c = swapBytes (internetChecksum
      (pseudoHeader src dest proto protoLen ++ (chainBytes p).take chksumLen.toNat)) ∧
    ∀ p', chainBytes p' = (chainBytes p).take chksumLen.toNat →
      inetChksumPseudo alg p' src dest proto protoLen = c

/-- **The checksum of a part of a chain** is right, for every chain and every length in it, if and only if less
than `0x7fff` of its bytes lie behind the first pbuf. -/
theorem pseudoPartial_iff (alg : ChksumAlgorithm) {p : List Buffer} (src dest : BitVec 32) (proto : BitVec 8)
    (protoLen : BitVec 16) {chksumLen : BitVec 16} (hlen : (chainBytes p).length < 2 ^ 16)
    (hle : chksumLen.toNat ≤ (chainBytes p).length) :
    PartialOk alg p src dest proto protoLen chksumLen ↔ chksumLen.toNat < firstLen p + 0x7fff := by
  constructor
  · rintro ⟨c, hc, -⟩
    by_contra hn
    have hp : p ≠ [] := by
      rintro rfl
      exact hn (lt_of_le_of_lt hle (Nat.zero_lt_succ _))
    rw [inetChksumPseudoPartial, sumPartial_none (Nat.le_of_not_lt hn) hp] at hc
    cases hc
  · intro hn
    have hinit : SumsTo chksumLen.toNat 0 false [] := ⟨Nat.two_pow_pos 16, OnesEq.refl 0, fun _ ↦ rfl⟩
    obtain ⟨acc, swapped, hrun, hsums⟩ := sumPartial_spec alg hinit hn hle hlen
    rw [List.nil_append] at hsums
    have hback := hsums.swapBack
    refine ⟨_, by rw [inetChksumPseudoPartial, hrun]; rfl, pseudoEnd_eq _ _ _ _ hback.2 hback.1,
      fun p' hp' ↦ ?_⟩
    have hlen' : (chainBytes p').length ≤ 2 ^ 16 - 1 := by
      rw [hp', List.length_take]
      omega
    obtain ⟨hsum, hsum_lt⟩ := onesEq_chainSum alg hlen'
    rw [inetChksumPseudo_eq_pseudoEnd, pseudoEnd_eq _ _ _ _ hsum_lt hsum, hp']
    exact (pseudoEnd_eq _ _ _ _ hback.2 hback.1).symm

/-- A cut in the second of two pbufs of odd length. -/
theorem pseudoPartial_iff_cut :
    PartialOk .two [⟨0, [1, 2, 3]⟩, ⟨7, [4, 5, 6]⟩] 0x0100007f 0x0100007f 136 6 5 ↔ 5 < 3 + 0x7fff :=
  pseudoPartial_iff .two 0x0100007f 0x0100007f 136 6 (by decide) (by decide)

/-- A datagram of UDP-Lite whose header is in a pbuf of its own, and so many bytes behind it. -/
def udpliteChain (n : ℕ) : List Buffer := [⟨0, List.replicate 8 0⟩, ⟨8, List.replicate n 0⟩]

theorem length_udpliteChain (n : ℕ) : (chainBytes (udpliteChain n)).length = 8 + n := by
  simp only [chainBytes, udpliteChain, List.flatMap_cons, List.flatMap_nil, List.length_append,
    List.length_replicate, List.length_nil, Nat.add_zero]

/-- The assertion fails when `0x7fff` bytes behind the header are to be summed. -/
theorem not_pseudoPartial :
    ¬∀ p : List Buffer, (chainBytes p).length < 2 ^ 16 → ∀ chksumLen : BitVec 16,
      chksumLen.toNat ≤ (chainBytes p).length → PartialOk .two p 0 0 136 chksumLen chksumLen := by
  intro h
  have hlen := length_udpliteChain 0x7fff
  obtain ⟨c, hc, -⟩ := h (udpliteChain 0x7fff) (by rw [hlen]; decide) 0x8007 (by rw [hlen]; decide)
  have hnone : sumPartial .two (8 + 0x7fff) 0 false (udpliteChain 0x7fff) = none :=
    sumPartial_none (show firstLen (udpliteChain 0x7fff) + 0x7fff ≤ 8 + 0x7fff from le_refl _) (List.cons_ne_nil _ _)
  rw [inetChksumPseudoPartial, show BitVec.toNat (0x8007 : BitVec 16) = 8 + 0x7fff from rfl, hnone] at hc
  cases hc

end Lwip.Ipv4
