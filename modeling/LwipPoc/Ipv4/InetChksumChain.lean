import LwipPoc.Ipv4.InetChksum

/-!
# Checksums of chains

The checksum of a packet does not depend on how it is stored (`chksum_of_chain`): not on the partition
of its bytes into pbufs, which may be empty or of odd length, and not on where the pbufs lie.

The loop over the pbufs swaps the bytes of its accumulator behind every pbuf of odd length. So the
accumulator stands for the sum of the bytes so far, or for this sum multiplied: `turned`. The sum of
the next pbuf, taken as if it began at an even offset, is what has to be added in both cases.
-/

namespace Lwip.Ipv4

open Lwip.Core IpHdr

variable {alg : ChksumAlgorithm} {p p' qs : List Buffer} {acc c : ℕ} {swapped : Bool}
  {pre post bs : List (BitVec 8)}

/-- The bytes of a chain. -/
def chainBytes (p : List Buffer) : List (BitVec 8) := p.flatMap Buffer.bytes

/-- A sum whose bytes may be swapped. -/
def turned (swapped : Bool) (n : ℕ) : ℕ := if swapped = true then 2 ^ 8 * n else n

/-- Turning once more. -/
theorem onesEq_turned (swapped : Bool) (n : ℕ) :
    OnesEq (2 ^ 8 * turned swapped n) (turned (!swapped) n) := by
  cases swapped with
  | false => exact OnesEq.refl _
  | true => exact onesEq_swap_swap n

/-- **The bytes behind**: their sum is added to a turned one as it is. -/
theorem onesEq_turned_append (pre bs : List (BitVec 8)) :
    OnesEq (turned (pre.length % 2 = 1) (memSum pre) + memSum bs)
      (turned (pre.length % 2 = 1) (memSum (pre ++ bs))) := by
  simp only [memSum, altSum_append]
  rcases Nat.mod_two_eq_zero_or_one pre.length with h | h
  · simp only [h, turned, Nat.zero_ne_one, decide_false, Bool.false_eq_true, if_false, if_true]
    exact OnesEq.refl _
  · simp only [h, turned, Nat.one_ne_zero, decide_true, if_false, if_true, Nat.mul_add]
    exact (OnesEq.refl _).add (onesEq_altSum bs).2.symm

/-- **The loop over the pbufs**, behind the bytes `pre`. -/
theorem sumPbufs_spec (alg : ChksumAlgorithm) (hacc : acc < 2 ^ 16)
    (heq : OnesEq acc (turned (pre.length % 2 = 1) (memSum pre)))
    (hlen : ∀ q ∈ qs, q.bytes.length ≤ 2 ^ 16 - 1) :
    (sumPbufs alg acc (pre.length % 2 = 1) qs).1 < 2 ^ 16 ∧
      OnesEq (sumPbufs alg acc (pre.length % 2 = 1) qs).1
        (turned (sumPbufs alg acc (pre.length % 2 = 1) qs).2 (memSum (pre ++ chainBytes qs))) := by
  induction qs generalizing acc pre with
  | nil =>
    rw [chainBytes, List.flatMap_nil, List.append_nil]
    exact ⟨hacc, heq⟩
  | cons q qs ih =>
    have hbytes : chainBytes (q :: qs) = q.bytes ++ chainBytes qs := List.flatMap_cons
    have hlen' : ∀ x ∈ qs, x.bytes.length ≤ 2 ^ 16 - 1 := fun x hx ↦ hlen x (List.mem_cons_of_mem _ hx)
    obtain ⟨hq, hq_lt⟩ := onesEq_lwipChksum alg (hlen q List.mem_cons_self)
    -- one fold is enough for the sum of two numbers of sixteen bits
    have hmod : (acc + lwipChksum alg q) % 2 ^ 32 = acc + lwipChksum alg q :=
      Nat.mod_eq_of_lt (by omega)
    have hfold : foldU32 (acc + lwipChksum alg q) < 2 ^ 16 := foldHalves_lt (by omega)
    have hnext : OnesEq (foldU32 (acc + lwipChksum alg q))
        (turned (pre.length % 2 = 1) (memSum (pre ++ q.bytes))) :=
      (onesEq_foldHalves _).trans ((heq.add hq).trans (onesEq_turned_append pre q.bytes))
    rw [hbytes, ← List.append_assoc]
    simp only [sumPbufs, hmod]
    rcases Nat.mod_two_eq_zero_or_one q.bytes.length with h | h
    · have hparity : (decide (pre.length % 2 = 1)) = decide ((pre ++ q.bytes).length % 2 = 1) := by
        rw [decide_eq_decide, List.length_append]
        omega
      rw [if_neg (by omega), hparity]
      rw [hparity] at hnext
      exact ih hfold hnext hlen'
    · have hparity : (!decide (pre.length % 2 = 1)) =
          decide ((pre ++ q.bytes).length % 2 = 1) := by
        rw [← decide_not, decide_eq_decide, List.length_append]
        omega
      rw [if_pos (by omega), hparity]
      refine ih (swapBytes_lt _) ?_ hlen'
      rw [← hparity]
      exact (onesEq_swapBytes hfold).trans ((hnext.mul_left _).trans (onesEq_turned _ _))

/-- **The sum of a chain** stands for that of its bytes, however many pbufs there are. -/
theorem onesEq_chainSum_of_pbufs (alg : ChksumAlgorithm) (hlen : ∀ q ∈ p, q.bytes.length ≤ 2 ^ 16 - 1) :
    OnesEq (chainSum alg p) (memSum (chainBytes p)) ∧ chainSum alg p < 2 ^ 16 := by
  have hinit : OnesEq 0 (turned (([] : List (BitVec 8)).length % 2 = 1) (memSum [])) := OnesEq.refl 0
  obtain ⟨hlt, heq⟩ := sumPbufs_spec alg (Nat.two_pow_pos 16) hinit hlen
  rw [List.nil_append] at heq
  simp only [chainSum]
  change (sumPbufs alg 0 false p).1 < 2 ^ 16 at hlt
  change OnesEq (sumPbufs alg 0 false p).1 (turned (sumPbufs alg 0 false p).2 _) at heq
  cases hswapped : (sumPbufs alg 0 false p).2 with
  | false =>
    rw [hswapped] at heq
    exact ⟨heq, hlt⟩
  | true =>
    rw [hswapped] at heq
    exact ⟨(onesEq_swapBytes hlt).trans ((heq.mul_left _).trans (onesEq_turned true _)),
      swapBytes_lt _⟩

theorem onesEq_chainSum (alg : ChksumAlgorithm) (hlen : (chainBytes p).length ≤ 2 ^ 16 - 1) :
    OnesEq (chainSum alg p) (memSum (chainBytes p)) ∧ chainSum alg p < 2 ^ 16 :=
  onesEq_chainSum_of_pbufs alg fun _ hq ↦
    (List.sublist_flatten_of_mem (List.mem_map_of_mem hq)).length_le.trans hlen

/-! ### The pseudo header -/

/-- The pseudo header of TCP and UDP, as bytes: the addresses, zero, the protocol and the length. -/
def pseudoHeader (src dest : BitVec 32) (proto : BitVec 8) (protoLen : BitVec 16) :
    List (BitVec 8) :=
  [src.extractLsb' 0 8, src.extractLsb' 8 8, src.extractLsb' 16 8, src.extractLsb' 24 8,
    dest.extractLsb' 0 8, dest.extractLsb' 8 8, dest.extractLsb' 16 8, dest.extractLsb' 24 8,
    0, proto, protoLen.extractLsb' 8 8, protoLen.extractLsb' 0 8]

variable (src dest : BitVec 32) (proto : BitVec 8) (protoLen : BitVec 16)

@[simp] theorem length_pseudoHeader : (pseudoHeader src dest proto protoLen).length = 12 := rfl

theorem memSum_pseudoHeader : memSum (pseudoHeader src dest proto protoLen) =
    src.toNat % 2 ^ 16 + src.toNat / 2 ^ 16 % 2 ^ 16 + dest.toNat % 2 ^ 16 +
      dest.toNat / 2 ^ 16 % 2 ^ 16 + swap16 proto.toNat + swap16 protoLen.toNat := by
  have hproto := proto.isLt
  simp only [memSum, pseudoHeader, altSum, BitVec.extractLsb'_toNat, Nat.shiftRight_eq_div_pow,
    swap16, BitVec.ofNat_eq_ofNat, BitVec.toNat_ofNat]
  omega

theorem memSum_append_of_even (h : pre.length % 2 = 0) : memSum (pre ++ bs) = memSum pre + memSum bs := by
  rw [memSum, altSum_append, if_pos h]
  rfl

/-- What is complemented in `inet_chksum_pseudo`. -/
def pseudoSum (alg : ChksumAlgorithm) (p : List Buffer) : ℕ :=
  foldU32 (foldU32 (chainSum alg p + memSum (pseudoHeader src dest proto protoLen)))

theorem inetChksumPseudo_eq (alg : ChksumAlgorithm) (hlen : (chainBytes p).length ≤ 2 ^ 16 - 1) :
    inetChksumPseudo alg p src dest proto protoLen =
        2 ^ 16 - 1 - pseudoSum src dest proto protoLen alg p ∧
      OnesEq (pseudoSum src dest proto protoLen alg p)
        (memSum (pseudoHeader src dest proto protoLen ++ chainBytes p)) ∧
      pseudoSum src dest proto protoLen alg p < 2 ^ 16 := by
  obtain ⟨heq, hlt⟩ := onesEq_chainSum alg hlen
  have hswap := swapBytes_lt proto.toNat
  have hswap' := swapBytes_lt protoLen.toNat
  have hheader := memSum_pseudoHeader src dest proto protoLen
  rw [swap16_eq, swap16_eq] at hheader
  have hsum : chainSum alg p + memSum (pseudoHeader src dest proto protoLen) < 2 ^ 32 := by omega
  have hfold : pseudoSum src dest proto protoLen alg p < 2 ^ 16 := foldHalves_foldHalves_lt hsum
  refine ⟨?_, ?_, hfold⟩
  · -- none of the additions wraps
    have hacc : (((((((chainSum alg p + src.toNat % 2 ^ 16) % 2 ^ 32 +
        src.toNat / 2 ^ 16 % 2 ^ 16) % 2 ^ 32 + dest.toNat % 2 ^ 16) % 2 ^ 32 +
        dest.toNat / 2 ^ 16 % 2 ^ 16) % 2 ^ 32 + swap16 proto.toNat) % 2 ^ 32 +
        swap16 protoLen.toNat) % 2 ^ 32) =
        chainSum alg p + memSum (pseudoHeader src dest proto protoLen) := by
      rw [swap16_eq, swap16_eq]
      omega
    rw [inetChksumPseudo]
    simp only [hacc]
    exact congrArg _ (Nat.mod_eq_of_lt hfold)
  · rw [memSum_append_of_even (by rw [length_pseudoHeader]), Nat.add_comm (memSum (pseudoHeader _ _ _ _))]
    exact ((onesEq_foldHalves _).trans (onesEq_foldHalves _)).trans (heq.add (OnesEq.refl _))

/-! ### Storing a checksum -/

/-- A `u16_t` as it is stored in memory. -/
def storeU16 (n : ℕ) : List (BitVec 8) := [BitVec.ofNat 8 n, BitVec.ofNat 8 (n / 2 ^ 8)]

@[simp] theorem length_storeU16 (n : ℕ) : (storeU16 n).length = 2 := rfl

theorem memSum_storeU16 (hc : c < 2 ^ 16) : memSum (storeU16 c) = c := by
  simp only [memSum, storeU16, altSum, BitVec.toNat_ofNat]
  omega

/-- The field adds what is stored in it. -/
theorem memSum_field (hpre : pre.length % 2 = 0) (hc : c < 2 ^ 16) :
    memSum (pre ++ (storeU16 c ++ post)) = memSum (pre ++ (storeU16 0 ++ post)) + c := by
  have hfield : ∀ n, (storeU16 n).length % 2 = 0 := fun n ↦ by rw [length_storeU16]
  rw [memSum_append_of_even hpre, memSum_append_of_even hpre, memSum_append_of_even (hfield c),
    memSum_append_of_even (hfield 0), memSum_storeU16 hc, memSum_storeU16 (Nat.two_pow_pos 16)]
  omega

/-- **A sum with its own complement added** is the other zero. -/
theorem eq_of_compl_added {s s' n : ℕ} (hs : OnesEq s n) (hlt : s < 2 ^ 16)
    (hs' : OnesEq s' (n + (2 ^ 16 - 1 - s))) (hlt' : s' < 2 ^ 16) : 2 ^ 16 - 1 - s' = 0 := by
  have hall : OnesEq s' (2 ^ 16 - 1) := by
    refine hs'.trans ((hs.symm.add (OnesEq.refl _)).trans ?_)
    rw [Nat.add_sub_cancel' (by omega)]
    exact OnesEq.refl _
  rw [hall.eq_of_lt hlt' (by decide), Nat.sub_self]

theorem inetChksumPbuf_eq (alg : ChksumAlgorithm) (hlen : (chainBytes p).length ≤ 2 ^ 16 - 1) :
    inetChksumPbuf alg p = 2 ^ 16 - 1 - chainSum alg p := by
  rw [inetChksumPbuf, Nat.mod_eq_of_lt (onesEq_chainSum alg hlen).2]

/-- **Checksums do not depend on how a packet is stored**: for every chain whose bytes have a
sixteen-bit length, `inet_chksum_pbuf` is `inet_chksum` of the bytes, wherever they lie;
`inet_chksum_pseudo` is the checksum of the pseudo header and the bytes, in the byte order of the
memory; and each of the two is zero for every chain in which its result has been stored in a field that
was zero, at an even offset. -/
theorem chksum_of_chain (alg : ChksumAlgorithm) {p : List Buffer}
    (hlen : (chainBytes p).length < 2 ^ 16) :
    (∀ addr, inetChksumPbuf alg p = inetChksum alg ⟨addr, chainBytes p⟩) ∧
    (∀ src dest proto protoLen, inetChksumPseudo alg p src dest proto protoLen =
      swapBytes (internetChecksum (pseudoHeader src dest proto protoLen ++ chainBytes p))) ∧
    ∀ pre post p', pre.length % 2 = 0 → chainBytes p = pre ++ (storeU16 0 ++ post) →
      (chainBytes p' = pre ++ (storeU16 (inetChksumPbuf alg p) ++ post) →
        inetChksumPbuf alg p' = 0) ∧
      ∀ src dest proto protoLen,
        chainBytes p' = pre ++ (storeU16 (inetChksumPseudo alg p src dest proto protoLen) ++ post) →
          inetChksumPseudo alg p' src dest proto protoLen = 0 := by
  have hle : (chainBytes p).length ≤ 2 ^ 16 - 1 := by omega
  obtain ⟨hsum, hsum_lt⟩ := onesEq_chainSum alg hle
  refine ⟨fun addr ↦ ?_, fun src dest proto protoLen ↦ ?_, fun pre post p' hpre hbytes ↦
    ⟨fun hbytes' ↦ ?_, fun src dest proto protoLen hbytes' ↦ ?_⟩⟩
  · obtain ⟨hbuf, hbuf_lt⟩ := onesEq_lwipChksum alg (b := ⟨addr, chainBytes p⟩) hle
    rw [inetChksumPbuf_eq alg hle, inetChksum, (hsum.trans hbuf.symm).eq_of_lt hsum_lt hbuf_lt]
  · obtain ⟨hpseudo, heq, hlt⟩ := inetChksumPseudo_eq src dest proto protoLen alg hle
    have hnet := onesEq_swap_onesSum (pseudoHeader src dest proto protoLen ++ chainBytes p)
    rw [hpseudo, (heq.trans hnet.symm).eq_of_lt hlt (swapBytes_lt _), internetChecksum,
      swapBytes_compl]
    exact (onesEq_onesSum (netWords_lt _)).2
  · have hle' : (chainBytes p').length ≤ 2 ^ 16 - 1 := by
      rw [hbytes] at hle
      rw [hbytes']
      simpa using hle
    obtain ⟨hsum', hsum_lt'⟩ := onesEq_chainSum alg hle'
    have hc := inetChksumPbuf_eq alg hle
    rw [hbytes', memSum_field hpre (by omega), ← hbytes, hc] at hsum'
    rw [inetChksumPbuf_eq alg hle']
    exact eq_of_compl_added hsum hsum_lt hsum' hsum_lt'
  · have hle' : (chainBytes p').length ≤ 2 ^ 16 - 1 := by
      rw [hbytes] at hle
      rw [hbytes']
      simpa using hle
    obtain ⟨hc, heq, hlt⟩ := inetChksumPseudo_eq src dest proto protoLen alg hle
    obtain ⟨hc', heq', hlt'⟩ := inetChksumPseudo_eq src dest proto protoLen alg hle'
    have hheader : (pseudoHeader src dest proto protoLen).length % 2 = 0 := by
      rw [length_pseudoHeader]
    rw [memSum_append_of_even hheader, hbytes', memSum_field hpre (by omega), ← hbytes,
      ← Nat.add_assoc, ← memSum_append_of_even hheader, hc] at heq'
    rw [hc']
    exact eq_of_compl_added heq hlt heq' hlt'

/-- Eight bytes with a field, in pbufs of one, none, three and four bytes. -/
theorem chksum_of_chain_odd :
    inetChksumPbuf .two [⟨3, [0x45]⟩, ⟨8, []⟩, ⟨5, [0x80, 0, 0]⟩, ⟨0, [1, 2, 3, 0xff]⟩] =
      inetChksum .two ⟨0, [0x45, 0x80, 0, 0, 1, 2, 3, 0xff]⟩ ∧
    inetChksumPbuf .two [⟨0, [0x45, 0x80, 0xb5, 0x7e, 1, 2, 3, 0xff]⟩] = 0 := by
  have hchain := chksum_of_chain .two
    (p := [⟨3, [0x45]⟩, ⟨8, []⟩, ⟨5, [0x80, 0, 0]⟩, ⟨0, [1, 2, 3, 0xff]⟩]) (by decide)
  exact ⟨hchain.1 0, (hchain.2.2 [0x45, 0x80] [1, 2, 3, 0xff] _ rfl rfl).1 (by decide)⟩

end Lwip.Ipv4
