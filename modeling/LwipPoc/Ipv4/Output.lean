import LwipPoc.Ipv4.ByteOrder
import LwipPoc.Ipv4.Input

/-!
# The header that is sent

`ip_output_if_opt` of `ipv4/ip.c`, with the checksum that it accumulates field by field
(`CHECKSUM_GEN_IP_INLINE`), in a memory of either byte order. The first pbuf has some room in front of its
payload, into which the options and the header are written.

**What is accumulated is the sum of the header**, with nothing in the place of the checksum
(`inlineSum_eq`): the fields are words of the memory, the options a number of words. So its complement is what
`inet_chksum` returns for this header, and makes it verify (`ipOutputIfOpt_spec`).
-/

namespace Lwip.Ipv4

open Lwip.Core IpHdr

/-- `LWIP_MAKE_U16`. -/
def ByteOrder.makeU16 : ByteOrder → BitVec 8 → BitVec 8 → ℕ
  | little, a, b => a.toNat <<< 8 ||| b.toNat
  | big, a, b => b.toNat <<< 8 ||| a.toNat

/-- The bytes of a `u32_t`. -/
def ByteOrder.bytes32 : ByteOrder → U32 → List (BitVec 8)
  | little, a => [a.extractLsb' 0 8, a.extractLsb' 8 8, a.extractLsb' 16 8, a.extractLsb' 24 8]
  | big, a => [a.extractLsb' 24 8, a.extractLsb' 16 8, a.extractLsb' 8 8, a.extractLsb' 0 8]

/-- The bytes of a `u16_t`. -/
def ByteOrder.bytes16 (o : ByteOrder) (n : ℕ) : List (BitVec 8) := [(o.store n).1, (o.store n).2]

/-- The first pbuf of a packet that is sent. -/
structure OutBuf where
  first : Pbuf
  /-- The bytes in front of the payload; there are none in a `PBUF_REF` or `PBUF_ROM`. -/
  room : ℕ
  /-- `len` counts the whole block in a `u16_t`. -/
  fits : room + first.len < 2 ^ 16

/-- What is written in front takes the room. -/
theorem OutBuf.fits_header (b : OutBuf) {bytes : List (BitVec 8)} (h : bytes.length ≤ b.room) (totLen : ℕ) :
    b.room - bytes.length + (⟨bytes ++ b.first.payload, totLen⟩ : Pbuf).len < 2 ^ 16 := by
  have hfits := b.fits
  simp only [Pbuf.len, List.length_append] at hfits ⊢
  omega

/-- `pbuf_header`, and what is then written in front. -/
def OutBuf.header (b : OutBuf) (bytes : List (BitVec 8)) : Option OutBuf :=
  if h : bytes.length ≤ b.room then
    some ⟨⟨bytes ++ b.first.payload, (b.first.totLen + bytes.length) % 2 ^ 16⟩, b.room - bytes.length,
      b.fits_header h _⟩
  else none

/-- The options, and zeros up to a multiple of four bytes. -/
def alignedOptions (opts : List (BitVec 8)) : List (BitVec 8) :=
  opts ++ List.replicate ((opts.length + 3) / 4 * 4 - opts.length) 0

/-- What the caller says about the header. -/
structure OutParams where
  src : U32
  dest : U32
  ttl : BitVec 8
  tos : BitVec 8
  proto : BitVec 8
  options : List (BitVec 8)

/-- `ip_hlen`. -/
def OutParams.hlen (a : OutParams) : ℕ := ipHlen + (alignedOptions a.options).length

/-- `_v_hl`. -/
def OutParams.vhl (a : OutParams) : BitVec 8 := BitVec.ofNat 8 (4 <<< 4 ||| a.hlen / 4)

/-- The fields in the order in which they are added to `chk_sum`, for a header with these lengths. -/
def inlineSum (o : ByteOrder) (a : OutParams) (src : U32) (totLen ipId : ℕ) : ℕ :=
  let chkSum := (sumWordsIn o 0 (alignedOptions a.options)).1
  let chkSum := (chkSum + o.makeU16 a.proto a.ttl) % 2 ^ 32
  let chkSum := (chkSum + a.dest.toNat % 2 ^ 16) % 2 ^ 32
  let chkSum := (chkSum + a.dest.toNat / 2 ^ 16) % 2 ^ 32
  let chkSum := (chkSum + o.makeU16 a.tos a.vhl) % 2 ^ 32
  let chkSum := (chkSum + o.htons totLen) % 2 ^ 32
  let chkSum := (chkSum + o.htons ipId) % 2 ^ 32
  let chkSum := (chkSum + src.toNat % 2 ^ 16) % 2 ^ 32
  (chkSum + src.toNat / 2 ^ 16) % 2 ^ 32

/-- The end of the accumulation: two folds, and the complement. -/
def inlineChksum (chkSum : ℕ) : ℕ :=
  let chkSum := (chkSum / 2 ^ 16 + chkSum % 2 ^ 16) % 2 ^ 32
  let chkSum := (chkSum / 2 ^ 16 + chkSum) % 2 ^ 32
  (2 ^ 32 - 1 - chkSum) % 2 ^ 16

/-- The header in memory, with this in the place of the checksum. -/
def outHdr (o : ByteOrder) (a : OutParams) (src : U32) (totLen ipId chksum : ℕ) : List (BitVec 8) :=
  [a.vhl, a.tos] ++ o.bytes16 (o.htons totLen) ++ o.bytes16 (o.htons ipId) ++ [0, 0] ++ [a.ttl, a.proto] ++
    o.bytes16 chksum ++ o.bytes32 src ++ o.bytes32 a.dest

/-- **`ip_output_if_opt`**, if it makes the header and the interface has this address: the packet that is passed
on to the interface, to `ip_frag` or to the loopback queue, and the next `ip_id`. -/
def ipOutputIfOpt (o : ByteOrder) (b : OutBuf) (a : OutParams) (netifAddr : U32) (ipId : BitVec 16) :
    Except ErrT (OutBuf × BitVec 16) :=
  match b.header (alignedOptions a.options) with
  | none => .error .buf
  | some b =>
    let totLen := (b.first.totLen + ipHlen) % 2 ^ 16
    -- `ip_addr_isany`
    let src := if a.src = 0 then netifAddr else a.src
    let chksum := inlineChksum (inlineSum o a src totLen ipId.toNat)
    match b.header (outHdr o a src totLen ipId.toNat chksum) with
    | none => .error .buf
    | some b => .ok (b, ipId + 1)

/-! ### Words in memory -/

variable {o : ByteOrder} {a : OutParams} {b r : OutBuf} {opts bs cs : List (BitVec 8)} {c n : ℕ}

theorem makeU16_eq (o : ByteOrder) (x y : BitVec 8) : o.makeU16 x y = o.load y x := by
  have hor : ∀ x y : BitVec 8, x.toNat <<< 8 ||| y.toNat = x.toNat * 2 ^ 8 + y.toNat := fun x y ↦ by
    rw [← Nat.shiftLeft_add_eq_or_of_lt y.isLt, Nat.shiftLeft_eq]
  rcases o with _ | _
  · simp only [ByteOrder.makeU16, hor, ByteOrder.load, ByteOrder.fst, ByteOrder.snd]
    omega
  · simp only [ByteOrder.makeU16, hor, ByteOrder.load, ByteOrder.fst, ByteOrder.snd]
    omega

theorem memSumIn_append (o : ByteOrder) (cs : List (BitVec 8)) (h : bs.length % 2 = 0) :
    memSumIn o (bs ++ cs) = memSumIn o bs + memSumIn o cs := by
  rw [memSumIn, altSum_append, if_pos h]
  rfl

theorem memSumIn_pair (o : ByteOrder) (x y : BitVec 8) : memSumIn o [x, y] = o.load x y := by
  rw [memSumIn, altSum, altSum, altSum, ByteOrder.load, Nat.mul_comm, Nat.mul_comm y.toNat, Nat.add_zero]

theorem memSumIn_bytes16 (o : ByteOrder) (hc : c < 2 ^ 16) : memSumIn o (o.bytes16 c) = c := by
  rw [ByteOrder.bytes16, memSumIn_pair, load_store o hc]

theorem memSumIn_bytes32 (o : ByteOrder) (x : U32) :
    memSumIn o (o.bytes32 x) = x.toNat % 2 ^ 16 + x.toNat / 2 ^ 16 := by
  have hx := x.isLt
  rcases o with _ | _
  · simp only [memSumIn, ByteOrder.bytes32, altSum, ByteOrder.fst, ByteOrder.snd, BitVec.extractLsb'_toNat,
      Nat.shiftRight_eq_div_pow]
    omega
  · simp only [memSumIn, ByteOrder.bytes32, altSum, ByteOrder.fst, ByteOrder.snd, BitVec.extractLsb'_toNat,
      Nat.shiftRight_eq_div_pow]
    omega

theorem htons_lt (o : ByteOrder) (hn : n < 2 ^ 16) : o.htons n < 2 ^ 16 := by
  rcases o with _ | _
  · exact swapBytes_lt n
  · exact hn

@[simp] theorem length_bytes16 (o : ByteOrder) (n : ℕ) : (o.bytes16 n).length = 2 := rfl

@[simp] theorem length_bytes32 (o : ByteOrder) (x : U32) : (o.bytes32 x).length = 4 := by
  rcases o with _ | _ <;> rfl

@[simp] theorem length_outHdr (o : ByteOrder) (a : OutParams) (src : U32) (totLen ipId c : ℕ) :
    (outHdr o a src totLen ipId c).length = 20 := by
  simp [outHdr]

/-- The length of the options is a multiple of four. -/
theorem length_alignedOptions (opts : List (BitVec 8)) :
    (alignedOptions opts).length = (opts.length + 3) / 4 * 4 := by
  rw [alignedOptions, List.length_append, List.length_replicate]
  omega

/-- The sum of a header. -/
theorem memSumIn_outHdr (o : ByteOrder) (a : OutParams) (src : U32) {totLen ipId : ℕ}
    (htot : totLen < 2 ^ 16) (hid : ipId < 2 ^ 16) (hc : c < 2 ^ 16) :
    memSumIn o (outHdr o a src totLen ipId c) =
      o.load a.vhl a.tos + o.htons totLen + o.htons ipId + o.load a.ttl a.proto + c +
        (src.toNat % 2 ^ 16 + src.toNat / 2 ^ 16) + (a.dest.toNat % 2 ^ 16 + a.dest.toNat / 2 ^ 16) := by
  have hzero : memSumIn o [0, 0] = 0 := by
    rw [memSumIn_pair, ByteOrder.load]
    simp
  rw [outHdr, memSumIn_append _ _ (by simp), memSumIn_append _ _ (by simp), memSumIn_append _ _ (by simp),
    memSumIn_append _ _ (by simp), memSumIn_append _ _ (by simp), memSumIn_append _ _ (by simp),
    memSumIn_append _ _ (by simp), hzero, memSumIn_pair, memSumIn_pair, memSumIn_bytes16 o (htons_lt o htot),
    memSumIn_bytes16 o (htons_lt o hid), memSumIn_bytes16 o hc, memSumIn_bytes32, memSumIn_bytes32,
    Nat.add_zero]

/-! ### The accumulated sum -/

/-- The sum of the words of an even number of bytes. -/
theorem sumWordsIn_fst (o : ByteOrder) (heven : bs.length % 2 = 0) (hlt : n + memSumIn o bs < 2 ^ 32) :
    (sumWordsIn o n bs).1 = n + memSumIn o bs := by
  have hrest : (sumWordsIn o n bs).2 = [] := by
    clear hlt
    induction n, bs using sumWordsIn.induct o with
    | case1 n => rfl
    | case2 n x => simp at heven
    | case3 n x y bs ih =>
      rw [sumWordsIn]
      refine ih ?_
      simp only [List.length_cons] at heven
      omega
  have hsum := sumWordsIn_eq hlt
  rw [hrest] at hsum
  simpa using hsum

/-- **What is accumulated** is the sum of the header, with zero in the place of the checksum. -/
theorem inlineSum_eq (o : ByteOrder) (hopts : a.options.length ≤ 40) (src : U32) {totLen ipId : ℕ}
    (htot : totLen < 2 ^ 16) (hid : ipId < 2 ^ 16) :
    inlineSum o a src totLen ipId =
      memSumIn o (outHdr o a src totLen ipId 0 ++ alignedOptions a.options) := by
  have hlen := length_alignedOptions a.options
  have hle := (memSumIn_le o (alignedOptions a.options)).1
  have hoptions := @sumWordsIn_fst (alignedOptions a.options) 0 o (by omega) (by omega)
  have hvhl := load_lt o a.vhl a.tos
  have hproto := load_lt o a.ttl a.proto
  have htot' := htons_lt o htot
  have hid' := htons_lt o hid
  have hsrc := src.isLt
  have hdest := a.dest.isLt
  rw [memSumIn_append _ _ (by simp), memSumIn_outHdr o a src htot hid (by decide), inlineSum, makeU16_eq,
    makeU16_eq, hoptions]
  omega

/-- The second fold is not masked, and what is cut off is the carry that was added. -/
theorem inlineChksum_eq (hn : n < 2 ^ 32) :
    inlineChksum n = 2 ^ 16 - 1 - foldHalves (foldHalves n) := by
  rw [inlineChksum, foldHalves, foldHalves]
  omega

/-- **The accumulated checksum** is that of the bytes, wherever they lie. -/
theorem inlineChksum_memSumIn (o : ByteOrder) (addr : ℕ) (hlen : bs.length < 2 ^ 16) :
    inlineChksum (memSumIn o bs) = inetChksumIn o ⟨addr, bs⟩ := by
  have hle := (memSumIn_le o bs).1
  have hlt : memSumIn o bs < 2 ^ 32 := by omega
  obtain ⟨heq, hstd⟩ := onesEq_standardChksumIn o (b := ⟨addr, bs⟩) hlen
  have hfold := (onesEq_foldHalves (foldHalves (memSumIn o bs))).trans (onesEq_foldHalves _)
  rw [inlineChksum_eq hlt, inetChksumIn,
    (hfold.trans heq.symm).eq_of_lt (foldHalves_foldHalves_lt hlt) hstd]

/-- The checksum completes the sum. -/
theorem inetChksumIn_spec (o : ByteOrder) (addr : ℕ) (hlen : bs.length < 2 ^ 16) :
    (memSumIn o bs + inetChksumIn o ⟨addr, bs⟩) % (2 ^ 16 - 1) = 0 ∧ inetChksumIn o ⟨addr, bs⟩ < 2 ^ 16 := by
  obtain ⟨⟨hmod, -⟩, hlt⟩ := onesEq_standardChksumIn o (b := ⟨addr, bs⟩) hlen
  dsimp only at hmod
  rw [inetChksumIn]
  omega

/-! ### The header of the packet -/

/-- The checks of `ip_input` on a packet that lies at an address, in either byte order. -/
def headerChecksIn (o : ByteOrder) (addr : ℕ) (h : IpHdr) (first : Pbuf) : Bool :=
  h.version = 4 && h.hl * 4 ≤ first.len && h.len ≤ first.totLen &&
    inetChksumIn o ⟨addr, first.payload.take (h.hl * 4)⟩ = 0

theorem headerChecksIn_little (h : IpHdr) (first : Pbuf) :
    headerChecksIn .little 0 h first = headerChecks h first := by
  have hlen : (first.payload.take (h.hl * 4)).length < 2 ^ 16 := by
    have : h.hl < 16 := Nat.mod_lt _ (by decide)
    rw [List.length_take]
    omega
  rw [headerChecksIn, headerChecks, inetChksumIn_little hlen]

/-- A field in network order. -/
theorem bytes16_htons (o : ByteOrder) (hn : n < 2 ^ 16) :
    o.bytes16 (o.htons n) = [BitVec.ofNat 8 (n / 2 ^ 8), BitVec.ofNat 8 n] := by
  rcases o with _ | _
  · have hlow : n % 2 ^ 8 < 2 ^ 8 := Nat.mod_lt _ (by decide)
    have hhigh : n / 2 ^ 8 < 2 ^ 8 := by omega
    have h1 : BitVec.ofNat 8 (swap16 n / 1) = BitVec.ofNat 8 (n / 2 ^ 8) := by
      refine BitVec.eq_of_toNat_eq ?_
      rw [BitVec.toNat_ofNat, BitVec.toNat_ofNat, swap16]
      omega
    have h2 : BitVec.ofNat 8 (swap16 n / 2 ^ 8) = BitVec.ofNat 8 n := by
      refine BitVec.eq_of_toNat_eq ?_
      rw [BitVec.toNat_ofNat, BitVec.toNat_ofNat, swap16, Nat.mod_eq_of_lt hhigh]
      generalize n % 2 ^ 8 = x at *
      generalize n / 2 ^ 8 = y at *
      omega
    exact congrArg₂ (fun x y ↦ [x, y]) h1 h2
  · rw [ByteOrder.bytes16, ByteOrder.store]
    exact congrArg (fun x ↦ [BitVec.ofNat 8 (n / 2 ^ 8), BitVec.ofNat 8 x]) (Nat.div_one n)

/-- The header length, in the byte that it shares with the version. -/
theorem toNat_vhl (hopts : a.options.length ≤ 40) :
    a.vhl.toNat = 64 + a.hlen / 4 ∧ a.hlen / 4 * 4 = a.hlen ∧ a.hlen / 4 < 16 := by
  have hlen := length_alignedOptions a.options
  have hhlen : a.hlen = 20 + (alignedOptions a.options).length := rfl
  have hlt : a.hlen / 4 < 2 ^ 4 := by omega
  rw [OutParams.vhl, ← Nat.shiftLeft_add_eq_or_of_lt hlt, BitVec.toNat_ofNat]
  exact ⟨by omega, by omega, hlt⟩

/-- What the fields of the header are read as. -/
theorem readHdr_outHdr (o : ByteOrder) (hopts : a.options.length ≤ 40) (src : U32) {totLen : ℕ}
    (htot : totLen < 2 ^ 16) (ipId chksum : ℕ) (rest : List (BitVec 8)) (behind : ℕ → BitVec 8) :
    (readHdr (bytesAt (outHdr o a src totLen ipId chksum ++ rest) behind)).version = 4 ∧
      (readHdr (bytesAt (outHdr o a src totLen ipId chksum ++ rest) behind)).hl * 4 = a.hlen ∧
      (readHdr (bytesAt (outHdr o a src totLen ipId chksum ++ rest) behind)).len = totLen := by
  obtain ⟨hvhl, hfour, hlt⟩ := toNat_vhl hopts
  have hbytes : outHdr o a src totLen ipId chksum ++ rest =
      a.vhl :: a.tos :: BitVec.ofNat 8 (totLen / 2 ^ 8) :: BitVec.ofNat 8 totLen ::
        ((outHdr o a src totLen ipId chksum).drop 4 ++ rest) := by
    rw [outHdr, bytes16_htons o htot]
    rfl
  rw [hbytes]
  refine ⟨?_, ?_, ?_⟩
  · show a.vhl.toNat / 16 = 4
    omega
  · show a.vhl.toNat % 16 * 4 = a.hlen
    omega
  · show (BitVec.ofNat 8 (totLen / 2 ^ 8)).toNat * 2 ^ 8 + (BitVec.ofNat 8 totLen).toNat = totLen
    rw [BitVec.toNat_ofNat, BitVec.toNat_ofNat]
    omega

/-- **The header that is sent**: for all parameters and every string of options, the checksum that was
accumulated is what `inet_chksum` returns for the header with zero in its place, and the packet passes the
checks of `ip_input`, with the length that its header says. -/
theorem ipOutputIfOpt_spec (o : ByteOrder) (hopts : a.options.length ≤ 40) {netifAddr : U32}
    {ipId next : BitVec 16} (hcall : ipOutputIfOpt o b a netifAddr ipId = .ok (r, next)) :
    ∃ src chksum, r.first.payload = outHdr o a src r.first.totLen ipId.toNat chksum ++
        (alignedOptions a.options ++ b.first.payload) ∧
      (∀ addr, chksum = inetChksumIn o
        ⟨addr, outHdr o a src r.first.totLen ipId.toNat 0 ++ alignedOptions a.options⟩) ∧
      ∀ behind, (∀ addr, headerChecksIn o addr (readHdr (bytesAt r.first.payload behind)) r.first = true) ∧
        (o = .little → headerChecks (readHdr (bytesAt r.first.payload behind)) r.first = true) := by
  have hheader : ∀ {b r : OutBuf} {bytes : List (BitVec 8)}, b.header bytes = some r →
      r.first.payload = bytes ++ b.first.payload ∧
        r.first.totLen = (b.first.totLen + bytes.length) % 2 ^ 16 := by
    intro b r bytes h
    rw [OutBuf.header] at h
    split_ifs at h
    cases h
    exact ⟨rfl, rfl⟩
  rw [ipOutputIfOpt] at hcall
  split at hcall
  · cases hcall
  next b₁ hopt =>
  dsimp only at hcall
  split at hcall
  · cases hcall
  next b₂ hhdr =>
  cases hcall
  obtain ⟨hpay₁, htot₁⟩ := hheader hopt
  obtain ⟨hpay₂, htot₂⟩ := hheader hhdr
  rw [length_outHdr] at htot₂
  have htot : r.first.totLen < 2 ^ 16 := htot₂ ▸ Nat.mod_lt _ (by decide)
  rw [ipHlen, ← htot₂, hpay₁] at hpay₂
  set src := if a.src = 0 then netifAddr else a.src
  have hid := ipId.isLt
  obtain ⟨hvhl, hfour, hhl⟩ := toNat_vhl hopts
  have hlen : ∀ c, (outHdr o a src r.first.totLen ipId.toNat c ++ alignedOptions a.options).length = a.hlen := by
    intro c
    rw [List.length_append, length_outHdr]
    rfl
  have hsmall : ∀ c, (outHdr o a src r.first.totLen ipId.toNat c ++
      alignedOptions a.options).length < 2 ^ 16 := fun c ↦ by
    rw [hlen]
    omega
  have hchksum : ∀ addr, inlineChksum (inlineSum o a src r.first.totLen ipId.toNat) = inetChksumIn o
      ⟨addr, outHdr o a src r.first.totLen ipId.toNat 0 ++ alignedOptions a.options⟩ := fun addr ↦ by
    rw [inlineSum_eq o hopts src htot hid, inlineChksum_memSumIn o addr (hsmall 0)]
  obtain ⟨hmod, hlt⟩ := inetChksumIn_spec o 0 (hsmall 0)
  rw [← hchksum 0] at hmod hlt
  set chksum := inlineChksum (inlineSum o a src r.first.totLen ipId.toNat)
  refine ⟨src, chksum, hpay₂, hchksum, fun behind ↦ ?_⟩
  obtain ⟨hversion, hhlen, htotLen⟩ := readHdr_outHdr o hopts src htot ipId.toNat chksum
    (alignedOptions a.options ++ b.first.payload) behind
  have htake : (outHdr o a src r.first.totLen ipId.toNat chksum ++
      (alignedOptions a.options ++ b.first.payload)).take a.hlen =
      outHdr o a src r.first.totLen ipId.toNat chksum ++ alignedOptions a.options := by
    rw [← List.append_assoc, ← hlen chksum, List.take_left]
  have hverify : ∀ addr, inetChksumIn o
      ⟨addr, outHdr o a src r.first.totLen ipId.toNat chksum ++ alignedOptions a.options⟩ = 0 := by
    intro addr
    rw [inetChksumIn_eq_zero_iff o (hsmall chksum)]
    have hload : 0 < o.load a.vhl a.tos := by
      have hfst : 0 < o.fst := by rcases o with _ | _ <;> decide
      have := Nat.mul_pos (show 0 < a.vhl.toNat by omega) hfst
      rw [ByteOrder.load]
      omega
    rw [memSumIn_append _ _ (by simp), memSumIn_outHdr o a src htot hid (by decide)] at hmod
    rw [memSumIn_append _ _ (by simp), memSumIn_outHdr o a src htot hid hlt]
    constructor
    · rw [← hmod]
      congr 1
      omega
    · omega
  have hin : a.hlen ≤ r.first.len := by
    rw [Pbuf.len, hpay₂, ← List.append_assoc, List.length_append, hlen]
    exact Nat.le_add_right _ _
  have hchecks : ∀ addr,
      headerChecksIn o addr (readHdr (bytesAt r.first.payload behind)) r.first = true := fun addr ↦ by
    rw [headerChecksIn, hpay₂, hversion, hhlen, htotLen, htake, hverify]
    simp [hin]
  refine ⟨hchecks, fun ho ↦ ?_⟩
  rw [← headerChecksIn_little, ← ho]
  exact hchecks 0

/-- A pbuf with room for a header with options. -/
def roomyBuf : OutBuf := ⟨⟨[1, 2, 3], 3⟩, 60, by decide⟩

/-- A header with a record route option of seven bytes. -/
theorem ipOutputIfOpt_spec_options : ∃ r next,
    ipOutputIfOpt .little roomyBuf ⟨0, 0x0200000a, 64, 0, 17, [7, 7, 4, 0, 0, 0, 0]⟩ 0x0100000a 0xffff =
      .ok (r, next) ∧
    headerChecks (readHdr (bytesAt r.first.payload fun _ ↦ 0)) r.first = true := by
  have hok : ∃ x, ipOutputIfOpt .little roomyBuf ⟨0, 0x0200000a, 64, 0, 17, [7, 7, 4, 0, 0, 0, 0]⟩
      0x0100000a 0xffff = .ok x := ⟨_, rfl⟩
  obtain ⟨⟨r, next⟩, hcall⟩ := hok
  obtain ⟨src, chksum, -, -, hchecks⟩ := ipOutputIfOpt_spec .little (by decide) hcall
  exact ⟨r, next, hcall, (hchecks _).2 rfl⟩

end Lwip.Ipv4
