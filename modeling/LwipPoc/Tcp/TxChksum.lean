import LwipPoc.Foundation.Execution
import LwipPoc.Tcp.TxOutput

/-!
# The sum of the data of a segment

With `TCP_CHECKSUM_ON_COPY` a segment carries the sum of its data, whose bytes are swapped if `chksum_swapped` is set.
The flag is to be set exactly if the number of bytes is odd, so that the next bytes can be added as they are. It is not
always: `tcp_output_segment` clears it, and the segment of `tcp_write` for data that is not copied never has it. And a
pbuf that is chained to the last segment has a sum that was **swapped once already**, if its length is odd.

What is added the wrong way round is `misplaced`, and it does no harm exactly if the sum is the same both ways, that is
if it is a multiple of 257 (`TailPlan.sum_iff`).
-/

namespace Lwip.Tcp.Tx

open Lwip.Ipv4 (lwipChksum inetChksum memSum turned)
open Lwip.Ipv4.IpHdr (foldU32 swap16)

variable {cfg : TxConf} {mem : ℕ → Option ℕ} {s s' : TxPcb} {c : WriteCall} {m m' : Pools} {seg seg' : TxSeg}
  {data more : List Byte} {k len : ℕ} {sum : ℕ × Bool}

/-- Whether a number of bytes is odd. -/
def odd (n : ℕ) : Bool := decide (n % 2 = 1)

/-- **A sum of data**, whose bytes may be swapped. -/
structure SumOf (sum : ℕ × Bool) (data : List Byte) : Prop where
  lt : sum.1 < 2 ^ 16
  eq : turned sum.2 sum.1 ≡ memSum data [MOD 2 ^ 16 - 1]

/-- The bytes that are added the wrong way round, where `filled` goes into the room behind the last pbuf and `concat` into
a pbuf of its own; `wrong` says that the flag does not tell whether the length is odd. -/
def misplaced (wrong : Bool) (filled concat : List Byte) : List Byte :=
  if odd concat.length = true then if wrong = true then filled else concat
  else if wrong = true then filled ++ concat else []

/-- The bytes that phase 2 chains to the last segment. -/
def TxPcb.concatData (s : TxPcb) (last : TxSeg) (arg : List Byte) : List Byte :=
  if s.oversizeUsed arg.length < arg.length ∧ 0 < s.spaceLeft last arg.length ∧ 0 < last.len then
    (arg.drop (s.oversizeUsed arg.length)).take (s.concatLen last arg.length)
  else []

/-- What a call of `tcp_write` adds to the last segment the wrong way round. -/
def TxPcb.misplaced (s : TxPcb) (c : WriteCall) : List Byte :=
  match s.unsent.getLast? with
  | none => []
  | some last =>
    Tx.misplaced (last.chksumSwapped != odd last.len) (c.arg.take (s.oversizeUsed c.arg.length))
      (s.concatData last c.arg)

/-! ### Adding up -/

theorem swap16_modEq (hk : k < 2 ^ 16) : swap16 k ≡ 2 ^ 8 * k [MOD 2 ^ 16 - 1] := (onesEq_swapBytes hk).mod_eq

theorem foldU32_modEq (n : ℕ) : foldU32 n ≡ n [MOD 2 ^ 16 - 1] := (onesEq_foldHalves n).mod_eq

theorem memSum_append (pre bs : List Byte) :
    memSum (pre ++ bs) ≡ memSum pre + turned (odd pre.length) (memSum bs) [MOD 2 ^ 16 - 1] := by
  simp only [memSum, altSum_append]
  rcases Nat.mod_two_eq_zero_or_one pre.length with h | h
  · rw [if_pos h, odd, h]
    rfl
  · rw [if_neg (by omega), odd, h]
    exact (Nat.ModEq.refl _).add (onesEq_altSum bs).1.mod_eq

theorem turned_modEq {n l : ℕ} (f : Bool) (h : n ≡ l [MOD 2 ^ 16 - 1]) : turned f n ≡ turned f l [MOD 2 ^ 16 - 1] := by
  rcases f with - | -
  · exact h
  · exact h.mul_left _

theorem turned_add (f : Bool) (n l : ℕ) : turned f (n + l) = turned f n + turned f l := by
  rcases f with - | -
  · rfl
  · exact Nat.mul_add _ _ _

/-- Turned back. -/
theorem turned_xor (f g : Bool) (n : ℕ) : turned (f ^^ g) (turned g n) ≡ turned f n [MOD 2 ^ 16 - 1] := by
  rcases g with - | -
  · rw [Bool.xor_false]
    exact Nat.ModEq.refl _
  · rcases f with - | -
    · exact (onesEq_swap_swap n).mod_eq
    · exact Nat.ModEq.refl _

/-- **`tcp_seg_add_chksum`** adds what it is given, swapped like the sum that was there. -/
theorem tcpSegAddChksum_spec (len : ℕ) (hk : k < 2 ^ 16) (hsum : sum.1 < 2 ^ 16) :
    (tcpSegAddChksum k len sum).1 < 2 ^ 16 ∧ (tcpSegAddChksum k len sum).2 = (sum.2 ^^ odd len) ∧
      turned (tcpSegAddChksum k len sum).2 (tcpSegAddChksum k len sum).1 ≡ turned sum.2 k + turned sum.2 sum.1
        [MOD 2 ^ 16 - 1] := by
  have hfold : foldU32 (k + sum.1) < 2 ^ 16 := foldHalves_lt (by omega)
  have hmod := foldU32_modEq (k + sum.1)
  rw [← turned_add]
  rw [tcpSegAddChksum, toU16, Nat.mod_eq_of_lt hfold]
  rcases Nat.mod_two_eq_zero_or_one len with h | h
  · rw [if_neg (by omega), odd, h]
    exact ⟨hfold, (Bool.xor_false _).symm, turned_modEq _ hmod⟩
  · rw [if_pos (by omega), odd, h]
    refine ⟨swapBytes_lt _, (Bool.xor_true _).symm, ?_⟩
    have hswap : swap16 (foldU32 (k + sum.1)) ≡ turned true (k + sum.1) [MOD 2 ^ 16 - 1] :=
      (swap16_modEq hfold).trans (hmod.mul_left _)
    dsimp only
    rw [← Bool.xor_true]
    exact (turned_modEq _ hswap).trans (turned_xor _ _ _)

/-- The sum of data that is copied. -/
theorem copySum_spec (hcfg : cfg.checksumOnCopy = true) (a : ℕ) (hlen : data.length < 2 ^ 16) :
    SumOf (cfg.copySum a data) data ∧ (cfg.copySum a data).2 = odd data.length := by
  obtain ⟨hsum, hlt⟩ := Ipv4.onesEq_lwipChksum cfg.alg (b := ⟨a, data⟩) (Nat.le_pred_of_lt hlen)
  have hadd := tcpSegAddChksum_spec data.length hlt (show (0, false).1 < 2 ^ 16 from Nat.two_pow_pos 16)
  rw [TxConf.copySum, TxConf.addSum, if_pos hcfg]
  obtain ⟨hlt', hflag, heq⟩ := hadd
  exact ⟨⟨hlt', heq.trans hsum.mod_eq⟩, hflag.trans (Bool.false_xor _)⟩

theorem nocopyChksum_eq (hcfg : cfg.checksumOnCopy = true) (a : ℕ) (hlen : data.length < 2 ^ 16) :
    cfg.nocopyChksum a data = lwipChksum cfg.alg ⟨a, data⟩ := by
  obtain ⟨-, hlt⟩ := Ipv4.onesEq_lwipChksum cfg.alg (b := ⟨a, data⟩) (Nat.le_pred_of_lt hlen)
  rw [TxConf.nocopyChksum, if_pos hcfg, inetChksum]
  omega

/-- The sum of data that is not copied is the same. -/
theorem nocopySum_eq (hcfg : cfg.checksumOnCopy = true) (a : ℕ) (hlen : data.length < 2 ^ 16) :
    cfg.nocopySum a data = cfg.copySum a data := by
  rw [TxConf.nocopySum, nocopyChksum_eq hcfg a hlen, TxConf.copySum]

/-- Two pieces behind the data, the second with a sum that was swapped for its own length: **the whole is right exactly
if what is misplaced is balanced**. -/
theorem added_iff {f p : Bool} {filled concat : List Byte} {n v : ℕ}
    (hn : n ≡ turned (odd concat.length) (memSum concat) [MOD 2 ^ 16 - 1]) (hlen : odd data.length = p)
    (hv : v ≡ turned (f ^^ odd filled.length) n + (turned f (memSum filled) + memSum data) [MOD 2 ^ 16 - 1]) :
    v ≡ memSum (data ++ (filled ++ concat)) [MOD 2 ^ 16 - 1] ↔ memSum (misplaced (f != p) filled concat) % 257 = 0 := by
  have hwhole := memSum_append data (filled ++ concat)
  have hpieces := memSum_append filled concat
  have hright : v ≡ memSum (data ++ (filled ++ concat)) [MOD 2 ^ 16 - 1] ↔
      turned (f ^^ odd filled.length) (turned (odd concat.length) (memSum concat)) +
        (turned f (memSum filled) + memSum data) ≡
      memSum data + turned p (memSum filled + turned (odd filled.length) (memSum concat)) [MOD 2 ^ 16 - 1] := by
    rw [hlen] at hwhole
    have hv' := hv.trans ((turned_modEq _ hn).add_right _)
    have hw' := hwhole.trans ((turned_modEq p hpieces).add_left _)
    exact ⟨fun h ↦ hv'.symm.trans (h.trans hw'), fun h ↦ hv'.trans (h.trans hw'.symm)⟩
  rw [hright, misplaced]
  clear hright hwhole hv hn
  -- sixteen cases of parities, each about multiples of `2 ^ 16 - 1` and of 257
  have hnil : memSum ([] : List Byte) = 0 := rfl
  rw [Nat.ModEq] at hpieces ⊢
  generalize odd concat.length = y, odd filled.length = x at *
  rcases f with - | - <;> rcases p with - | - <;> rcases x with - | - <;> rcases y with - | - <;>
    simp [turned, hnil] at hpieces ⊢ <;> omega

/-! ### The last segment -/

/-- **A segment with `data`** that can be sent, and whose sum is right where `sums` holds. -/
structure TxSeg.Good (cfg : TxConf) (sums : Prop) (seg : TxSeg) (data : List Byte) : Prop where
  laid : ∃ front hdr, seg.Laid front hdr data
  lt : seg.chksum < 2 ^ 16
  flagged : cfg.checksumOnCopy = true → seg.dataChecksummed = false → data = []
  sum : sums → turned seg.chksumSwapped seg.chksum ≡ memSum data [MOD 2 ^ 16 - 1]

theorem TxSeg.dataSum_modEq (hchk : seg.chksum < 2 ^ 16) :
    seg.dataSum ≡ turned seg.chksumSwapped seg.chksum [MOD 2 ^ 16 - 1] := by
  rw [TxSeg.dataSum, turned]
  split_ifs
  · exact swap16_modEq hchk
  · exact Nat.ModEq.refl _

/-- What is added to the sum of a segment: `n` stands for the sum of `more`, or for that sum swapped. -/
structure Adds (seg : TxSeg) (more : List Byte) (n : ℕ) (seg' : TxSeg) : Prop where
  lt : seg'.chksum < 2 ^ 16
  swapped : seg'.chksumSwapped = (seg.chksumSwapped ^^ odd more.length)
  eq : turned seg'.chksumSwapped seg'.chksum ≡ turned seg.chksumSwapped n + turned seg.chksumSwapped seg.chksum
    [MOD 2 ^ 16 - 1]
  flagged : seg'.dataChecksummed = false → seg.dataChecksummed = false ∧ more = []

/-- **Into the room behind the last pbuf.** -/
theorem commitFill_adds (hcfg : cfg.checksumOnCopy = true) (h : commitFill cfg more seg = some seg')
    (hchk : seg.chksum < 2 ^ 16) (hlen : more.length < 2 ^ 16) : Adds seg more (memSum more) seg' := by
  rw [commitFill] at h
  split at h
  · next hnil =>
    obtain rfl := List.eq_nil_of_length_eq_zero hnil
    cases h
    refine ⟨hchk, (Bool.xor_false _).symm, ?_, fun hflag ↦ ⟨hflag, rfl⟩⟩
    have hzero : turned seg.chksumSwapped (memSum []) = 0 := by
      rcases seg.chksumSwapped with - | - <;> rfl
    rw [hzero, Nat.zero_add]
  · next hnil =>
    obtain ⟨p', -, h⟩ := Option.bind_eq_some_iff.1 h
    split at h
    · cases h
    obtain rfl := Option.some.inj h
    obtain ⟨hsum, hlt⟩ := Ipv4.onesEq_lwipChksum cfg.alg (b := ⟨txEnd seg.p, more⟩) (Nat.le_pred_of_lt hlen)
    have hadd := tcpSegAddChksum_spec more.length hlt (show (seg.chksum, seg.chksumSwapped).1 < 2 ^ 16 from hchk)
    rw [TxConf.addSum, if_pos hcfg]
    obtain ⟨hlt', hflag, heq⟩ := hadd
    refine ⟨hlt', hflag, heq.trans ((turned_modEq _ hsum.mod_eq).add_right _), fun hplain ↦ ?_⟩
    dsimp only at hplain
    rw [hcfg, Bool.or_true] at hplain
    cases hplain

/-- **In a pbuf of its own**: the sum was swapped once already if the length is odd. -/
theorem commitConcat_adds {k : Concat} {copies : Bool} (hcfg : cfg.checksumOnCopy = true) (hk : k.Right cfg copies more)
    (h : commitConcat cfg k seg = some seg') (hchk : seg.chksum < 2 ^ 16) (hne : more ≠ []) :
    Adds seg more k.chksum seg' ∧ k.chksum ≡ turned (odd more.length) (memSum more) [MOD 2 ^ 16 - 1] := by
  have hlen : more.length < 2 ^ 16 := hk.bytes ▸ hk.small.length_lt
  obtain ⟨hsum, hflag⟩ : SumOf (k.chksum, k.chksumSwapped) more ∧ k.chksumSwapped = odd more.length := by
    obtain ⟨a, ha⟩ := hk.sum
    rw [nocopySum_eq hcfg a hlen, ite_self] at ha
    obtain ⟨hsum, hflag⟩ := copySum_spec hcfg a hlen
    rw [← ha] at hsum hflag
    exact ⟨hsum, hflag⟩
  have hback : k.chksum ≡ turned (odd more.length) (memSum more) [MOD 2 ^ 16 - 1] := by
    have hturned := turned_modEq (odd more.length) hsum.eq
    rw [hflag] at hturned
    have hself := turned_xor false (odd more.length) k.chksum
    rw [Bool.false_xor] at hself
    exact hself.symm.trans hturned
  obtain ⟨p', -, rfl⟩ := Option.map_eq_some_iff.1 h
  have hbytes : k.p.bytes.length ≠ 0 := by
    rw [hk.bytes]
    exact fun hzero ↦ hne (List.eq_nil_of_length_eq_zero hzero)
  rw [if_pos hbytes, TxConf.addSum, if_pos hcfg, hk.bytes]
  obtain ⟨hlt', hflag', heq⟩ :=
    tcpSegAddChksum_spec more.length hsum.lt (show (seg.chksum, seg.chksumSwapped).1 < 2 ^ 16 from hchk)
  refine ⟨⟨hlt', hflag', heq, fun hplain ↦ ?_⟩, hback⟩
  rw [hk.bytes] at hbytes
  dsimp only at hplain
  rw [hcfg, decide_eq_true hbytes, Bool.and_self, Bool.or_true] at hplain
  cases hplain

/-- Without `TCP_CHECKSUM_ON_COPY` nothing is added. -/
theorem commitFill_plain (hcfg : ¬cfg.checksumOnCopy = true) (h : commitFill cfg more seg = some seg') :
    seg'.chksum = seg.chksum := by
  rw [commitFill] at h
  split at h
  · cases h
    rfl
  · obtain ⟨p', -, h⟩ := Option.bind_eq_some_iff.1 h
    split at h
    · cases h
    obtain rfl := Option.some.inj h
    rw [TxConf.addSum, if_neg hcfg]

theorem commitConcat_plain {k : Concat} (hcfg : ¬cfg.checksumOnCopy = true) (h : commitConcat cfg k seg = some seg') :
    seg'.chksum = seg.chksum := by
  obtain ⟨p', -, rfl⟩ := Option.map_eq_some_iff.1 h
  rw [TxConf.addSum, if_neg hcfg, ite_self]

section Tail

variable {s₁ : TxPcb} {v : WriteVars} {last mid last' : TxSeg} {x : BitVec 16} {sums : Prop}

/-- What is added to the last segment, piece by piece. -/
theorem TailPlan.pieces (h : TailPlan cfg s c s₁ v last) :
    c.arg.take v.pos = c.arg.take v.oversizeUsed ++ s.concatData last c.arg ∧
      (v.concat = none ∧ s.concatData last c.arg = [] ∨
        ∃ k, v.concat = some k ∧ k.Right cfg (c.copies cfg) (s.concatData last c.arg) ∧
          s.concatData last c.arg ≠ []) := by
  rw [TxPcb.concatData, ← h.used]
  split_ifs with hchain
  · rw [h.used] at hchain
    obtain ⟨hpos, k, hk, hright⟩ := h.chained hchain
    refine ⟨by rw [hpos, List.take_add], .inr ⟨k, hk, hright, ?_⟩⟩
    obtain ⟨hused, hspace, -⟩ := hchain
    refine List.ne_nil_of_length_pos ?_
    rw [List.length_take, List.length_drop, h.used, TxPcb.concatLen]
    split_ifs <;> omega
  · rw [h.used] at hchain
    obtain ⟨hk, hpos⟩ := h.plain hchain
    exact ⟨by rw [hpos, List.append_nil], .inl ⟨hk, rfl⟩⟩

/-- **Both pieces**, where the sum is kept. -/
theorem TailPlan.adds (h : TailPlan cfg s c s₁ v last) (hcfg : cfg.checksumOnCopy = true)
    (hmid : commitFill cfg (c.arg.take v.oversizeUsed) { last with oversizeLeft := x } = some mid)
    (hlast' : (v.concat.map fun k ↦ commitConcat cfg k mid).getD (some mid) = some last')
    (hchk : last.chksum < 2 ^ 16) :
    last'.chksum < 2 ^ 16 ∧ (last'.dataChecksummed = false → last.dataChecksummed = false ∧ c.arg.take v.pos = []) ∧
      ∃ n, n ≡ turned (odd (s.concatData last c.arg).length) (memSum (s.concatData last c.arg)) [MOD 2 ^ 16 - 1] ∧
        turned last'.chksumSwapped last'.chksum ≡
          turned (last.chksumSwapped ^^ odd (c.arg.take v.oversizeUsed).length) n +
            (turned last.chksumSwapped (memSum (c.arg.take v.oversizeUsed)) +
              turned last.chksumSwapped last.chksum) [MOD 2 ^ 16 - 1] := by
  obtain ⟨htake, hpieces⟩ := h.pieces
  have hlen : (c.arg.take v.oversizeUsed).length < 2 ^ 16 := (List.length_take_le' _ _).trans_lt c.length_lt
  have hfill := commitFill_adds hcfg hmid hchk hlen
  rcases hpieces with ⟨hk, hnil⟩ | ⟨k, hk, hright, hne⟩ <;> rw [hk] at hlast'
  · obtain rfl := Option.some.inj hlast'
    rw [hnil, List.append_nil] at htake
    refine ⟨hfill.lt, fun hflag ↦ htake ▸ hfill.flagged hflag, 0, ?_, ?_⟩
    · rw [hnil]
      rfl
    · have hzero : ∀ f, turned f 0 = 0 := fun f ↦ by rcases f with - | - <;> rfl
      rw [hzero, Nat.zero_add]
      exact hfill.eq
  · obtain ⟨hconcat, hn⟩ := commitConcat_adds hcfg hright hlast' hfill.lt hne
    refine ⟨hconcat.lt, fun hflag ↦ absurd (hconcat.flagged hflag).2 hne, k.chksum, hn, hconcat.eq.trans (Nat.ModEq.add ?_ hfill.eq)⟩
    rw [hfill.swapped]

/-- **The sum of the last segment** stays right exactly if what is misplaced is balanced. -/
theorem TailPlan.sum_iff (h : TailPlan cfg s c s₁ v last) (hcfg : cfg.checksumOnCopy = true)
    (hmid : commitFill cfg (c.arg.take v.oversizeUsed) { last with oversizeLeft := x } = some mid)
    (hlast' : (v.concat.map fun k ↦ commitConcat cfg k mid).getD (some mid) = some last')
    (hgood : last.Good cfg True data) :
    turned last'.chksumSwapped last'.chksum ≡ memSum (data ++ c.arg.take v.pos) [MOD 2 ^ 16 - 1] ↔
      memSum (s.misplaced c) % 257 = 0 := by
  obtain ⟨-, -, n, hn, heq⟩ := h.adds hcfg hmid hlast' hgood.lt
  obtain ⟨front, hdr, hlaid⟩ := hgood.laid
  have hparity : odd data.length = odd last.len := by
    rw [hlaid.len, odd, odd, toU16, Nat.mod_mod_of_dvd _ (by decide)]
  rw [h.pieces.1, TxPcb.misplaced, h.getLast, ← h.used]
  exact added_iff hn hparity (heq.trans ((hgood.sum trivial).add_left _ |>.add_left _))

/-- **The last segment stays good**, if nothing is misplaced or it is balanced. -/
theorem TailPlan.good (h : TailPlan cfg s c s₁ v last) (hsums : sums → cfg.checksumOnCopy = true)
    (hmid : commitFill cfg (c.arg.take v.oversizeUsed) { last with oversizeLeft := x } = some mid)
    (hlast' : (v.concat.map fun k ↦ commitConcat cfg k mid).getD (some mid) = some last')
    (hgood : last.Good cfg sums data) (hbalanced : sums → memSum (s.misplaced c) % 257 = 0) :
    last'.Good cfg sums (data ++ c.arg.take v.pos) := by
  have hdone := h.done hmid hlast'
  obtain ⟨front, hdr, hlaid⟩ := hgood.laid
  refine ⟨⟨front, hdr, hdone.laid _ _ _ hlaid⟩, ?_, fun hcfg hflag ↦ ?_, fun hs ↦ ?_⟩
  · by_cases hcfg : cfg.checksumOnCopy = true
    · exact (h.adds hcfg hmid hlast' hgood.lt).1
    · have hsame : mid.chksum = { last with oversizeLeft := x }.chksum := commitFill_plain hcfg hmid
      rcases h.pieces.2 with ⟨hk, -⟩ | ⟨k, hk, -⟩ <;> rw [hk] at hlast'
      · obtain rfl := Option.some.inj hlast'
        exact hsame ▸ hgood.lt
      · rw [commitConcat_plain hcfg hlast', hsame]
        exact hgood.lt
  · obtain ⟨hplain, hnil⟩ := (h.adds hcfg hmid hlast' hgood.lt).2.1 hflag
    rw [hgood.flagged hcfg hplain, hnil]
    rfl
  · exact (h.sum_iff (hsums hs) hmid hlast' ⟨hgood.laid, hgood.lt, hgood.flagged, fun _ ↦ hgood.sum hs⟩).2 (hbalanced hs)

end Tail

end Lwip.Tcp.Tx
