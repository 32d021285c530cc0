import LwipPoc.Netif.Ppp.VjHeaders

/-!
# The header behind a compressed one

`vjRebuild` puts the fields that are sent into the header in the slot, and `vjFinish` the length and the checksum.
Where the header in the slot is the last one of the connection, the result has the bytes of the packet's header
(`Mirrors.restores`), but for the byte of the flags: that one has in addition what was set in the last header, and the
packet's byte comes out if it keeps these flags (`KeepsFlags`).
-/

namespace Lwip.Netif.Ppp

open Lwip.Core Ipv4 Set

variable {f g h hdr ip mem : Hdr} {i k m n cp th thl hlen : ℕ} {P : Set ℕ} {bs newSeq : List (BitVec 8)}
  {c changes ch b : BitVec 8}

/-! ### The numbers, in all cases -/

namespace Decoding

variable {x stop : ℕ} {r : Hdr × ℕ}

/-- A number to which its change is added without being read. -/
theorem advance (hd : Decoding mem x b P hdr ip stop bs r) (hn : n = delta32 hdr ip i)
    (hP : ∀ k ∈ Ico i (i + 4), k ∉ P) (hx : x ∉ Ico i (i + 4)) :
    Decoding mem x b (P ∪ Ico i (i + 4)) hdr ip stop bs (writeU32 r.1 i ((readU32 r.1 i + n) % 2 ^ 32), r.2) := by
  have hold := hd.updated.readU32_eq hP hx
  have hip := readU32_lt ip i
  have hhdr := readU32_lt hdr i
  have hstay : r.2 = r.2 + ([] : List (BitVec 8)).length := rfl
  refine hd.write (eqOn_writeU32 ?_) (fun k hk ↦ writeU32_of_notMem hk) hx hstay
  rw [hold, hn, delta32]
  omega

/-- The data of the last packet, while its length is still in the header. -/
theorem lastData_eq (hd : Decoding mem x b P hdr ip stop bs r) (hP : ∀ k ∈ Ico 2 (2 + 2), k ∉ P)
    (hx : x ∉ Ico 2 (2 + 2)) (hlast : n + hlen = readU16 hdr 2) : lastData r.1 hlen = n := by
  have hlt := readU16_lt hdr 2
  rw [lastData, hd.updated.readU16_eq hP hx, ← hlast]
  omega

/-- **The switch over the changes.** -/
theorem fields (hd : Decoding mem (th + 13) b (Ico (th + 16) (th + 18)) hdr ip stop (newSeq ++ bs) r)
    (hsent : SentAs hdr ip th hlen ch newSeq) (hmask : changes &&& specialsMask = ch) (hth : 20 ≤ th)
    (hurg : Urg ip th ∨ readU16 ip (th + 18) = readU16 hdr (th + 18)) (hack : delta32 hdr ip (th + 8) < 2 ^ 16)
    (hseq : delta32 hdr ip (th + 4) < 2 ^ 16) :
    Decoding mem (th + 13) (if Urg ip th then b ||| tcpUrg else b) (Ico (th + 16) (th + 18) ∪ numberPlaces th) hdr ip
      stop bs (vjFields mem changes th hlen r) := by
  have hlength : ∀ {n : ℕ}, n + hlen = readU16 hdr 2 → lastData r.1 hlen = n := fun hlast ↦
    hd.lastData_eq (fun k hk hk' ↦ by simp only [mem_Ico] at hk hk'; omega) (by rw [mem_Ico]; omega) hlast
  rw [vjFields, hmask]
  cases hsent with
  | numbers hne =>
    rw [if_neg hne.1, if_neg hne.2]
    exact hd.numbers hmask hurg hack hseq
  | echo hno hwnd hecho hlast =>
    rw [if_pos rfl, if_neg hno]
    dsimp only
    rw [hlength hlast]
    have hda := hd.advance hecho.symm (fun k hk hk' ↦ by simp only [mem_Ico] at hk hk'; omega)
      (by rw [mem_Ico]; omega)
    have hds := hda.advance (i := th + 4) rfl (fun k hk hk' ↦ by simp only [mem_union, mem_Ico] at hk hk'; omega)
      (by rw [mem_Ico]; omega)
    have hsame := (hds.same (eqOn_of_delta16 hwnd)).same (eqOn_of_readU16 (hurg.resolve_left hno).symm)
    refine hsame.places (ext fun k ↦ ?_)
    simp only [numberPlaces, mem_union, mem_Ico]
    omega
  | data hno hwnd hzero hlast =>
    rw [if_neg (show specialD ≠ specialI by decide), if_pos rfl, if_neg hno, hlength hlast]
    have hds := hd.advance (i := th + 4) rfl (fun k hk hk' ↦ by simp only [mem_Ico] at hk hk'; omega)
      (by rw [mem_Ico]; omega)
    have hsame := ((hds.same (eqOn_of_delta32 hzero)).same (eqOn_of_delta16 hwnd)).same
      (eqOn_of_readU16 (hurg.resolve_left hno).symm)
    refine hsame.places (ext fun k ↦ ?_)
    simp only [numberPlaces, mem_union, mem_Ico]
    omega

end Decoding

/-! ### The first byte -/

/-- The packet has the flag. -/
def Flagged (ip : Hdr) (th : ℕ) (flag : BitVec 8) : Prop := tcphFlags ip th &&& flag ≠ 0

instance {flag : BitVec 8} : Decidable (Flagged ip th flag) := inferInstanceAs (Decidable (_ ≠ _))

/-- What the receiver reads from the first byte: how the numbers were sent, and whether there is a change of the
identification, and a `PSH`. -/
structure FirstByte (c ch : BitVec 8) (ident push : Prop) : Prop where
  special : c &&& specialsMask = ch
  ident : c &&& newI ≠ 0 ↔ ident
  push : c &&& tcpPushBit ≠ 0 ↔ push

theorem SentAs.and_specialsMask (h : SentAs hdr ip th hlen ch newSeq) : ch &&& specialsMask = ch := by
  rcases h with _ | _ | _
  · rw [changedNumbers, numberBits]
    split_ifs <;> rfl
  · rfl
  · rfl

/-- The bits that are added to those of the numbers. -/
theorem firstByte_or {e : BitVec 8} {ident push : Prop} [Decidable ident] [Decidable push]
    (hch : ch &&& specialsMask = ch) (he : e = 0 ∨ e = newC) :
    FirstByte (ch ||| (if ident then newI else 0) ||| (if push then tcpPushBit else 0) ||| e) ch ident push := by
  have hI : ch &&& newI = 0 := by
    rw [← hch, BitVec.and_assoc]
    exact BitVec.and_zero
  have hP : ch &&& tcpPushBit = 0 := by
    rw [← hch, BitVec.and_assoc]
    exact BitVec.and_zero
  constructor
  · rw [BitVec.and_or_distrib_right, BitVec.and_or_distrib_right, BitVec.and_or_distrib_right, hch]
    have hzero : ∀ x y z : BitVec 8, x &&& specialsMask = 0 → y &&& specialsMask = 0 → z &&& specialsMask = 0 →
        ch ||| x &&& specialsMask ||| y &&& specialsMask ||| z &&& specialsMask = ch := by
      intro x y z hx hy hz
      rw [hx, hy, hz]
      simp
    refine hzero _ _ _ ?_ ?_ ?_
    · split_ifs <;> rfl
    · split_ifs <;> rfl
    · rcases he with rfl | rfl <;> rfl
  · rw [BitVec.and_or_distrib_right, BitVec.and_or_distrib_right, BitVec.and_or_distrib_right, hI]
    rcases he with rfl | rfl <;> split_ifs with hi hp hp <;> simp only [hi] <;> decide
  · rw [BitVec.and_or_distrib_right, BitVec.and_or_distrib_right, BitVec.and_or_distrib_right, hP]
    rcases he with rfl | rfl <;> split_ifs with hi hp hp <;> simp only [hp] <;> decide

/-- **What is sent for a header** that differs from the last one of its connection in the expected fields only. -/
structure Compressed (hdr ip : Hdr) (th thl hlen : ℕ) (ch : BitVec 8) (newSeq : List (BitVec 8)) : Prop where
  same : sameHeader hdr ip th thl = true
  urgent : Urg ip th ∨ readU16 ip (th + 18) = readU16 hdr (th + 18)
  ack : delta32 hdr ip (th + 8) < 2 ^ 16
  seq : delta32 hdr ip (th + 4) < 2 ^ 16
  sent : SentAs hdr ip th hlen ch newSeq

theorem compressed_of_vjChanges (h : vjChanges hdr ip th thl hlen = some (changes, bs)) :
    ∃ ch newSeq, Compressed hdr ip th thl hlen ch newSeq ∧
      changes = ch ||| (if delta16 hdr ip 4 ≠ 1 then newI else 0) ||| (if Flagged ip th tcpPsh then tcpPushBit else 0) ∧
      bs = newSeq ++ if delta16 hdr ip 4 ≠ 1 then encodez (delta16 hdr ip 4) else [] := by
  rw [vjChanges] at h
  obtain ⟨hsame, h⟩ := Option.ite_none_right_eq_some.1 h
  obtain ⟨⟨ch, newSeq⟩, hnumbers, heq⟩ := Option.map_eq_some_iff.1 h
  obtain ⟨hurg, hack, hseq, hsent⟩ := sentAs_of_numbers hnumbers
  obtain ⟨rfl, rfl⟩ := Prod.mk.inj heq
  exact ⟨ch, newSeq, ⟨hsame, hurg, hack, hseq, hsent⟩, rfl, rfl⟩

/-- The bit for the slot number is free. -/
theorem newC_of_vjChanges (h : vjChanges hdr ip th thl hlen = some (changes, bs)) : changes &&& newC = 0 := by
  obtain ⟨ch, newSeq, hcomp, rfl, -⟩ := compressed_of_vjChanges h
  rw [BitVec.and_or_distrib_right, BitVec.and_or_distrib_right, ← hcomp.sent.and_specialsMask, BitVec.and_assoc]
  split_ifs <;> exact (congrArg (· ||| _) (congrArg (· ||| _) BitVec.and_zero)).trans rfl

/-! ### The header in the slot -/

/-- The byte of the flags, after those of a packet were set in it. -/
def setFlags (b : BitVec 8) (ip : Hdr) (th : ℕ) : BitVec 8 :=
  if Urg ip th then (if Flagged ip th tcpPsh then b ||| tcpPsh else b) ||| tcpUrg
  else if Flagged ip th tcpPsh then b ||| tcpPsh else b

/-- The places of the fields that `vjRebuild` brings up to date. -/
def rebuiltPlaces (th : ℕ) : Set ℕ := Ico (th + 16) (th + 18) ∪ numberPlaces th ∪ Ico 4 6

/-- **The receiver's header**, where the one in its slot is the last one of the connection. -/
theorem vjRebuild_spec {cs : Cstate} (hcomp : Compressed cs.csHdr ip th thl cs.csHlen ch newSeq)
    (hc : FirstByte c ch (delta16 cs.csHdr ip 4 ≠ 1) (Flagged ip th tcpPsh)) (hth : th = iphHl cs.csHdr * 4)
    (h20 : 20 ≤ th)
    (hat : At mem cp ([BitVec.ofNat 8 (readU16 ip (th + 16) / 2 ^ 8), BitVec.ofNat 8 (readU16 ip (th + 16))] ++
      (newSeq ++ if delta16 cs.csHdr ip 4 ≠ 1 then encodez (delta16 cs.csHdr ip 4) else []))) :
    Updated (th + 13) (rebuiltPlaces th) cs.csHdr ip (vjRebuild mem c cs cp).1 ∧
      (vjRebuild mem c cs cp).1 (th + 13) = setFlags (cs.csHdr (th + 13)) ip th ∧
      (vjRebuild mem c cs cp).2 =
        cp + 2 + (newSeq ++ if delta16 cs.csHdr ip 4 ≠ 1 then encodez (delta16 cs.csHdr ip 4) else []).length := by
  have hchksum : readU16 mem cp = readU16 ip (th + 16) := by
    have hlt := readU16_lt ip (th + 16)
    rw [readU16, hat.left.head, hat.left.tail.head, BitVec.toNat_ofNat, BitVec.toNat_ofNat]
    omega
  have hstart : Updated (th + 13) ∅ cs.csHdr ip cs.csHdr := ⟨fun k hk ↦ absurd hk (notMem_empty k), fun _ _ _ ↦ rfl⟩
  have hwritten := hstart.writeU16 hchksum
  rw [empty_union] at hwritten
  have hold : writeU16 cs.csHdr (th + 16) (readU16 mem cp) (th + 13) = cs.csHdr (th + 13) :=
    writeU16_of_notMem (by rw [mem_Ico]; omega)
  have hd : Decoding mem (th + 13) (if Flagged ip th tcpPsh then cs.csHdr (th + 13) ||| tcpPsh else cs.csHdr (th + 13))
      (Ico (th + 16) (th + 18)) cs.csHdr ip
      (cp + 2 + (newSeq ++ if delta16 cs.csHdr ip 4 ≠ 1 then encodez (delta16 cs.csHdr ip 4) else []).length)
      (newSeq ++ if delta16 cs.csHdr ip 4 ≠ 1 then encodez (delta16 cs.csHdr ip 4) else [])
      (if c &&& tcpPushBit ≠ 0 then tcphSetFlag (writeU16 cs.csHdr (th + 16) (readU16 mem cp)) th tcpPsh
        else tcphUnsetFlag (writeU16 cs.csHdr (th + 16) (readU16 mem cp)) th tcpPsh, cp + 2) := by
    by_cases hpush : Flagged ip th tcpPsh
    · rw [if_pos hpush, if_pos (hc.push.2 hpush)]
      refine ⟨hwritten.flags _, ?_, hat.right, rfl⟩
      exact (Function.update_self _ _ _).trans (congrArg (· ||| tcpPsh) hold)
    · rw [if_neg hpush, if_neg (mt hc.push.1 hpush), tcphUnsetFlag_eq]
      exact ⟨hwritten, hold, hat.right, rfl⟩
  have hfields := hd.fields hcomp.sent hc.special h20 hcomp.urgent hcomp.ack hcomp.seq
  rw [← List.append_nil (if delta16 cs.csHdr ip 4 ≠ 1 then encodez (delta16 cs.csHdr ip 4) else [])] at hfields
  have hident := hfields.ident hc.ident (fun k hk hk' ↦ by
    simp only [numberPlaces, mem_union, mem_Ico] at hk hk'
    omega) (by rw [mem_Ico]; omega)
  rw [vjRebuild, ← hth]
  exact ⟨hident.updated, hident.flags, by simpa using hident.stop⟩

/-! ### The fields that do not change -/

/-- The length of both headers. -/
def hdrLen (ip : Hdr) : ℕ := iphHl ip * 4 + tcphHdrlen ip (iphHl ip * 4) * 4

/-- **The headers of a TCP packet**: as long as they have to be, and with zeros in the reserved bits. -/
structure TcpHeaders (ip : Hdr) : Prop where
  hl : 5 ≤ iphHl ip
  thl : 5 ≤ tcphHdrlen ip (iphHl ip * 4)
  reserved : (ip (iphHl ip * 4 + 12)).toNat % 2 ^ 4 = 0 ∧ (ip (iphHl ip * 4 + 13)).toNat < 2 ^ 6

/-- Of the flags that open and close connections it has the acknowledgement alone. -/
structure AckHeaders (ip : Hdr) : Prop extends TcpHeaders ip where
  flags : tcphFlags ip (iphHl ip * 4) &&& (tcpSyn ||| tcpFin ||| tcpRst ||| tcpAck) = tcpAck

theorem iphHl_le (ip : Hdr) : iphHl ip ≤ 15 := Nat.le_of_lt_succ (Nat.mod_lt _ (Nat.two_pow_pos 4))

theorem tcphHdrlen_le (ip : Hdr) (th : ℕ) : tcphHdrlen ip th ≤ 15 := by
  have hlt := (ip (th + 12)).isLt
  rw [tcphHdrlen]
  omega

/-- The places that are filled in by `vjFinish`. -/
def finishedPlaces : Set ℕ := Ico 2 4 ∪ Ico 10 12

theorem eqOn_options {off cnt : ℕ} (h : (List.range cnt).all fun i ↦ ip (off + i) = hdr (off + i)) :
    EqOn hdr ip (Ico off (off + cnt)) := by
  intro k hk
  obtain ⟨i, rfl⟩ := Nat.exists_eq_add_of_le hk.1
  have hi := List.all_eq_true.1 h i (List.mem_range.2 (by have := hk.2; omega))
  exact (of_decide_eq_true hi).symm

/-- **Fields that are not sent** are the same in the last header of the connection. -/
theorem eqOn_of_sameHeader {cs : Cstate} (hsame : sameHeader cs.csHdr ip (iphHl ip * 4) (tcphHdrlen ip (iphHl ip * 4)))
    (hconn : VjCompress.sameConnection ip cs = true) (hip : AckHeaders ip) (hcs : AckHeaders cs.csHdr) :
    iphHl cs.csHdr = iphHl ip ∧ hdrLen cs.csHdr = hdrLen ip ∧ ∀ k < hdrLen ip, k ∉ rebuiltPlaces (iphHl ip * 4) →
      k ∉ finishedPlaces → k ≠ iphHl ip * 4 + 13 → cs.csHdr k = ip k := by
  simp only [sameHeader, Bool.and_eq_true, Bool.or_eq_true, decide_eq_true_eq] at hsame
  simp only [VjCompress.sameConnection, Bool.and_eq_true, decide_eq_true_eq] at hconn
  obtain ⟨⟨⟨⟨⟨hversion, hoff⟩, httl⟩, hthl⟩, hipopt⟩, htcpopt⟩ := hsame
  obtain ⟨⟨hsrc, hdst⟩, hports⟩ := hconn
  have hhl : iphHl cs.csHdr = iphHl ip := by rw [iphHl, iphHl, (bytes_eq_of_readU16 hversion).1]
  rw [hhl] at hports
  have hlen : hdrLen cs.csHdr = hdrLen ip := by rw [hdrLen, hdrLen, hhl, ← hthl]
  refine ⟨hhl, hlen, fun k hk hrebuilt hfinished hflags ↦ ?_⟩
  have h5 := hip.hl
  have h5' := hip.thl
  rw [hdrLen] at hk
  -- the offset of the data, whose reserved bits are zeros
  have hoffset : cs.csHdr (iphHl ip * 4 + 12) = ip (iphHl ip * 4 + 12) := by
    have hr := hip.reserved.1
    have hr' := hcs.reserved.1
    rw [hhl] at hr'
    rw [tcphHdrlen, tcphHdrlen] at hthl
    exact BitVec.eq_of_toNat_eq (by omega)
  have hipopt' : EqOn cs.csHdr ip (Ico 20 (20 + (iphHl ip * 4 - 20))) := by
    rcases hipopt with hle | hall
    · intro k hk
      have := hk.1
      have := hk.2
      omega
    · exact eqOn_options hall
  have htcpopt' : EqOn cs.csHdr ip (Ico (iphHl ip * 4 + 20)
      (iphHl ip * 4 + 20 + (tcphHdrlen ip (iphHl ip * 4) - 5) * 4)) := by
    rcases htcpopt with hle | hall
    · intro k hk
      have := hk.1
      have := hk.2
      omega
    · exact eqOn_options hall
  have hfields := ((((eqOn_of_readU16 hversion.symm).union (eqOn_of_readU16 hoff.symm)).union
    (eqOn_of_readU16 httl.symm)).union ((eqOn_of_readU32 hsrc.symm).union (eqOn_of_readU32 hdst.symm))).union
    (((eqOn_of_readU32 hports.symm).union hipopt').union htcpopt')
  rcases eq_or_ne k (iphHl ip * 4 + 12) with rfl | hne
  · exact hoffset
  · refine hfields ?_
    simp only [rebuiltPlaces, numberPlaces, finishedPlaces, mem_union, mem_Ico] at hrebuilt hfinished ⊢
    omega

/-! ### The flags -/

/-- Of `PSH` and `URG` the packet has what the header has. -/
def KeepsFlags (hdr ip : Hdr) (th : ℕ) : Prop := tcphFlags hdr th &&& (tcpPsh ||| tcpUrg) &&& ~~~tcphFlags ip th = 0

instance : Decidable (KeepsFlags hdr ip th) := inferInstanceAs (Decidable (_ = _))

/-- The byte of the flags of an acknowledgement. -/
theorem ackFlags_cases (hb : b.toNat < 2 ^ 6) (hflags : b &&& 0x3f &&& (tcpSyn ||| tcpFin ||| tcpRst ||| tcpAck) = tcpAck) :
    b = 0x10 ∨ b = 0x18 ∨ b = 0x30 ∨ b = 0x38 := by
  revert b
  decide

/-- **The flags come out** exactly if the packet keeps those of the last one. -/
theorem setFlags_eq_iff (hip : AckHeaders ip) (hhdr : AckHeaders hdr) (hhl : iphHl hdr = iphHl ip) :
    setFlags (hdr (iphHl ip * 4 + 13)) ip (iphHl ip * 4) = ip (iphHl ip * 4 + 13) ↔
      KeepsFlags hdr ip (iphHl ip * 4) := by
  have hb := ackFlags_cases hip.reserved.2 hip.flags
  have ha := ackFlags_cases hhdr.reserved.2 hhdr.flags
  rw [hhl] at ha
  have hbytes : ∀ a b : BitVec 8, (a = 0x10 ∨ a = 0x18 ∨ a = 0x30 ∨ a = 0x38) →
      (b = 0x10 ∨ b = 0x18 ∨ b = 0x30 ∨ b = 0x38) →
      ((if b &&& 0x3f &&& tcpUrg ≠ 0 then (if b &&& 0x3f &&& tcpPsh ≠ 0 then a ||| tcpPsh else a) ||| tcpUrg
        else if b &&& 0x3f &&& tcpPsh ≠ 0 then a ||| tcpPsh else a) = b ↔
          a &&& 0x3f &&& (tcpPsh ||| tcpUrg) &&& ~~~(b &&& 0x3f) = 0) := by
    rintro a b (rfl | rfl | rfl | rfl) (rfl | rfl | rfl | rfl) <;> decide
  exact hbytes _ _ ha hb

/-! ### The length and the checksum -/

theorem sumWords_rest {sum : ℕ} (h : bs.length % 2 = 0) : (sumWords sum bs).2 = [] := by
  induction bs using List.twoStepInduction generalizing sum with
  | nil => rfl
  | singleton x => cases h
  | cons_cons x y bs ih _ =>
    rw [sumWords]
    exact ih (by simp only [List.length_cons] at h; omega)

theorem sumWords_lt {sum : ℕ} (h : sum < 2 ^ 32) : (sumWords sum bs).1 < 2 ^ 32 := by
  induction bs using List.twoStepInduction generalizing sum with
  | nil | singleton x => exact h
  | cons_cons x y bs ih _ =>
    rw [sumWords]
    exact ih (Nat.mod_lt _ (Nat.two_pow_pos 32))

/-- The sum of `vj_uncompress_tcp` is `inet_chksum`. -/
theorem hdrChksum_eq (alg : ChksumAlgorithm) (addr : ℕ) (hn : n % 2 = 0) (hlt : n < 2 ^ 16) :
    hdrChksum hdr n = inetChksum alg ⟨addr, hdrBytes hdr n⟩ := by
  have hlength : (hdrBytes hdr n).length = n := by rw [hdrBytes, List.length_map, List.length_range]
  have hversions : lwipChksum alg ⟨addr, hdrBytes hdr n⟩ = lwipChksum .two ⟨0, hdrBytes hdr n⟩ := by
    rw [lwipChksum_eq alg (by rw [hlength]; omega), lwipChksum_eq .two (by rw [hlength]; omega)]
  have hhead : headByte ⟨0, hdrBytes hdr n⟩ = (0, ⟨0, hdrBytes hdr n⟩) := by
    rw [headByte]
    split <;> rfl
  have htwo : lwipChksum .two ⟨0, hdrBytes hdr n⟩ =
      IpHdr.foldU32 (IpHdr.foldU32 (sumWords 0 (hdrBytes hdr n)).1) % 2 ^ 16 := by
    rw [lwipChksum, lwipStandardChksum2, hhead]
    dsimp only
    rw [finish, sumWords_rest (by rw [hlength]; exact hn)]
    have hsum : ((sumWords 0 (hdrBytes hdr n)).1 + (0 + tailByte [])) % 2 ^ 32 = (sumWords 0 (hdrBytes hdr n)).1 :=
      Nat.mod_eq_of_lt (sumWords_lt (Nat.two_pow_pos 32))
    rw [hsum, if_neg (by simp)]
  rw [hdrChksum, inetChksum, hversions, htwo]

/-- The header checksum is the one that `inet_chksum` computes from the others of its bytes. -/
def Checked (alg : ChksumAlgorithm) (addr : ℕ) (ip : Hdr) : Prop :=
  loadU16 (ip 10) (ip 11) = inetChksum alg ⟨addr, hdrBytes (writeU16 ip 10 0) (iphHl ip * 4)⟩

instance {alg : ChksumAlgorithm} {addr : ℕ} : Decidable (Checked alg addr ip) := inferInstanceAs (Decidable (_ = _))

/-- **The end of the receiver's header** for a packet with a right checksum. -/
theorem vjFinish_eq {alg : ChksumAlgorithm} {addr : ℕ} (hagree : ∀ k < hlen, k ∉ finishedPlaces → h k = ip k)
    (hle : iphHl ip * 4 ≤ hlen) (hhl : 5 ≤ iphHl ip) (hn : n % 2 ^ 16 = readU16 ip 2) (hchk : Checked alg addr ip)
    (hk : k < hlen) : vjFinish h n k = ip k := by
  have hlen2 : ∀ k < hlen, k ∉ Ico 10 12 → writeU16 h 2 (n % 2 ^ 16) k = ip k := by
    intro k hk hk10
    by_cases hk2 : k ∈ Ico 2 (2 + 2)
    · exact eqOn_writeU16 hn hk2
    · rw [writeU16_of_notMem hk2]
      exact hagree k hk fun hmem ↦ hmem.elim hk2 hk10
  have hzero : ∀ k < hlen, writeU16 (writeU16 h 2 (n % 2 ^ 16)) 10 0 k = writeU16 ip 10 0 k := by
    intro k hk
    by_cases hk10 : k ∈ Ico 10 (10 + 2)
    · obtain rfl | rfl : k = 10 ∨ k = 11 := by
        have := hk10.1
        have := hk10.2
        omega
      · rfl
      · rfl
    · rw [writeU16_of_notMem hk10, writeU16_of_notMem hk10]
      exact hlen2 k hk hk10
  have hl : iphHl (writeU16 (writeU16 h 2 (n % 2 ^ 16)) 10 0) = iphHl ip := by
    rw [iphHl, hzero 0 (by omega), writeU16_of_notMem (by rw [mem_Ico]; omega), iphHl]
  have hl15 := iphHl_le ip
  have hsum : hdrChksum (writeU16 (writeU16 h 2 (n % 2 ^ 16)) 10 0) (iphHl ip * 4) = loadU16 (ip 10) (ip 11) := by
    rw [hdrChksum_eq alg addr (by omega) (by omega), hchk]
    congr 2
    refine List.map_congr_left fun k hk ↦ hzero k ?_
    have := List.mem_range.1 hk
    omega
  have hx := (ip 10).isLt
  have hy := (ip 11).isLt
  rw [vjFinish, hl, hsum, loadU16]
  rcases eq_or_ne k 11 with rfl | hk11
  · rw [Function.update_self]
    refine BitVec.eq_of_toNat_eq ?_
    rw [BitVec.toNat_ofNat]
    omega
  rw [Function.update_of_ne hk11]
  rcases eq_or_ne k 10 with rfl | hk10
  · rw [Function.update_self]
    refine BitVec.eq_of_toNat_eq ?_
    rw [BitVec.toNat_ofNat]
    omega
  rw [Function.update_of_ne hk10, hzero k hk, writeU16_of_notMem]
  rw [mem_Ico]
  omega

/-! ### The two ends -/

theorem Compressed.congr (hcomp : Compressed hdr ip th thl hlen ch newSeq) (heq : ∀ k < th + thl * 4, hdr k = g k)
    (hth : 20 ≤ th) (hthl : 5 ≤ thl) : Compressed g ip th thl hlen ch newSeq := by
  have h16 : ∀ i, i + 2 ≤ th + thl * 4 → readU16 hdr i = readU16 g i := fun i hi ↦
    readU16_congr fun k hk ↦ heq k (by have := hk.2; omega)
  have h32 : ∀ i, i + 4 ≤ th + thl * 4 → readU32 hdr i = readU32 g i := fun i hi ↦
    readU32_congr fun k hk ↦ heq k (by have := hk.2; omega)
  obtain ⟨hsame, hurg, hack, hseq, hsent⟩ := hcomp
  have hwin : delta16 hdr ip (th + 14) = delta16 g ip (th + 14) := by rw [delta16, delta16, h16 _ (by omega)]
  have hda : delta32 hdr ip (th + 8) = delta32 g ip (th + 8) := by rw [delta32, delta32, h32 _ (by omega)]
  have hds : delta32 hdr ip (th + 4) = delta32 g ip (th + 4) := by rw [delta32, delta32, h32 _ (by omega)]
  rw [h16 _ (by omega)] at hurg
  rw [hda] at hack
  rw [hds] at hseq
  refine ⟨?_, hurg, hack, hseq, ?_⟩
  · simp only [sameHeader, Bool.and_eq_true, Bool.or_eq_true, decide_eq_true_eq, List.all_eq_true,
      List.mem_range] at hsame ⊢
    obtain ⟨⟨⟨⟨⟨hversion, hoff⟩, httl⟩, hdata⟩, hipopt⟩, htcpopt⟩ := hsame
    rw [tcphHdrlen, heq _ (by omega), ← tcphHdrlen] at hdata
    refine ⟨⟨⟨⟨⟨hversion.trans (h16 0 (by omega)), hoff.trans (h16 6 (by omega))⟩, httl.trans (h16 8 (by omega))⟩,
      hdata⟩, hipopt.imp_right fun hall i hi ↦ (hall i hi).trans (heq _ (by omega))⟩,
      htcpopt.imp_right fun hall i hi ↦ (hall i hi).trans (heq _ (by omega))⟩
  · have hbits : changedNumbers hdr ip th = changedNumbers g ip th := by
      simp only [changedNumbers, hwin, hda, hds]
    have hcode : encodeNumbers hdr ip th = encodeNumbers g ip th := by
      simp only [encodeNumbers, hwin, hda, hds]
    have hlast : readU16 hdr 2 = readU16 g 2 := h16 2 (by omega)
    rcases hsent with hne | ⟨hno, hw, hecho, hl⟩ | ⟨hno, hw, hzero, hl⟩
    · rw [hbits, hcode]
      exact .numbers (hbits ▸ hne)
    · rw [hda, hds] at hecho
      rw [hds, hlast] at hl
      exact .echo hno (hwin.symm.trans hw) hecho hl
    · rw [hds, hlast] at hl
      exact .data hno (hwin.symm.trans hw) (hda.symm.trans hzero) hl

theorem length_encode_le (n : ℕ) : (encode n).length ≤ 3 := by
  rw [encode]
  split_ifs <;> simp

theorem length_encodez_le (n : ℕ) : (encodez n).length ≤ 3 := by
  rw [encodez]
  split_ifs <;> simp

theorem Compressed.length_le (hcomp : Compressed hdr ip th thl hlen ch newSeq) : newSeq.length ≤ 12 := by
  have hnumber : ∀ {p : Prop} [Decidable p] {bs : List (BitVec 8)}, bs.length ≤ 3 →
      (if p then bs else []).length ≤ 3 := by
    intro p _ bs hbs
    split_ifs
    · exact hbs
    · exact Nat.zero_le _
  rcases hcomp.sent with hne | _ | _
  · have hu := hnumber (p := Urg ip th) (length_encodez_le (readU16 ip (th + 18)))
    have hw := hnumber (p := delta16 hdr ip (th + 14) ≠ 0) (length_encode_le (delta16 hdr ip (th + 14)))
    have ha := hnumber (p := delta32 hdr ip (th + 8) ≠ 0) (length_encode_le (delta32 hdr ip (th + 8)))
    have hs := hnumber (p := delta32 hdr ip (th + 4) ≠ 0) (length_encode_le (delta32 hdr ip (th + 4)))
    simp only [encodeNumbers, List.length_append]
    omega
  · exact Nat.zero_le _
  · exact Nat.zero_le _

/-- The changes take few bytes. -/
theorem length_vjChanges_le (h : vjChanges hdr ip th thl hlen = some (changes, bs)) : bs.length ≤ 15 := by
  obtain ⟨ch, newSeq, hcomp, -, rfl⟩ := compressed_of_vjChanges h
  have hnumbers := hcomp.length_le
  have hident := length_encodez_le (delta16 hdr ip 4)
  rw [List.length_append]
  split_ifs
  · omega
  · exact hnumbers.trans (by omega)

/-- The first bytes are those of both headers. -/
theorem AckHeaders.congr (hip : AckHeaders ip) (h : ∀ k < hdrLen ip, g k = ip k) :
    hdrLen g = hdrLen ip ∧ AckHeaders g := by
  have h5 := hip.hl
  have h5' := hip.thl
  rw [hdrLen] at h
  have hhl : iphHl g = iphHl ip := by rw [iphHl, h 0 (by omega), ← iphHl]
  have hthl : tcphHdrlen g (iphHl ip * 4) = tcphHdrlen ip (iphHl ip * 4) := by
    rw [tcphHdrlen, h _ (by omega), ← tcphHdrlen]
  have hflags : g (iphHl ip * 4 + 13) = ip (iphHl ip * 4 + 13) := h _ (by omega)
  refine ⟨by rw [hdrLen, hdrLen, hhl, hthl], ⟨⟨by rw [hhl]; exact h5, by rw [hhl, hthl]; exact h5', ?_⟩, ?_⟩⟩
  · rw [hhl, h _ (by omega), hflags]
    exact hip.reserved
  · rw [hhl, tcphFlags, hflags, ← tcphFlags]
    exact hip.flags

/-- **The receiver's slot has the header of the sender's.** -/
structure Mirrors (r t : Cstate) : Prop where
  csHlen : r.csHlen = hdrLen t.csHdr
  eq : ∀ k < hdrLen t.csHdr, r.csHdr k = t.csHdr k
  headers : AckHeaders t.csHdr

/-- Both slots have the header of a packet. -/
theorem Mirrors.of_eq {r t : Cstate} (hip : AckHeaders ip) (hlen : r.csHlen = hdrLen ip)
    (hr : ∀ k < hdrLen ip, r.csHdr k = ip k) (ht : ∀ k < hdrLen ip, t.csHdr k = ip k) : Mirrors r t := by
  obtain ⟨hlen', hheaders⟩ := hip.congr ht
  exact ⟨hlen.trans hlen'.symm, fun k hk ↦ (hr k (hlen' ▸ hk)).trans (ht k (hlen' ▸ hk)).symm, hheaders⟩

/-- **The receiver restores the header** of a packet that keeps the flags of the last one. -/
theorem Mirrors.restores {r t : Cstate} {alg : ChksumAlgorithm} {addr : ℕ} {e : BitVec 8} (hm : Mirrors r t)
    (hip : AckHeaders ip) (hchk : Checked alg addr ip) (hconn : VjCompress.sameConnection ip t = true)
    (hchanges : vjChanges t.csHdr ip (iphHl ip * 4) (tcphHdrlen ip (iphHl ip * 4)) (hdrLen ip) = some (changes, bs))
    (hkeep : KeepsFlags t.csHdr ip (iphHl ip * 4)) (he : e = 0 ∨ e = newC)
    (hat : At mem cp ([BitVec.ofNat 8 (readU16 ip (iphHl ip * 4 + 16) / 2 ^ 8),
      BitVec.ofNat 8 (readU16 ip (iphHl ip * 4 + 16))] ++ bs)) :
    r.csHlen = hdrLen ip ∧ (vjRebuild mem (changes ||| e) r cp).2 = cp + 2 + bs.length ∧
      ∀ n, n % 2 ^ 16 = readU16 ip 2 → ∀ k < hdrLen ip,
        vjFinish (vjRebuild mem (changes ||| e) r cp).1 n k = ip k := by
  obtain ⟨ch, newSeq, hcomp, rfl, rfl⟩ := compressed_of_vjChanges hchanges
  obtain ⟨hhl, hlen, hfields⟩ := eqOn_of_sameHeader hcomp.same hconn hip hm.headers
  have heq := hm.eq
  rw [hlen] at heq
  have h5 := hip.hl
  have h5' := hip.thl
  have hcs : r.csHlen = hdrLen ip := hm.csHlen.trans hlen
  have hcomp' : Compressed r.csHdr ip (iphHl ip * 4) (tcphHdrlen ip (iphHl ip * 4)) r.csHlen ch newSeq := by
    rw [hcs]
    exact hcomp.congr (fun k hk ↦ (heq k hk).symm) (by omega) h5'
  have hident : delta16 t.csHdr ip 4 = delta16 r.csHdr ip 4 := by
    rw [delta16, delta16, readU16_congr fun k hk ↦ heq k (by have := hk.2; rw [hdrLen]; omega)]
  have hrhl : iphHl r.csHdr = iphHl ip := by
    rw [iphHl, heq 0 (by rw [hdrLen]; omega), ← iphHl, hhl]
  rw [hident] at hat ⊢
  obtain ⟨hupdated, hflags, hstop⟩ := vjRebuild_spec hcomp' (firstByte_or hcomp.sent.and_specialsMask he)
    (by rw [hrhl]) (by omega) hat
  refine ⟨hcs, hstop, fun n hn k hk ↦ vjFinish_eq ?_ (Nat.le_add_right _ _) h5 hn hchk hk⟩
  intro k hk hfinished
  rcases eq_or_ne k (iphHl ip * 4 + 13) with rfl | hne
  · rw [hflags, heq _ (by rw [hdrLen]; omega)]
    exact (setFlags_eq_iff hip hm.headers hhl).2 hkeep
  by_cases hplace : k ∈ rebuiltPlaces (iphHl ip * 4)
  · exact hupdated.new k hplace hne
  · rw [hupdated.old k hplace hne, heq k hk]
    exact hfields k hk hplace hfinished hne

end Lwip.Netif.Ppp
