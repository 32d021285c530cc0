import LwipPoc.Netif.Ppp.VjRebuild
import LwipPoc.Netif.Ppp.VjSlots

/-!
# Packets across a compressed link

The receiver's slots have the headers of the sender's (`Synced`), whatever packets cross the link. So a compressed
packet comes out byte for byte, **unless the last packet of its connection had a `PSH` or a `URG` that it does not
have**: `TCPH_UNSET_FLAG` does not take these back, and the packet comes out with them (`pushed_again`). Runs in which
this does not happen are lossless (`run_lossless`).
-/

namespace Lwip.Netif.Ppp

open Lwip.Core Ipv4

/-! ### The pbufs -/

variable {p : Pbuf} {ps qs : List Pbuf} {bs hdr : List (BitVec 8)} {n csHlen : ℕ} {behind : ℕ → BitVec 8}

theorem bytesAt_of_lt {k : ℕ} (hk : k < bs.length) : bytesAt bs behind k = bs[k] := by
  rw [bytesAt, List.getElem?_eq_getElem hk, Option.getD_some]

/-- What lies behind the bytes does not count for what is read from them. -/
theorem bytesAt_congr {behind' : ℕ → BitVec 8} {k : ℕ} (hk : k < bs.length) : bytesAt bs behind k = bytesAt bs behind' k := by
  rw [bytesAt_of_lt hk, bytesAt_of_lt hk]

theorem at_bytesAt (bs cs : List (BitVec 8)) (behind : ℕ → BitVec 8) : At (bytesAt (bs ++ cs) behind) 0 bs := by
  intro i b hb
  obtain ⟨hi, rfl⟩ := List.getElem?_eq_some_iff.1 hb
  rw [Nat.zero_add, bytesAt_of_lt (by rw [List.length_append]; omega), List.getElem_append_left hi]

theorem hdrBytes_bytesAt (hn : n ≤ bs.length) : hdrBytes (bytesAt bs behind) n = bs.take n := by
  refine List.ext_getElem (by rw [hdrBytes, List.length_map, List.length_range, List.length_take, Nat.min_eq_left hn]) ?_
  intro i hi hi'
  rw [List.length_take] at hi'
  simp only [hdrBytes, List.getElem_map, List.getElem_range, List.getElem_take]
  exact bytesAt_of_lt (by omega)

/-- The pbufs that are allocated have the bytes. -/
theorem poolPbufs_spec (hn : bs.length < n) : Totals (poolPbufs n bs) ∧ pbufBytes (poolPbufs n bs) = bs ∧
    ∃ q qs, poolPbufs n bs = q :: qs ∧ q.len = min pbufPoolBufsize bs.length := by
  induction n generalizing bs with
  | zero => exact absurd hn (Nat.not_lt_zero _)
  | succ n ih =>
    rw [poolPbufs]
    split_ifs with hsmall
    · have htake : bs.take pbufPoolBufsize = bs := List.take_of_length_le hsmall
      refine ⟨⟨?_, trivial⟩, ?_, _, _, rfl, ?_⟩
      · rw [pbufBytes_single, htake]
      · rw [pbufBytes_single, htake]
      · rw [Pbuf.len, List.length_take]
    · have hrest : (bs.drop pbufPoolBufsize).length < n := by
        rw [List.length_drop]
        have : 0 < pbufPoolBufsize := by decide
        omega
      obtain ⟨htotals, hbytes, -⟩ := ih hrest
      refine ⟨⟨?_, htotals⟩, ?_, _, _, rfl, ?_⟩
      · rw [pbufBytes_cons, hbytes, List.take_append_drop]
      · rw [pbufBytes_cons, hbytes, List.take_append_drop]
      · rw [Pbuf.len, List.length_take]

/-- **The aligned copy** has the bytes of the packet. -/
theorem vjRealign_spec (ht : Totals (p :: ps)) (hsize : csHlen + (pbufBytes (p :: ps)).length < 2 ^ 16)
    (hhlen : csHlen ≤ pbufPoolBufsize) :
    ∃ q qs, vjRealign csHlen (p :: ps) = some (q :: qs) ∧ pbufBytes (q :: qs) = pbufBytes (p :: ps) ∧
      Totals (q :: qs) := by
  have hlength : (List.replicate csHlen (0 : BitVec 8) ++ p.payload).length = csHlen + p.len := by
    rw [List.length_append, List.length_replicate, Pbuf.len]
  obtain ⟨hnew, hbytes, r, rs, heq, hlen⟩ := poolPbufs_spec (n := csHlen + p.len + 1) (by rw [hlength]; omega)
  have hple : p.len ≤ (pbufBytes (p :: ps)).length := by
    rw [pbufBytes_cons, List.length_append, Pbuf.len]
    omega
  rw [vjRealign]
  rw [heq] at hnew hbytes ⊢
  rw [hlength] at hlen
  obtain ⟨qs, hhide, hqs, hcount, hqbytes⟩ := hnew.hide (n := csHlen) (by omega) (by rw [hbytes, hlength]; omega)
  have hqbytes' : pbufBytes qs = p.payload := by
    rw [hqbytes, hbytes, List.drop_left' (List.length_replicate)]
  obtain ⟨q, qs, rfl⟩ := List.exists_cons_of_ne_nil (show qs ≠ [] by rintro rfl; cases hcount)
  rw [hhide, Option.bind_some]
  split_ifs with hps
  · subst hps
    exact ⟨q, qs, rfl, by rw [hqbytes', pbufBytes_single], hqs⟩
  · obtain ⟨c, hcat, hc, hccount, hcbytes⟩ := hqs.cat ht.2 (List.cons_ne_nil _ _) (by
      rw [hqbytes']
      rw [pbufBytes_cons, List.length_append] at hsize
      omega)
    obtain ⟨d, ds, rfl⟩ := List.exists_cons_of_ne_nil (show c ≠ [] by
      rintro rfl
      rw [List.length_nil, List.length_cons] at hccount
      omega)
    exact ⟨d, ds, hcat, by rw [hcbytes, hqbytes', pbufBytes_cons], hc⟩

/-- **The header comes to the front.** -/
theorem vjPrepend_spec {room prepend : Bool} (h : room = true ∨ prepend = true) (hhdr : hdr.length ≤ pbufPoolBufsize) :
    ∃ qs, vjPrepend room prepend hdr (p :: ps) = some (some qs) ∧ pbufBytes qs = hdr ++ pbufBytes (p :: ps) := by
  rw [vjPrepend]
  split_ifs with hroom hbig hprepend
  · exact ⟨_, rfl, by rw [pbufBytes_cons, pbufBytes_cons, List.append_assoc]⟩
  · exact absurd hhdr (Nat.not_le_of_lt hbig)
  · exact ⟨_, congrArg (Option.map some) (if_pos rfl), rfl⟩
  · exact absurd (h.resolve_left hroom) hprepend

/-! ### Packets -/

/-- What the sender reads of a packet. -/
def VjInput.ip (x : VjInput) : Hdr := bytesAt ((x.pb.head?.map Pbuf.payload).getD []) x.behind

/-- **A TCP packet**, whole, with its headers in the first pbuf, its length in the total length field, and the header
checksum of `inet_chksum`. -/
structure TcpPacket (alg : ChksumAlgorithm) (ip : Hdr) (pb : List Pbuf) : Prop extends TcpHeaders ip where
  totals : Totals pb
  len : pbufTotLen pb = readU16 ip 2
  first : ∀ p ∈ pb.head?, hdrLen ip ≤ p.len
  checked : ∃ addr, Checked alg addr ip

/-- What may be sent: any packet of another kind, fragments among them, and TCP packets. The receiver has memory. -/
structure Sendable (alg : ChksumAlgorithm) (x : VjInput) : Prop where
  pb : x.pb ≠ []
  tcp : x.ip 9 = 6 → readU16 x.ip 6 % 2 ^ 14 = 0 → TcpPacket alg x.ip x.pb
  realign : x.env.realign = true
  prepend : x.env.prepend = true

/-- **The packet keeps the flags** of the last one of its connection, if it is compressed. -/
def KeepsPushed (comp : VjCompress) (ip : Hdr) : Prop :=
  tcphFlags ip (iphHl ip * 4) &&& (tcpSyn ||| tcpFin ||| tcpRst ||| tcpAck) = tcpAck →
    ∀ i < maxSlots, VjCompress.sameConnection ip (comp.tstate i) = true →
      vjChanges (comp.tstate i).csHdr ip (iphHl ip * 4) (tcphHdrlen ip (iphHl ip * 4)) (hdrLen ip) ≠ none →
        KeepsFlags (comp.tstate i).csHdr ip (iphHl ip * 4)

instance {comp : VjCompress} {ip : Hdr} : Decidable (KeepsPushed comp ip) := inferInstanceAs (Decidable (_ → _))

/-! ### The two ends -/

/-- **The two ends agree**: a slot of the sender is unused, or the receiver's has its header; and the slot of the last
packet is the one that the receiver takes a packet without a slot number for. -/
structure Synced (s : VjLink) : Prop where
  ring : s.xmit.Ring
  slots : ∀ i < maxSlots, (s.xmit.tstate i).csHdr 0 = 0 ∨ Mirrors (s.recv.rstate i) (s.xmit.tstate i)
  last : s.xmit.lastXmit = 255 ∨ s.recv.toss = false ∧ s.recv.lastRecv = s.xmit.lastXmit

variable {s : VjLink} {comp recv : VjCompress} {ip : Hdr} {cs : ℕ}

/-- Both ends have the header of a packet in the slot `cs`, which was sent last. -/
theorem Synced.update {r : Cstate} {h : Hdr} (hs : Synced s) (hring : comp.Ring) (hsame : s.xmit.SameSlots comp)
    (hip : AckHeaders ip) (hlen : r.csHlen = hdrLen ip) (hr : ∀ k < hdrLen ip, r.csHdr k = ip k)
    (ht : ∀ k < hdrLen ip, h k = ip k) (hrecv : recv.rstate = Function.update s.recv.rstate cs r)
    (htoss : recv.toss = false) (hlast : recv.lastRecv = (comp.tstate cs).csId) :
    Synced ⟨{ comp.setHdr cs h with lastXmit := (comp.tstate cs).csId }, recv⟩ where
  ring := hring.setHdr cs h _
  slots i hi := by
    show ((comp.setHdr cs h).tstate i).csHdr 0 = 0 ∨ Mirrors (recv.rstate i) ((comp.setHdr cs h).tstate i)
    rw [VjCompress.setHdr_tstate, hrecv]
    rcases eq_or_ne i cs with rfl | hne
    · rw [if_pos rfl, Function.update_self]
      exact Or.inr (.of_eq hip hlen hr ht)
    · rw [if_neg hne, Function.update_of_ne hne, hsame.csHdr]
      refine (hs.slots i hi).imp_right fun hm ↦ ?_
      obtain ⟨hhlen, heq, hheaders⟩ := hm
      rw [← hsame.csHdr] at hhlen heq hheaders
      exact ⟨hhlen, heq, hheaders⟩
  last := Or.inr ⟨htoss, hlast⟩

theorem toNat_csId (hcs : cs < maxSlots) : (BitVec.ofNat 8 cs).toNat = cs := by
  rw [BitVec.toNat_ofNat, Nat.mod_eq_of_lt (hcs.trans (by decide))]

/-- A byte is written in front of the TCP header and is no part of what is read. -/
theorem bytesAt_set {c : BitVec 8} {k : ℕ} (hk : k ≠ 9) : bytesAt (bs.set 9 c) behind k = bytesAt bs behind k := by
  rw [bytesAt, bytesAt, List.getElem?_set_ne hk.symm]

/-- **An uncompressed packet** carries the slot number in the field of the protocol, and gets it back. -/
theorem Synced.uncompressed (hs : Synced s) (hring : comp.Ring) (hsame : s.xmit.SameSlots comp) (hcs : cs < maxSlots)
    (hip : AckHeaders (bytesAt p.payload behind)) (htcp : bytesAt p.payload behind 9 = 6)
    (hfirst : hdrLen (bytesAt p.payload behind) ≤ p.len) (ps : List Pbuf) (behind' : ℕ → BitVec 8) :
    ∃ recv, vjUncompressUncomp s.recv behind' ({ p with payload := p.payload.set 9 (comp.tstate cs).csId } :: ps) =
        some (recv, some (p :: ps)) ∧
      Synced ⟨{ comp.setHdr cs (copyHdr (hdrLen (bytesAt p.payload behind)) (bytesAt p.payload behind)
        (comp.tstate cs).csHdr) with lastXmit := (comp.tstate cs).csId }, recv⟩ := by
  set ip := bytesAt p.payload behind with hipdef
  have h5 := hip.hl
  have h5' := hip.thl
  have hl15 := iphHl_le ip
  have hthl15 := tcphHdrlen_le ip (iphHl ip * 4)
  have hlen : hdrLen ip = iphHl ip * 4 + tcphHdrlen ip (iphHl ip * 4) * 4 := rfl
  have hnine : 9 < p.payload.length := by
    rw [Pbuf.len] at hfirst
    omega
  rw [hring.csId cs hcs]
  have hread : ∀ k < hdrLen ip, k ≠ 9 → bytesAt (p.payload.set 9 (BitVec.ofNat 8 cs)) behind' k = ip k := by
    intro k hk hk9
    rw [bytesAt_set hk9, hipdef]
    exact bytesAt_congr (by rw [Pbuf.len] at hfirst; omega)
  have hslot : bytesAt (p.payload.set 9 (BitVec.ofNat 8 cs)) behind' 9 = BitVec.ofNat 8 cs := by
    rw [bytesAt_of_lt (by rw [List.length_set]; exact hnine), List.getElem_set_self]
  have hhl : iphHl (bytesAt (p.payload.set 9 (BitVec.ofNat 8 cs)) behind') = iphHl ip := by
    rw [iphHl, hread 0 (by omega) (by decide), ← iphHl]
  have hthl : tcphHdrlen (bytesAt (p.payload.set 9 (BitVec.ofNat 8 cs)) behind') (iphHl ip * 4) =
      tcphHdrlen ip (iphHl ip * 4) := by
    rw [tcphHdrlen, hread _ (by omega) (by omega), ← tcphHdrlen]
  have hrestored : (p.payload.set 9 (BitVec.ofNat 8 cs)).set 9 6 = p.payload := by
    rw [List.set_set, ← htcp, hipdef, bytesAt_of_lt hnine, List.set_getElem_self]
  rw [vjUncompressUncomp]
  simp only [hhl, hthl, hslot, toNat_csId hcs, Pbuf.len, List.length_set, hrestored]
  rw [Pbuf.len] at hfirst
  have hmax : maxHdr = 128 := rfl
  rw [if_neg (by omega)]
  refine ⟨_, rfl, ?_⟩
  rw [← hring.csId cs hcs]
  refine hs.update (r := { s.recv.rstate cs with
    csHdr := copyHdr (hdrLen ip) (bytesAt p.payload behind') (s.recv.rstate cs).csHdr, csHlen := hdrLen ip })
    hring hsame hip rfl (fun k hk ↦ ?_) (fun k hk ↦ if_pos hk) rfl rfl rfl
  exact (if_pos hk).trans (bytesAt_congr (by omega))

/-- **The receiver behind the slot number**: the header it makes takes the place of the compressed one. -/
theorem vjUncompressSlot_spec {env : VjEnv} {changes : BitVec 8} {cp L : ℕ} {r : Cstate} {h : Hdr}
    (hr : comp.rstate comp.lastRecv.toNat = r)
    (hrebuild : vjRebuild (bytesAt p.payload env.behind) changes r cp = (h, L))
    (hL : L ≤ p.len) (ht : Totals (p :: ps)) (hhlen : r.csHlen ≤ pbufPoolBufsize)
    (hsize : r.csHlen + (pbufBytes (p :: ps)).length < L + 2 ^ 16) (hlt : (pbufBytes (p :: ps)).length < 2 ^ 16)
    (hrealign : env.realign = true) (hprepend : env.prepend = true) :
    ∃ pb, vjUncompressSlot comp env changes cp p ps = some (comp.setRHdr comp.lastRecv.toNat
        (vjFinish h (p.totLen + 2 ^ 32 - L + r.csHlen)), some pb) ∧
      pbufBytes pb = hdrBytes (vjFinish h (p.totLen + 2 ^ 32 - L + r.csHlen)) r.csHlen ++
        (pbufBytes (p :: ps)).drop L := by
  rw [vjUncompressSlot, hr]
  simp only [hrebuild]
  rw [if_neg (Nat.not_lt_of_le hL)]
  obtain ⟨n0, hhide, hn0, hcount, hbytes⟩ := ht.hide hL hlt
  obtain ⟨q, qs, rfl⟩ := List.exists_cons_of_ne_nil (show n0 ≠ [] by rintro rfl; cases hcount)
  have hqlen : (pbufBytes (q :: qs)).length = (pbufBytes (p :: ps)).length - L := by rw [hbytes, List.length_drop]
  have hLle : L ≤ (pbufBytes (p :: ps)).length := by
    rw [pbufBytes_cons, List.length_append]
    rw [Pbuf.len] at hL
    omega
  rw [hhide, Option.bind_some, if_neg (by rw [hrealign]; simp)]
  -- aligned in place, or as a copy with room for the header
  obtain ⟨b, bs, halign, hbbytes⟩ : ∃ b bs, (if env.aligned = true then some (q :: qs)
      else vjRealign r.csHlen (q :: qs)) = some (b :: bs) ∧ pbufBytes (b :: bs) = pbufBytes (q :: qs) := by
    split_ifs
    · exact ⟨q, qs, rfl, rfl⟩
    · obtain ⟨b, bs, hb, hbbytes, -⟩ := vjRealign_spec hn0 (by rw [hqlen]; omega) hhlen
      exact ⟨b, bs, hb, hbbytes⟩
  have hlength : (hdrBytes (vjFinish h (p.totLen + 2 ^ 32 - L + r.csHlen)) r.csHlen).length ≤ pbufPoolBufsize := by
    rw [hdrBytes, List.length_map, List.length_range]
    exact hhlen
  obtain ⟨pb, hpb, hpbytes⟩ := @vjPrepend_spec b bs _ (!env.aligned || env.room) _ (Or.inr hprepend) hlength
  rw [halign, Option.bind_some, hpb]
  exact ⟨pb, rfl, by rw [hpbytes, hbbytes, hbytes]⟩

/-- **The receiver takes the packet for the right slot**, with its number or without. -/
theorem vjUncompressTcp_read {changes : BitVec 8} {chksum : ℕ} {rest : List (BitVec 8)} (env : VjEnv) (ps : List Pbuf)
    (hcs : cs < maxSlots) (hlast : comp.lastXmit = 255 ∨ recv.toss = false ∧ recv.lastRecv = comp.lastXmit) (hnew : changes &&& newC = 0)
    (hp : p.payload = vjHeader comp (BitVec.ofNat 8 cs) changes chksum bs ++ rest) :
    ∃ recv' cp e, vjUncompressTcp recv env (p :: ps) = vjUncompressSlot recv' env (changes ||| e) cp p ps ∧
      recv'.toss = false ∧ recv'.lastRecv = BitVec.ofNat 8 cs ∧ recv'.rstate = recv.rstate ∧ (e = 0 ∨ e = newC) ∧
      At (bytesAt p.payload env.behind) cp ([BitVec.ofNat 8 (chksum / 2 ^ 8), BitVec.ofNat 8 chksum] ++ bs) ∧
      (vjHeader comp (BitVec.ofNat 8 cs) changes chksum bs).length = cp + 2 + bs.length ∧ cp ≤ 2 := by
  have hat := at_bytesAt (vjHeader comp (BitVec.ofNat 8 cs) changes chksum bs) rest env.behind
  rw [← hp] at hat
  rw [vjHeader, List.append_assoc] at hat ⊢
  rw [vjUncompressTcp]
  by_cases hfull : (!comp.compressSlot || decide (comp.lastXmit ≠ BitVec.ofNat 8 cs)) = true
  · rw [if_pos hfull] at hat ⊢
    have hfirst : bytesAt p.payload env.behind 0 = changes ||| newC := hat.head
    have hslot : bytesAt p.payload env.behind 1 = BitVec.ofNat 8 cs := hat.tail.head
    have hbit : (changes ||| newC) &&& newC ≠ 0 := by
      rw [BitVec.and_or_distrib_right, hnew]
      decide
    simp only [hfirst, hslot, toNat_csId hcs]
    rw [if_pos hbit, if_neg (Nat.not_le_of_lt hcs)]
    refine ⟨_, 2, newC, rfl, rfl, rfl, rfl, Or.inr rfl, hat.right, ?_, le_rfl⟩
    simp only [List.length_append, List.length_cons, List.length_nil]
    omega
  · rw [if_neg hfull] at hat ⊢
    have hfirst : bytesAt p.payload env.behind 0 = changes := hat.head
    have hsame : comp.lastXmit = BitVec.ofNat 8 cs := by
      simp only [Bool.or_eq_true, Bool.not_eq_true', decide_eq_true_eq, not_or, not_not] at hfull
      exact hfull.2
    obtain ⟨htoss, hrecv⟩ := hlast.resolve_left fun h255 ↦ by
      have hto := toNat_csId hcs
      rw [← hsame, h255] at hto
      rw [maxSlots] at hcs
      exact absurd hto (by rw [show (255 : BitVec 8).toNat = 255 from rfl]; omega)
    simp only [hfirst]
    rw [if_neg (not_not.2 hnew), if_neg (by rw [htoss]; exact Bool.false_ne_true)]
    refine ⟨recv, 1, 0, by rw [show changes ||| 0 = changes from BitVec.or_zero], htoss, hrecv.trans hsame, rfl, Or.inl rfl, hat.right, ?_, by omega⟩
    simp only [List.length_append, List.length_cons, List.length_nil]
    omega

/-- **A compressed packet** comes out as it was, if it keeps the flags of the last one. -/
theorem Synced.compressed {env : VjEnv} {changes : BitVec 8} {alg : ChksumAlgorithm} (hs : Synced s) (hring : comp.Ring)
    (hsame : s.xmit.SameSlots comp) (hcs : cs < maxSlots) (hip : AckHeaders (bytesAt p.payload behind))
    (hpacket : TcpPacket alg (bytesAt p.payload behind) (p :: ps))
    (hconn : VjCompress.sameConnection (bytesAt p.payload behind) (s.xmit.tstate cs) = true)
    (hchanges : vjChanges (s.xmit.tstate cs).csHdr (bytesAt p.payload behind) (iphHl (bytesAt p.payload behind) * 4)
      (tcphHdrlen (bytesAt p.payload behind) (iphHl (bytesAt p.payload behind) * 4))
      (hdrLen (bytesAt p.payload behind)) = some (changes, bs))
    (hkeep : KeepsFlags (s.xmit.tstate cs).csHdr (bytesAt p.payload behind) (iphHl (bytesAt p.payload behind) * 4))
    (hrealign : env.realign = true) (hprepend : env.prepend = true) :
    ∃ xmit pb recv pb', sendCompressed comp cs (bytesAt p.payload behind) (iphHl (bytesAt p.payload behind) * 4)
        (hdrLen (bytesAt p.payload behind)) changes bs (p :: ps) = some (.compressedTcp, xmit, pb) ∧
      vjUncompressTcp s.recv env pb = some (recv, some pb') ∧ pbufBytes pb' = pbufBytes (p :: ps) ∧
      Synced ⟨xmit, recv⟩ := by
  obtain ⟨addr, hchk⟩ := hpacket.checked
  have hfirst : hdrLen (bytesAt p.payload behind) ≤ p.len := hpacket.first p rfl
  have hlen : p.totLen = readU16 (bytesAt p.payload behind) 2 := hpacket.len
  have htotals := hpacket.totals
  have htake : hdrBytes (bytesAt p.payload behind) (hdrLen (bytesAt p.payload behind)) =
      p.payload.take (hdrLen (bytesAt p.payload behind)) := hdrBytes_bytesAt hfirst
  generalize bytesAt p.payload behind = ip at *
  have h5 := hip.hl
  have h5' := hip.thl
  have hl15 := iphHl_le ip
  have hthl15 := tcphHdrlen_le ip (iphHl ip * 4)
  have hhlen : hdrLen ip = iphHl ip * 4 + tcphHdrlen ip (iphHl ip * 4) * 4 := rfl
  have hbs := length_vjChanges_le hchanges
  have htot := htotals.1
  have hlt := readU16_lt ip 2
  -- the slot is used, as its header begins like the packet's
  have hm : Mirrors (s.recv.rstate cs) (s.xmit.tstate cs) := by
    refine (hs.slots cs hcs).resolve_left fun hzero ↦ ?_
    obtain ⟨ch, newSeq, hcomp, -⟩ := compressed_of_vjChanges hchanges
    have hversion := hcomp.same
    simp only [sameHeader, Bool.and_eq_true, decide_eq_true_eq] at hversion
    rw [iphHl, (bytes_eq_of_readU16 hversion.1.1.1.1.1).1, hzero] at h5
    exact absurd h5 (by decide)
  set vj := vjHeader comp (BitVec.ofNat 8 cs) changes (readU16 ip (iphHl ip * 4 + 16)) bs with hvj
  set q : Pbuf := ⟨vj ++ p.payload.drop (hdrLen ip), (p.totLen + 2 ^ 16 - (hdrLen ip - vj.length)) % 2 ^ 16⟩ with hq
  have hlast : comp.lastXmit = 255 ∨ s.recv.toss = false ∧ s.recv.lastRecv = comp.lastXmit := by
    rw [hsame.lastXmit]
    exact hs.last
  obtain ⟨recv', cp, e, hread, htoss, hslot, hstate, he, hat, hvjlen, hcp⟩ :=
    vjUncompressTcp_read env ps hcs hlast (newC_of_vjChanges hchanges) (show q.payload = vj ++ _ from rfl)
  obtain ⟨hcsHlen, hstop, hrestored⟩ := hm.restores hip hchk hconn hchanges hkeep he hat
  rw [← hvj] at hvjlen
  have hsmall : vj.length ≤ hdrLen ip := by omega
  have hqlen : q.len = vj.length + (p.payload.length - hdrLen ip) := by
    rw [hq, Pbuf.len, List.length_append, List.length_drop]
  rw [Pbuf.len] at hfirst
  simp only [pbufBytes_cons, List.length_append] at htot
  have hqbytes : (pbufBytes (q :: ps)).length = q.len + (pbufBytes ps).length := by
    rw [pbufBytes_cons, List.length_append, Pbuf.len]
  have hqtot : q.totLen = (pbufBytes (q :: ps)).length := by
    rw [hqbytes, hqlen, hq]
    dsimp only
    omega
  have hslot' : recv'.lastRecv.toNat = cs := by rw [hslot, toNat_csId hcs]
  have hbuf : pbufPoolBufsize = 592 := rfl
  have hslot'' : recv'.rstate recv'.lastRecv.toNat = s.recv.rstate cs := by rw [hslot', hstate]
  have hrebuild : vjRebuild (bytesAt q.payload env.behind) (changes ||| e) (s.recv.rstate cs) cp =
      ((vjRebuild (bytesAt q.payload env.behind) (changes ||| e) (s.recv.rstate cs) cp).1, vj.length) :=
    Prod.ext rfl (hstop.trans hvjlen.symm)
  obtain ⟨pb', hpb, hpbytes⟩ := vjUncompressSlot_spec hslot'' hrebuild (show vj.length ≤ q.len by omega)
    (show Totals (q :: ps) from ⟨hqtot, htotals.2⟩) (by omega) (by omega) (by omega) hrealign hprepend
  have hhdr := hrestored (q.totLen + 2 ^ 32 - vj.length + (s.recv.rstate cs).csHlen) (by omega)
  refine ⟨{ comp.setHdr cs (copyHdr (hdrLen ip) ip (comp.tstate cs).csHdr) with lastXmit := (comp.tstate cs).csId },
    q :: ps, _, pb', ?_, hread.trans hpb, ?_, ?_⟩
  · rw [sendCompressed, hring.csId cs hcs, ← hvj, if_neg (Nat.not_lt_of_le hsmall), pbufHide,
      if_pos (by rw [Pbuf.len]; omega)]
    simp only [Option.map_some, List.modify_zero_cons, List.drop_drop, Nat.sub_add_cancel hsmall]
    rfl
  · have hrest : (pbufBytes (q :: ps)).drop vj.length = p.payload.drop (hdrLen ip) ++ pbufBytes ps := by
      rw [pbufBytes_cons, hq, List.append_assoc, List.drop_left]
    have hbytes : hdrBytes (vjFinish (vjRebuild (bytesAt q.payload env.behind) (changes ||| e) (s.recv.rstate cs) cp).1
        (q.totLen + 2 ^ 32 - vj.length + (s.recv.rstate cs).csHlen)) (s.recv.rstate cs).csHlen =
          p.payload.take (hdrLen ip) := by
      rw [hcsHlen, ← htake]
      exact List.map_congr_left fun k hk ↦ hcsHlen ▸ hhdr k (List.mem_range.1 hk)
    rw [hpbytes, hbytes, hrest, ← List.append_assoc, List.take_append_drop, pbufBytes_cons]
  · rw [← hring.csId cs hcs] at hslot
    refine hs.update (r := { s.recv.rstate cs with
      csHdr := vjFinish (vjRebuild (bytesAt q.payload env.behind) (changes ||| e) (s.recv.rstate cs) cp).1
        (q.totLen + 2 ^ 32 - vj.length + (s.recv.rstate cs).csHlen) }) hring hsame hip hcsHlen hhdr
      (fun k hk ↦ if_pos hk) ?_ htoss hslot
    rw [VjCompress.setRHdr, hslot', hstate]

/-! ### Runs -/

variable {alg : ChksumAlgorithm} {x : VjInput} {xs : List VjInput}

/-- What is not a whole TCP packet with an acknowledgement alone is sent as it is. -/
theorem vjCompressTcp_cases (comp : VjCompress) (behind : ℕ → BitVec 8) (p : Pbuf) (ps : List Pbuf) :
    vjCompressTcp comp behind (p :: ps) = some (.ip, comp, p :: ps) ∨
      (bytesAt p.payload behind 9 = 6 ∧ readU16 (bytesAt p.payload behind) 6 % 2 ^ 14 = 0 ∧
        tcphFlags (bytesAt p.payload behind) (iphHl (bytesAt p.payload behind) * 4) &&&
          (tcpSyn ||| tcpFin ||| tcpRst ||| tcpAck) = tcpAck) := by
  rw [vjCompressTcp]
  split_ifs with hproto hwhole hflags
  · exact Or.inl rfl
  · exact Or.inl rfl
  · exact Or.inl rfl
  · rw [not_or] at hwhole
    exact Or.inr ⟨not_not.1 hproto, not_not.1 hwhole.1, not_not.1 hflags⟩

/-- **A packet crosses the link**, and the two ends agree behind it. -/
theorem Synced.pass (hs : Synced s) (hx : Sendable alg x) (hkeep : KeepsPushed s.xmit x.ip) :
    ∃ s' pb, s.pass x = some (s', some pb) ∧ pbufBytes pb = pbufBytes x.pb ∧ Synced s' := by
  obtain ⟨pb, behind, env⟩ := x
  obtain ⟨p, ps, rfl⟩ := List.exists_cons_of_ne_nil hx.pb
  rcases vjCompressTcp_cases s.xmit behind p ps with hsame | ⟨hproto, hwhole, hflags⟩
  · exact ⟨s, p :: ps, by rw [VjLink.pass, hsame]; rfl, rfl, hs⟩
  have hpacket : TcpPacket alg (bytesAt p.payload behind) (p :: ps) := hx.tcp hproto hwhole
  have hip : AckHeaders (bytesAt p.payload behind) := ⟨hpacket.toTcpHeaders, hflags⟩
  have hfirst : hdrLen (bytesAt p.payload behind) ≤ p.len := hpacket.first p rfl
  have hlong : ¬(readU16 (bytesAt p.payload behind) 6 % 2 ^ 14 ≠ 0 ∨ p.totLen < 40) := by
    have h5 := hip.hl
    have h5' := hip.thl
    have htot := hpacket.totals.1
    rw [hdrLen, Pbuf.len] at hfirst
    rw [pbufBytes_cons, List.length_append] at htot
    omega
  have hkept := fun i hi ↦ hkeep hflags i hi
  obtain ⟨comp, cs, found, hlocate, hring, hslots, hcs, hfound⟩ :=
    VjCompress.locate_spec hs.ring (bytesAt p.payload behind)
  have hhdr : (comp.tstate cs).csHdr = (s.xmit.tstate cs).csHdr := hslots.csHdr cs
  obtain ⟨changed, hchanged⟩ : ∃ c, c = if found = true then
      vjChanges (comp.tstate cs).csHdr (bytesAt p.payload behind) (iphHl (bytesAt p.payload behind) * 4)
        (tcphHdrlen (bytesAt p.payload behind) (iphHl (bytesAt p.payload behind) * 4))
        (hdrLen (bytesAt p.payload behind)) else none := ⟨_, rfl⟩
  -- what the compressor does once the state of the connection was located
  have hlocated : vjCompressTcp s.xmit behind (p :: ps) = changed.elim
      (some (sendUncompressed comp cs (bytesAt p.payload behind) (hdrLen (bytesAt p.payload behind)) p ps))
      fun r ↦ sendCompressed comp cs (bytesAt p.payload behind)
        (iphHl (bytesAt p.payload behind) * 4) (hdrLen (bytesAt p.payload behind)) r.1 r.2 (p :: ps) := by
    rw [vjCompressTcp]
    dsimp only
    rw [if_neg (not_not.2 hproto), if_neg hlong, if_neg (not_not.2 hflags), hlocate, Option.bind_some]
    refine (if_neg (Nat.not_lt_of_le hfirst)).trans ?_
    split
    · next hnone => rw [show changed = none from hchanged.trans hnone]; rfl
    · next hsome => rw [show changed = some _ from hchanged.trans hsome]; rfl
  rcases hchanges : changed with _ | ⟨changes, bs⟩
  · rw [hchanges, Option.elim_none] at hlocated
    obtain ⟨recv, hrecv, hsync⟩ := hs.uncompressed hring hslots hcs hip hproto hfirst ps env.behind
    refine ⟨_, p :: ps, ?_, rfl, hsync⟩
    rw [VjLink.pass, hlocated, sendUncompressed, Option.bind_some]
    dsimp only
    rw [hrecv]
    rfl
  · rw [hchanges, Option.elim_some] at hlocated
    obtain ⟨hfoundtrue, hvj⟩ := Option.ite_none_right_eq_some.1 (hchanged.symm.trans hchanges)
    rw [hhdr] at hvj
    have hconn := hfound hfoundtrue
    obtain ⟨xmit, pb, recv, pb', hsend, hrecv, hbytes, hsync⟩ := hs.compressed hring hslots hcs hip hpacket hconn hvj
      (hkept cs hcs hconn (by
        intro hnone
        exact Option.some_ne_none _ (hvj.symm.trans hnone))) hx.realign hx.prepend
    refine ⟨⟨xmit, recv⟩, pb', ?_, hbytes, hsync⟩
    rw [VjLink.pass, hlocated]
    dsimp only
    rw [hsend, Option.bind_some]
    dsimp only
    rw [hrecv]
    rfl

/-- In a run, every packet keeps the flags of the last one of its connection. -/
def KeepsFlagsThroughout : VjLink → List VjInput → Prop
  | _, [] => True
  | s, x :: xs => KeepsPushed s.xmit x.ip ∧ ∀ r, s.pass x = some r → KeepsFlagsThroughout r.1 xs

instance : (s : VjLink) → (xs : List VjInput) → Decidable (KeepsFlagsThroughout s xs)
  | _, [] => inferInstanceAs (Decidable True)
  | s, x :: xs =>
    have (r : VjLink × Option (List Pbuf)) : Decidable (KeepsFlagsThroughout r.1 xs) :=
      instDecidableKeepsFlagsThroughout r.1 xs
    inferInstanceAs (Decidable (_ ∧ ∀ r ∈ s.pass x, KeepsFlagsThroughout r.1 xs))

/-- A run between two ends that agree. -/
theorem Synced.run (hs : Synced s) (hxs : ∀ x ∈ xs, Sendable alg x) (hkeep : KeepsFlagsThroughout s xs) :
    ∃ s' out, s.run xs = some (s', out) ∧ out.map (Option.map pbufBytes) = xs.map fun x ↦ some (pbufBytes x.pb) := by
  induction xs generalizing s with
  | nil => exact ⟨s, [], rfl, rfl⟩
  | cons x xs ih =>
    obtain ⟨hkeepx, hrest⟩ := hkeep
    obtain ⟨s', pb, hpass, hbytes, hs'⟩ := hs.pass (hxs x List.mem_cons_self) hkeepx
    obtain ⟨s'', out, hrun, hout⟩ := ih hs' (fun y hy ↦ hxs y (List.mem_cons_of_mem _ hy)) (hrest _ hpass)
    refine ⟨s'', some pb :: out, ?_, ?_⟩
    · rw [VjLink.run, hpass, Option.bind_some, hrun]
      rfl
    · rw [List.map_cons, List.map_cons, hout, ← hbytes]
      rfl

/-- The two ends of a link behind `vj_compress_init`, with slot compression or without. -/
def VjLink.start (xmit recv : VjCompress) (compressSlot : Bool) : VjLink :=
  ⟨{ vjCompressInit xmit with compressSlot := compressSlot }, vjCompressInit recv⟩

theorem synced_start {xmit : VjCompress} (hzero : ∀ i < maxSlots, (xmit.tstate i).csHdr 0 = 0) (recv : VjCompress)
    (compressSlot : Bool) : Synced (VjLink.start xmit recv compressSlot) := by
  have hring := VjCompress.ring_init xmit
  refine ⟨⟨hring.links, hring.csId⟩, fun i hi ↦ Or.inl ?_, Or.inl rfl⟩
  show (if i < maxSlots then _ else _ : Cstate).csHdr 0 = 0
  rw [if_pos hi]
  exact hzero i hi

/-- **Lossless runs**: any packets, of any number of connections, come out as they were sent, byte for byte and in
order, as long as every compressed one has the `PSH` and the `URG` of the last packet of its connection. The sender's
memory was cleared before `vj_compress_init`. -/
theorem run_lossless {xmit : VjCompress} (hzero : ∀ i < maxSlots, (xmit.tstate i).csHdr 0 = 0) (recv : VjCompress)
    (compressSlot : Bool) (hxs : ∀ x ∈ xs, Sendable alg x)
    (hkeep : KeepsFlagsThroughout (VjLink.start xmit recv compressSlot) xs) :
    ∃ s' out, (VjLink.start xmit recv compressSlot).run xs = some (s', out) ∧
      out.map (Option.map pbufBytes) = xs.map fun x ↦ some (pbufBytes x.pb) :=
  (synced_start hzero recv compressSlot).run hxs hkeep

/-! ### A `PSH` that comes twice -/

/-- Memory that was cleared. -/
def clearedVj : VjCompress := ⟨0, 0, 0, false, false, fun _ ↦ ⟨0, 0, 0, fun _ ↦ 0⟩, fun _ ↦ ⟨0, 0, 0, fun _ ↦ 0⟩⟩

/-- One byte, `n`, with the sequence number `n`. -/
def segment (n flags : BitVec 8) : VjInput where
  pb := [⟨[0x45, 0, 0, 41, 0, n, 0, 0, 64, 6, 0x66, 0xcd - n, 10, 0, 0, 1, 10, 0, 0, 2,
    0, 80, 4, 0, 0, 0, 0, n, 0, 0, 0, 9, 0x50, flags, 16, 0, 0xab, 0xcd, 0, 0, n], 41⟩]
  behind := fun _ ↦ 0
  env := ⟨fun _ ↦ 0, true, true, true, true⟩

theorem segment_sendable {n flags : BitVec 8} (hn : n = 1 ∨ n = 2) (hflags : flags = tcpAck ∨ flags = tcpAck ||| tcpPsh) :
    Sendable .two (segment n flags) := by
  rcases hn with rfl | rfl <;> rcases hflags with rfl | rfl <;>
    exact ⟨by decide, fun _ _ ↦ ⟨⟨by decide, by decide, by decide⟩, by decide, by decide,
      fun p hp ↦ by rw [← Option.some.inj hp]; decide, 0, by decide⟩, rfl, rfl⟩

/-- **The second of two segments comes out with a `PSH`** that only the first one had. -/
theorem pushed_again :
    (∀ x ∈ [segment 1 (tcpAck ||| tcpPsh), segment 2 tcpAck], Sendable .two x) ∧
      ((VjLink.start clearedVj clearedVj true).run [segment 1 (tcpAck ||| tcpPsh), segment 2 tcpAck]).map
          (fun r ↦ r.2.map (Option.map pbufBytes)) =
        some [some (pbufBytes (segment 1 (tcpAck ||| tcpPsh)).pb), some (pbufBytes (segment 2 (tcpAck ||| tcpPsh)).pb)] ∧
      pbufBytes (segment 2 (tcpAck ||| tcpPsh)).pb ≠ pbufBytes (segment 2 tcpAck).pb := by
  refine ⟨fun x hx ↦ ?_, by decide, by decide⟩
  rcases List.mem_cons.1 hx with rfl | hx
  · exact segment_sendable (Or.inl rfl) (Or.inr rfl)
  · obtain rfl := List.mem_singleton.1 hx
    exact segment_sendable (Or.inr rfl) (Or.inl rfl)

/-- A `PSH` that only the second segment has crosses the link. -/
theorem run_lossless_pushed :
    ∃ s' out, (VjLink.start clearedVj clearedVj true).run [segment 1 tcpAck, segment 2 (tcpAck ||| tcpPsh)] =
        some (s', out) ∧
      out.map (Option.map pbufBytes) =
        [some (pbufBytes (segment 1 tcpAck).pb), some (pbufBytes (segment 2 (tcpAck ||| tcpPsh)).pb)] := by
  refine @run_lossless .two _ clearedVj (fun _ _ ↦ rfl) clearedVj true (fun x hx ↦ ?_) ?_
  · rcases List.mem_cons.1 hx with rfl | hx
    · exact segment_sendable (Or.inl rfl) (Or.inl rfl)
    · obtain rfl := List.mem_singleton.1 hx
      exact segment_sendable (Or.inr rfl) (Or.inr rfl)
  · decide

end Lwip.Netif.Ppp
